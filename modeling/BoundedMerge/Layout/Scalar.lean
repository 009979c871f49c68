import BoundedMerge.LittleEndian

/-!
Scalars: integers of 8 to 128 bits, signed or not, and floating-point numbers of 32 and 64 bits.
A value is its bit pattern, written with the least significant byte first, so every pattern is a
value and writing loses nothing. Signed integers are in two's complement; floating-point numbers
are ordered by sign, then exponent and fraction, which puts -0.0 below 0.0 and the NaNs outside.
-/

namespace BoundedMerge

inductive Width
  | w8 | w16 | w32 | w64 | w128
deriving DecidableEq, Repr

def Width.bytes : Width → Nat
  | w8 => 1
  | w16 => 2
  | w32 => 4
  | w64 => 8
  | w128 => 16

inductive Scalar
  | unsigned (w : Width)
  | signed (w : Width)
  | float32
  | float64
deriving DecidableEq, Repr

namespace Scalar

def bytes : Scalar → Nat
  | unsigned w | signed w => w.bytes
  | float32 => 4
  | float64 => 8

abbrev Bits (s : Scalar) : Type := BitVec (8 * s.bytes)

def encode {s : Scalar} (v : s.Bits) : List UInt8 := LittleEndian.encode s.bytes v.toNat

/-- Looks at the first bytes only, and takes missing bytes as zero. -/
def decode (s : Scalar) (bytes : List UInt8) : s.Bits :=
  BitVec.ofNat _ (LittleEndian.decode (bytes.take s.bytes))

def ofInt (s : Scalar) (n : Int) : s.Bits := BitVec.ofInt _ n

/-- The integer that a pattern stands for. For a floating-point number it is the pattern's place
in their order: the pattern itself if the sign is plus, else minus one less the other bits. -/
def rank : (s : Scalar) → s.Bits → Int
  | unsigned _, v => v.toNat
  | signed _, v => v.toInt
  | float32, v => floatRank v
  | float64, v => floatRank v
where
  floatRank {n : Nat} (v : BitVec n) : Int :=
    if v.msb then -(v &&& BitVec.intMax n).toNat - 1 else v.toNat

protected def compare (s : Scalar) (a b : s.Bits) : Ordering := compare (s.rank a) (s.rank b)

/-- The value of a floating-point pattern with `e` exponent bits and `f` fraction bits, cut off
toward zero. Infinities and numbers beyond 128 bits give the nearest bound, and a NaN gives 0. -/
def floatTrunc (e f : Nat) (v : Nat) : Int :=
  let fraction := v % (1 <<< f)
  let exponent := (v >>> f) % (1 <<< e)
  let bias := (1 <<< (e - 1)) - 1
  let bound : Nat := 1 <<< 127
  if exponent = (1 <<< e) - 1 ∧ fraction ≠ 0 then 0
  else
    let magnitude : Nat :=
      if exponent < bias then 0
      else if bias + 127 ≤ exponent then bound
      else (((1 <<< f) + fraction) <<< (exponent - bias)) >>> f
    if v.testBit (e + f) then -magnitude else min magnitude (bound - 1)

def key : (s : Scalar) → s.Bits → Int
  | unsigned .w128, v => v.toInt
  | unsigned _, v => v.toNat
  | signed _, v => v.toInt
  | float32, v => floatTrunc 8 23 v.toNat
  | float64, v => floatTrunc 11 52 v.toNat

end Scalar

end BoundedMerge
