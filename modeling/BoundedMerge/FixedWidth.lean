/-!
Records of a fixed width. Record `i` of a file stands at byte `i * width`, so a record type says
how many bytes a record takes and how it is written into them. What the type takes in main memory
is a different number, which only the budget sees.
-/

namespace BoundedMerge

/-- Size and alignment, in bytes, of a type's values in main memory. -/
structure Footprint where
  size : Nat
  align : Nat
deriving DecidableEq, Repr

namespace Footprint

def roundUp (size align : Nat) : Nat := (size + align - 1) / align * align

/-- Two values side by side, padded to the larger alignment. -/
def pair (a b : Footprint) : Footprint :=
  let align := max a.align b.align
  ⟨roundUp (a.size + b.size) align, align⟩

def array (a : Footprint) (count : Nat) : Footprint := ⟨count * a.size, a.align⟩

/-- A value that may be absent: the mark takes one alignment unit. -/
def option (a : Footprint) : Footprint := ⟨a.size + a.align, a.align⟩

def word : Footprint := ⟨8, 8⟩

end Footprint

/-- A type whose values are written into `width` bytes each. `decode` looks at the first `width`
bytes only and takes missing bytes as zero. -/
class FixedWidth (τ : Type) where
  width : Nat
  encode : τ → List UInt8
  decode : List UInt8 → τ
  footprint : Footprint

/-- A record that was written is read again, whatever follows it. -/
class LawfulFixedWidth (τ : Type) [FixedWidth τ] : Prop where
  length_encode (x : τ) : (FixedWidth.encode x).length = FixedWidth.width τ
  decode_append (x : τ) (rest : List UInt8) :
    FixedWidth.decode (FixedWidth.encode x ++ rest) = x

/-- Bytes that were not written as a record are those of the record that is read from them. -/
class CanonicalFixedWidth (τ : Type) [FixedWidth τ] : Prop extends LawfulFixedWidth τ where
  encode_decode (bytes : List UInt8) (h : FixedWidth.width τ ≤ bytes.length) :
    FixedWidth.encode (FixedWidth.decode bytes : τ) = bytes.take (FixedWidth.width τ)

namespace FixedWidth

variable {τ : Type} [FixedWidth τ]

/-- The record that is read where nothing was ever written. -/
def blank : τ := decode []

/-- The records of a run of bytes; the last one may have bytes missing. -/
def decodeAll (bytes : Array UInt8) : Array τ :=
  Array.ofFn fun i : Fin ((bytes.size + width τ - 1) / width τ) =>
    decode (bytes.extract (i * width τ) ((i + 1) * width τ)).toList

def encodeAll (records : List τ) : List UInt8 := records.flatMap encode

end FixedWidth

end BoundedMerge
