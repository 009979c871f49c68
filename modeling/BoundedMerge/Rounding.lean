/-!
Rounding of fractions to a number of significant bits. The result is the nearest fraction of an
integer with that many bits and a power of two; of two that are equally near it is the one whose
integer is even.
-/

namespace BoundedMerge

/-- The fraction `num / den`; the denominator is positive. -/
structure Fraction where
  num : Nat
  den : Nat
deriving DecidableEq, Repr

namespace Fraction

def floor (x : Fraction) : Nat := x.num / x.den

/-- The nearest integer, of two the even one. -/
def nearest (x : Fraction) : Nat :=
  let below := x.floor
  let rest := x.num % x.den
  if 2 * rest < x.den then below
  else if x.den < 2 * rest then below + 1
  else below + below % 2

def scale (x : Fraction) (power : Int) : Fraction :=
  ⟨x.num <<< power.toNat, x.den <<< (-power).toNat⟩

def log2 (x : Fraction) : Int :=
  let power : Int := x.num.log2 - x.den.log2
  let scaled := x.scale (-power)
  if scaled.den ≤ scaled.num then power else power - 1

def round (bits : Nat) (x : Fraction) : Fraction :=
  if x.num = 0 then x
  else
    let power := x.log2 + 1 - bits
    scale ⟨(x.scale (-power)).nearest, 1⟩ power

def times (x : Fraction) (n : Nat) : Fraction := ⟨x.num * n, x.den⟩

end Fraction

end BoundedMerge
