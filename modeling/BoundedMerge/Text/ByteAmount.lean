import BoundedMerge.Rounding
import BoundedMerge.Text.Blank
import BoundedMerge.Text.Numeral

/-!
Amounts of bytes as text. A numeral is a number of bytes. Any other amount is a decimal number and
a unit, with blanks between them or none. The decimal number, and then its product with the unit,
are rounded to the 53 significant bits of a floating-point number, and a fraction of a byte that is
left does not count.
-/

namespace BoundedMerge.ByteAmount

/-- The lower case of the letters in units. The sign for degrees Kelvin is a capital k. -/
def lower (c : Char) : Char := if c = '\u212A' then 'k' else c.toLower

/-- The bytes of a unit, which is given in lower case. -/
def unit? : String → Option Nat
  | "b" => some 1
  | "k" | "kb" => some 1000
  | "m" | "mb" => some 1000000
  | "g" | "gb" => some 1000000000
  | "t" | "tb" => some 1000000000000
  | "p" | "pb" => some 1000000000000000
  | "ki" | "kib" => some 1024
  | "mi" | "mib" => some 1048576
  | "gi" | "gib" => some 1073741824
  | "ti" | "tib" => some 1099511627776
  | "pi" | "pib" => some 1125899906842624
  | _ => none

def decimals? (x : Fraction) (text : List Char) : Option Fraction :=
  text.foldlM (fun x c => (Numeral.digit? c).map fun d => ⟨x.num * 10 + d, x.den * 10⟩) x

/-- The number that digits stand for, with at most one point among them. -/
def decimal? (text : List Char) : Option Fraction := do
  let whole := text.takeWhile (· ≠ '.')
  let decimals := text.drop (whole.length + 1)
  if whole.isEmpty ∧ decimals.isEmpty then none
  let x ← decimals? ⟨0, 1⟩ whole
  decimals? ⟨x.num, 1⟩ decimals

/-- Significant bits of a floating-point number. -/
def precision : Nat := 53

/-- Larger amounts count as this one. -/
def largest : Nat := NumeralRange.word64.high.toNat

def read? (text : List Char) : Option Nat :=
  match Numeral.read .word64 text with
  | .ok n => some n.toNat
  | .error _ => do
    let isPart (c : Char) : Bool := (Numeral.digit? c).isSome || c == '.'
    let number ← decimal? (text.takeWhile isPart)
    let name := (text.dropWhile isPart).dropWhile Blank.isBlank
    let unit ← unit? (String.ofList (name.map lower))
    let amount := ((number.round precision).times unit).round precision
    return min amount.floor largest

end BoundedMerge.ByteAmount
