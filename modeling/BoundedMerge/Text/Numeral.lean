/-!
Integers in decimal digits. A sign may precede the digits, a minus sign only where negative
integers are wanted. Reading goes from left to right and stops at the first character that is no
digit, or that makes the number leave its range.
-/

namespace BoundedMerge

structure NumeralRange where
  low : Int
  high : Int

namespace NumeralRange

def int64 : NumeralRange := ⟨-9223372036854775808, 9223372036854775807⟩

def word64 : NumeralRange := ⟨0, 18446744073709551615⟩

end NumeralRange

inductive NumeralError
  | empty
  | invalidDigit
  | tooLarge
  | tooSmall
deriving DecidableEq, Repr

def NumeralError.message : NumeralError → String
  | empty => "cannot parse integer from empty string"
  | invalidDigit => "invalid digit found in string"
  | tooLarge => "number too large to fit in target type"
  | tooSmall => "number too small to fit in target type"

namespace Numeral

def digit? (c : Char) : Option Nat :=
  if '0' ≤ c ∧ c ≤ '9' then some (c.toNat - '0'.toNat) else none

/-- Reads on after digits with the value `n`; every digit counts `sign`. -/
def readDigits (r : NumeralRange) (sign n : Int) : List Char → Except NumeralError Int
  | [] => .ok n
  | c :: text =>
    match digit? c with
    | none => .error .invalidDigit
    | some d =>
      let n := n * 10 + sign * d
      if r.high < n then .error .tooLarge
      else if n < r.low then .error .tooSmall
      else readDigits r sign n text

def read (r : NumeralRange) : List Char → Except NumeralError Int
  | [] => .error .empty
  | '+' :: c :: text => readDigits r 1 0 (c :: text)
  | '-' :: c :: text =>
    if r.low < 0 then readDigits r (-1) 0 (c :: text) else .error .invalidDigit
  | text => readDigits r 1 0 text

def render (n : Int) : List Char :=
  let digits := Nat.toDigits 10 n.natAbs
  if n < 0 then '-' :: digits else digits

end Numeral

end BoundedMerge
