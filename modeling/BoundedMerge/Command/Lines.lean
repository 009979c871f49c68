import BoundedMerge.Text.Blank
import BoundedMerge.Text.Numeral
import BoundedMerge.Text.Utf8

/-!
Integers as lines of text. Blanks around an integer do not count, and a line of blanks alone holds
none. The last line may lack its line feed.
-/

namespace BoundedMerge.Lines

inductive Fault
  | notText
  | noInteger (e : NumeralError)
deriving DecidableEq, Repr

def split (bytes : List UInt8) : List (List UInt8) :=
  bytes.foldr (fun b lines =>
    if b = '\n'.toUInt8 then [] :: lines
    else match lines with
      | [] => [[b]]
      | line :: lines => (b :: line) :: lines) []

def read (line : List UInt8) : Except Fault (Option Int) :=
  match Utf8.decode line with
  | .error _ => .error .notText
  | .ok text =>
    match Blank.trim text.toList with
    | [] => .ok none
    | numeral =>
      match Numeral.read .int64 numeral with
      | .ok n => .ok (some n)
      | .error e => .error (.noInteger e)

def render (numbers : List Int) : String :=
  String.ofList (numbers.flatMap fun n => Numeral.render n ++ ['\n'])

end BoundedMerge.Lines
