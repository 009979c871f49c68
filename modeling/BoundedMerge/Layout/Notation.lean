import BoundedMerge.Layout.Order

/-!
The notation of layouts and criteria. A scalar is a letter and the number of its bits, as in
`u16`, `i8` or `f64`. An array is `[item;count]` and a pair `(first,second)`.
-/

namespace BoundedMerge

namespace Scalar

def ofName? : String → Option Scalar
  | "u8" => some (unsigned .w8)
  | "u16" => some (unsigned .w16)
  | "u32" => some (unsigned .w32)
  | "u64" => some (unsigned .w64)
  | "u128" => some (unsigned .w128)
  | "i8" => some (signed .w8)
  | "i16" => some (signed .w16)
  | "i32" => some (signed .w32)
  | "i64" => some (signed .w64)
  | "i128" => some (signed .w128)
  | "f32" => some float32
  | "f64" => some float64
  | _ => none

end Scalar

namespace Layout

def upTo? (mark : Char) (text : List Char) : Option (List Char × List Char) :=
  match text.dropWhile (· ≠ mark) with
  | [] => none
  | _ :: rest => some (text.takeWhile (· ≠ mark), rest)

/-- The layout that a text begins with, and what follows it, for layouts nested no deeper than
the given number. -/
def part? : Nat → List Char → Option (Layout × List Char)
  | 0, _ => none
  | depth + 1, '[' :: text => do
    let (item, text) ← part? depth text
    let (_, text) ← upTo? ';' text
    let (count, text) ← upTo? ']' text
    return (array item (← (String.ofList count).toNat?), text)
  | depth + 1, '(' :: text => do
    let (first, text) ← part? depth text
    let (_, text) ← upTo? ',' text
    let (second, text) ← part? depth text
    let (_, text) ← upTo? ')' text
    return (pair first second, text)
  | _ + 1, text => do
    let name := text.takeWhile Char.isAlphanum
    return (scalar (← Scalar.ofName? (String.ofList name)), text.drop name.length)

/-- The layout that a text stands for; blanks do not count. -/
def ofNotation? (text : String) : Option Layout :=
  match part? (text.length + 1) (text.toList.filter (· ≠ ' ')) with
  | some (l, []) => some l
  | _ => none

end Layout

def Criterion.ofName? : String → Option Criterion
  | "asc" => some ascending
  | "desc" => some descending
  | "key" => some byKey
  | "key_desc" => some byKeyDescending
  | "abs" => some byMagnitude
  | "mod10" => some byLastDigit
  | "equal" => some allEqual
  | _ => none

end BoundedMerge
