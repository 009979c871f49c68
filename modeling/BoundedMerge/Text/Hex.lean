/-! Numbers and bytes in hexadecimal digits, the letters in lower case. -/

namespace BoundedMerge.Hex

/-- The digits of a number, filled up with zeros to `width` digits. -/
def digits (width n : Nat) : String :=
  let text := String.ofList (Nat.toDigits 16 n)
  "".pushn '0' (width - text.length) ++ text

def digit? (c : Char) : Option Nat :=
  if '0' ≤ c ∧ c ≤ '9' then some (c.toNat - '0'.toNat)
  else if 'a' ≤ c ∧ c ≤ 'f' then some (c.toNat - 'a'.toNat + 10)
  else none

def number? (text : String) : Option Nat :=
  text.toList.foldlM (fun n c => (digit? c).map (n * 16 + ·)) 0

def encode (bytes : List UInt8) : String :=
  String.join (bytes.map fun b => digits 2 b.toNat)

def decode? (text : String) : Option (List UInt8) := go text.toList
where
  go : List Char → Option (List UInt8)
    | [] => some []
    | [_] => none
    | high :: low :: rest => do
      let b := (← digit? high) * 16 + (← digit? low)
      return b.toUInt8 :: (← go rest)

end BoundedMerge.Hex
