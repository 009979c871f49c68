/-!
Text as UTF-8 bytes. Bytes that are no UTF-8 are refused with the place of the first sequence that
is wrong: either a byte in it rules out every character, and the sequence is the bytes before that
one, or the bytes end before the character is complete.
-/

namespace BoundedMerge.Utf8

structure Fault where
  /-- Bytes before it. -/
  index : Nat
  /-- Its length, or nothing if the bytes end in it. -/
  length : Option Nat
deriving DecidableEq, Repr

def Fault.message : Fault → String
  | ⟨index, some length⟩ => s!"invalid utf-8 sequence of {length} bytes from index {index}"
  | ⟨index, none⟩ => s!"incomplete utf-8 byte sequence from index {index}"

/-- The ranges of the bytes that must follow a first byte, or nothing if no character begins with
it. The narrower ranges leave out surrogates, numbers beyond the last character and numbers that
fewer bytes can write. -/
def follow? (first : UInt8) : Option (List (UInt8 × UInt8)) :=
  if first < 0x80 then some []
  else if first < 0xC2 then none
  else if first < 0xE0 then some [any]
  else if first = 0xE0 then some [(0xA0, 0xBF), any]
  else if first = 0xED then some [(0x80, 0x9F), any]
  else if first < 0xF0 then some [any, any]
  else if first = 0xF0 then some [(0x90, 0xBF), any, any]
  else if first < 0xF4 then some [any, any, any]
  else if first = 0xF4 then some [(0x80, 0x8F), any, any]
  else none
where
  any : UInt8 × UInt8 := (0x80, 0xBF)

/-- The length of the wrong sequence that bytes make which should lie in the given ranges, nothing
in its place if they end early, and nothing at all if they are right. -/
def wrong? (length : Nat) : List (UInt8 × UInt8) → List UInt8 → Option (Option Nat)
  | [], _ => none
  | _ :: _, [] => some none
  | (low, high) :: ranges, b :: bytes =>
    if low ≤ b ∧ b ≤ high then wrong? (length + 1) ranges bytes else some (some length)

def fault? (index : Nat) : List UInt8 → Option Fault
  | [] => none
  | first :: bytes =>
    match follow? first with
    | none => some ⟨index, some 1⟩
    | some ranges =>
      match wrong? 1 ranges bytes with
      | some length => some ⟨index, length⟩
      | none => fault? (index + 1 + ranges.length) (bytes.drop ranges.length)
termination_by bytes => bytes.length
decreasing_by simp only [List.length_drop, List.length_cons]; omega

def encode (s : String) : List UInt8 := s.toUTF8.data.toList

def decode (bytes : List UInt8) : Except Fault String :=
  match String.fromUTF8? bytes.toByteArray with
  | some s => .ok s
  | none => .error ((fault? 0 bytes).getD ⟨0, none⟩)

end BoundedMerge.Utf8
