import BoundedMerge.Text.Hex
import BoundedMerge.Text.Utf8

/-! Why a datum could not be written or read. -/

namespace BoundedMerge

inductive InvalidDatum
  | bool (byte : Nat)
  | optionFlag (byte : Nat)
  | char (code : Nat)
  | text (fault : Utf8.Fault)
deriving DecidableEq, Repr

def InvalidDatum.message : InvalidDatum → String
  | bool byte => s!"{byte} is not a bool"
  | optionFlag byte => s!"{byte} is not an option flag"
  | char code => s!"0x{Hex.digits 1 code} is not a char"
  | text fault => fault.message

inductive WireError
  /-- The bytes end inside a datum. -/
  | outOfBytes
  /-- A sequence has more items than the buffer it is read into. -/
  | arrayTooShort (declared capacity : Nat)
  | typeMismatch (expected found : Nat)
  | verificationFailed
  /-- A text, sequence or map is too long for its count. -/
  | lengthOverflow (length : Nat)
  | unknownLength
  | badHeader
  /-- The kind cannot be told from the bytes. -/
  | notSelfDescribing
  | invalidValue (v : InvalidDatum)
  /-- An enum has `count` variants, and none with this index. -/
  | unknownVariant (index count : Nat)
  /-- A value refused to be written or read. -/
  | refused (message : String)
  /-- There was no room for all the bytes. -/
  | noRoom
  /-- No more bytes could be had, for a reason outside. -/
  | source (message : String)
deriving DecidableEq, Repr

def WireError.message : WireError → String
  | outOfBytes => "out of bytes"
  | arrayTooShort declared capacity =>
    s!"array too short: {declared} items declared, capacity {capacity}"
  | typeMismatch expected found => s!"type mismatch: expected tag {expected}, found {found}"
  | verificationFailed => "verification failed"
  | lengthOverflow length => s!"length {length} does not fit the length prefix"
  | unknownLength => "sequence length must be known"
  | badHeader => "bad serialization header"
  | notSelfDescribing => "format is not self-describing"
  | invalidValue v => s!"invalid value: {v.message}"
  | unknownVariant index count =>
    s!"invalid value: integer \x60{index}\x60, expected variant index 0 <= i < {count}"
  | refused message => message
  | noRoom => "failed to write whole buffer"
  | source message => message

def WireError.causes : WireError → List String
  | e@noRoom | e@(source _) => [e.message]
  | _ => []

end BoundedMerge
