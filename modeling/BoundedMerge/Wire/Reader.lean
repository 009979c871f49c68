import BoundedMerge.Wire.Datum
import BoundedMerge.Wire.Token

/-!
Reading data as a given kind. Where the data are tagged, every tag is compared with the tag of the
token that the kind asks for, and a value is never read as one of another kind. A read that finds
too few bytes uses up all that are left.
-/

namespace BoundedMerge.Wire

structure Source where
  /-- The bytes that are left. -/
  bytes : List UInt8
  /-- Why there are no more, if they do not simply end. -/
  fault : Option String := none

abbrev ReadM := ExceptT WireError (StateM Source)

def take (count : Nat) : ReadM (List UInt8) := do
  let source ← get
  let (data, bytes) := source.bytes.splitAt count
  set { source with bytes }
  if data.length < count then
    match source.fault with
    | some message => throw (.source message)
    | none => throw .outOfBytes
  return data

def takeNumber (count : Nat) : ReadM Nat := return LittleEndian.decode (← take count)

def expect (tagged : Bool) (tag : Token.Tag) : ReadM Unit := do
  if tagged then
    let found ← takeNumber 1
    if found ≠ tag.number then throw (.typeMismatch tag.number found)

def readBool : ReadM Bool := do
  match ← takeNumber 1 with
  | 0 => return false
  | 1 => return true
  | byte => throw (.invalidValue (.bool byte))

def readOptionFlag : ReadM Bool := do
  match ← takeNumber 1 with
  | 0 => return false
  | 1 => return true
  | byte => throw (.invalidValue (.optionFlag byte))

def readChar : ReadM Char := do
  let code ← takeNumber 4
  if code.isValidChar then return Char.ofNat code else throw (.invalidValue (.char code))

def readCount : ReadM Nat := takeNumber 2

def readCounted : ReadM (List UInt8) := do take (← readCount)

def readText : ReadM String := do
  match Utf8.decode (← readCounted) with
  | .ok s => return s
  | .error fault => throw (.invalidValue (.text fault))

/-- Reads `count` items; those read before come in reverse order. -/
def readItems {α : Type} (item : ReadM α) : Nat → List α → ReadM (List α)
  | 0, items => return items.reverse
  | count + 1, items => do
    let x ← item
    readItems item count (x :: items)

mutual

def read (tagged : Bool) : Kind → ReadM Datum
  | .bool => do
    expect tagged .bool
    return .bool (← readBool)
  | .scalar s => do
    expect tagged (.scalar s)
    return .scalar s (s.decode (← take s.bytes))
  | .char => do
    expect tagged .char
    return .char (← readChar)
  | .text => do
    expect tagged .text
    return .text (← readText)
  | .bytes => do
    expect tagged .bytes
    return .bytes (← readCounted)
  | .unit => do
    expect tagged .unit
    return .unit
  | .option k => do
    expect tagged .option
    if ← readOptionFlag then return .present (← read tagged k) else return .absent
  | .wrapper k => read tagged k
  | .seq item => do
    expect tagged .seq
    let count ← readCount
    return .seq (← readItems (read tagged item) count [])
  | .tuple fields => do
    expect tagged .tuple
    return .tuple (← readAll tagged fields)
  | .map key value => do
    expect tagged .map
    let count ← readCount
    let entry : ReadM (Datum × Datum) := do
      let k ← read tagged key
      let v ← read tagged value
      return (k, v)
    return .map (← readItems entry count [])
  | .struct fields => do
    expect tagged .struct
    return .struct (← readAll tagged fields)
  | .enum variants => do
    expect tagged .variant
    let index ← takeNumber 4
    if index < variants.length then return .variant index (← readVariant tagged variants index)
    else throw (.unknownVariant index variants.length)
  | .any => throw .notSelfDescribing
  | .refusing message => throw (.refused message)

def readAll (tagged : Bool) : List Kind → ReadM (List Datum)
  | [] => return []
  | k :: kinds => do
    let d ← read tagged k
    return d :: (← readAll tagged kinds)

def readVariant (tagged : Bool) : List Variant → Nat → ReadM (List Datum)
  | [], _ => return []
  | .unit :: _, 0 => return []
  | .wrapper k :: _, 0 => return [← read tagged k]
  | .tuple fields :: _, 0 => readAll tagged fields
  | .struct fields :: _, 0 => readAll tagged fields
  | _ :: variants, index + 1 => readVariant tagged variants index

end

/-- Reads a datum that must be the expected one. -/
def verify (tagged : Bool) (k : Kind) (expected : Datum) : ReadM Unit := do
  let found ← read tagged k
  if !found.same expected then throw .verificationFailed

end BoundedMerge.Wire
