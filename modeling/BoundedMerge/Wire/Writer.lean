import BoundedMerge.Wire.Datum
import BoundedMerge.Wire.Token

/-!
Writing data into a sink. A sink may have room for a number of bytes only; it takes what fits and
then refuses. What was written before a failure stays written.
-/

namespace BoundedMerge.Wire

structure Sink where
  bytes : Array UInt8 := #[]
  /-- Bytes that still fit, or nothing if any number does. -/
  room : Option Nat := none

abbrev WriteM := ExceptT WireError (StateM Sink)

/-- Puts bytes into the sink, or as many of them as fit. -/
def push (data : List UInt8) : WriteM Unit := do
  match (← get).room with
  | none => modify fun sink => { sink with bytes := sink.bytes ++ data }
  | some room =>
    modify fun sink => { bytes := sink.bytes ++ data.take room, room := some (room - data.length) }
    if room < data.length then throw .noRoom

/-- Writes a token, after its tag if the data are `tagged`. -/
def emit (tagged : Bool) (t : Token) : WriteM Unit := do
  if tagged then push [t.tag.number.toUInt8]
  match t.payload with
  | .ok data => push data
  | .error e => throw e

mutual

def write (tagged : Bool) : Datum → WriteM Unit
  | .bool b => emit tagged (.bool b)
  | .scalar s v => emit tagged (.scalar s v)
  | .char c => emit tagged (.char c)
  | .text s => emit tagged (.text s)
  | .bytes data => emit tagged (.bytes data)
  | .unit => emit tagged .unit
  | .absent => emit tagged (.option false)
  | .present d => do
    emit tagged (.option true)
    write tagged d
  | .seq items => do
    emit tagged (.seq items.length)
    writeAll tagged items
  | .tuple fields => do
    emit tagged .tuple
    writeAll tagged fields
  | .map entries => do
    emit tagged (.map entries.length)
    writeEntries tagged entries
  | .struct fields => do
    emit tagged .struct
    writeAll tagged fields
  | .variant index fields => do
    emit tagged (.variant index)
    writeAll tagged fields
  | .unannounced => throw .unknownLength
  | .refusing message => throw (.refused message)

def writeAll (tagged : Bool) : List Datum → WriteM Unit
  | [] => return
  | d :: data => do
    write tagged d
    writeAll tagged data

def writeEntries (tagged : Bool) : List (Datum × Datum) → WriteM Unit
  | [] => return
  | (key, value) :: entries => do
    write tagged key
    write tagged value
    writeEntries tagged entries

end

/-- Writes items one after the other behind their number. -/
def writeSlice (tagged : Bool) (items : List Datum) : WriteM Unit := do
  emit tagged (.seq items.length)
  items.forM (write tagged)

end BoundedMerge.Wire
