import BoundedMerge.Wire.Reader

/-!
Reading a sequence into a buffer of a fixed length. The items that were read before a failure stay
in the buffer, and the places behind the last item keep what they held.
-/

namespace BoundedMerge.Wire

abbrev BufferM := ExceptT WireError (StateT (Array Datum) (StateM Source))

def reading {α : Type} (work : ReadM α) : BufferM α := do
  match ← (work.run : StateM Source _) with
  | .ok a => return a
  | .error e => throw e

def readFrom (tagged : Bool) (k : Kind) (place : Nat) : Nat → BufferM Unit
  | 0 => return
  | count + 1 => do
    let d ← reading (read tagged k)
    modify fun buffer => buffer.setIfInBounds place d
    readFrom tagged k (place + 1) count

def readInto (tagged : Bool) (k : Kind) : BufferM Nat := do
  let count ← reading do
    expect tagged .seq
    readCount
  let capacity := (← get).size
  if capacity < count then throw (.arrayTooShort count capacity)
  readFrom tagged k 0 count
  return count

end BoundedMerge.Wire
