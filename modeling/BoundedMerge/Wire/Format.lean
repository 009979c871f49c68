import BoundedMerge.Wire.Buffer
import BoundedMerge.Wire.Writer

/-!
The format of a whole stream: a header and the data after it. The header has a marker behind its
length, the version of the format, and a byte that tells whether the data are tagged.
-/

namespace BoundedMerge.Wire

def marker : String := "EXT-MERGE SERIALIZATION"

def version : Nat := 1

/-- The format is made of bytes: values that have a written and a binary form take the latter. -/
def humanReadable : Bool := false

def writeHeader (tagged : Bool) : WriteM Unit := do
  push (LittleEndian.encode 2 marker.length)
  push (Utf8.encode marker)
  push (LittleEndian.encode 2 version)
  push [if tagged then 1 else 0]

def header (tagged : Bool) : List UInt8 :=
  ((writeHeader tagged).run {} : Except _ _ × Sink).2.bytes.toList

def readFields : ReadM Bool := do
  let name ← readCounted
  if name ≠ Utf8.encode marker then throw .badHeader
  if (← takeNumber 2) ≠ version then throw .badHeader
  readBool

/-- Reads a header and tells whether the data are tagged. A header that is wrong in any way is a
bad header. -/
def readHeader : ReadM Bool := tryCatch readFields fun _ => throw .badHeader

/-- The bytes of a single datum, header included. -/
def toBytes (tagged : Bool) (d : Datum) : Except WireError (List UInt8) :=
  match ((do writeHeader tagged; write tagged d : WriteM Unit).run {} : Except _ _ × Sink) with
  | (.ok _, sink) => .ok sink.bytes.toList
  | (.error e, _) => .error e

/-- The datum at the front of the bytes, behind the header. -/
def ofBytes (k : Kind) (bytes : List UInt8) : Except WireError Datum :=
  ((do read (← readHeader) k : ReadM Datum).run { bytes } : Except _ _ × Source).1

end BoundedMerge.Wire
