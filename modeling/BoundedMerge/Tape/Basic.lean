import BoundedMerge.FixedWidth
import BoundedMerge.Site

/-!
A tape is a sequence of records on a disk, with a cursor between two records. Records are reached
through one cached block of `blockItems` records. The block is charged to the ledger while it is
held; it is fetched when a record in it is first touched, and written back, if it was changed,
when another block is fetched, when the tape is flushed and when it is closed.
-/

namespace BoundedMerge

variable {τ : Type}

/-- The cached block: records `index * blockItems` and following. Places past the last item are
blank. -/
structure Block (τ : Type) where
  index : Nat
  items : Array τ
  dirty : Bool
  lease : Lease

namespace Block

variable [FixedWidth τ]

def get (b : Block τ) (slot : Nat) : τ := b.items.getD slot FixedWidth.blank

/-- The block with another record at `slot`; places between the last item and the slot are filled
with blanks. -/
def set (b : Block τ) (slot : Nat) (x : τ) : Block τ :=
  let items := b.items ++ Array.replicate (slot + 1 - b.items.size) FixedWidth.blank
  { b with items := items.setIfInBounds slot x, dirty := true }

def image (b : Block τ) (count : Nat) : List τ := (List.range count).map b.get

end Block

structure Tape (τ : Type) where
  disk : Disk
  path : Option String := none
  /-- Records in a block. -/
  blockItems : Nat
  /-- Records on the tape. -/
  size : Nat
  /-- The cursor, the number of records before it. -/
  offset : Nat := 0
  block : Option (Block τ) := none

abbrev TapeM (τ : Type) := ExceptT TapeError (StateT (Tape τ) SiteM)

namespace Tape

/-- The block size of a tape for which none was chosen: 64 KiB. -/
def defaultBlockSize : Nat := 64 * 1024

/-- Bytes of the handle of an open tape, its block apart. -/
def handleSize : Nat := 120

/-- Records of `width` bytes in a block of `blockSize` bytes; a block holds one at least. -/
def itemsPerBlock (width blockSize : Nat) : Nat := max 1 (blockSize / width)

section

variable [FixedWidth τ]

def blockSize (t : Tape τ) : Nat := t.blockItems * FixedWidth.width τ

def memoryUsage (τ : Type) [FixedWidth τ] (blockSize : Nat) : Nat :=
  itemsPerBlock (FixedWidth.width τ) blockSize * FixedWidth.width τ + handleSize

/-- Bytes that an open tape takes, for records that have a place on a tape: those without width
have none. -/
def measure (τ : Type) [FixedWidth τ] (blockSize : Nat) : SiteM Nat := do
  if FixedWidth.width τ = 0 then Site.halt .outOfRange
  Site.count (memoryUsage τ blockSize)
  return memoryUsage τ blockSize

def ofDisk (disk : Disk) (path : Option String) (blockSize : Nat) : Tape τ where
  disk
  path
  blockItems := itemsPerBlock (FixedWidth.width τ) blockSize
  size := disk.bytes.size / FixedWidth.width τ

def openNamed (path : String) (file : Except DiskError Disk) (blockSize : Nat) :
    SiteM (Except TapeError (Tape τ)) := do
  Site.assert (0 < FixedWidth.width τ) .emptyRecord
  match file with
  | .error e => return .error (.disk e)
  | .ok disk =>
    let width := FixedWidth.width τ
    if disk.bytes.size % width ≠ 0 then
      return .error (.disk (.ragged path disk.bytes.size width))
    else return .ok (ofDisk disk path blockSize)

def temporary (blockSize : Nat) : SiteM (Except TapeError (Tape τ)) := do
  match ← Site.newFile with
  | .error e => return .error (.disk e)
  | .ok disk =>
    Site.assert (0 < FixedWidth.width τ) .emptyRecord
    return .ok { ofDisk disk none blockSize with size := 0 }

end

def canRead (t : Tape τ) : Bool := t.offset < t.size

def canReadBack (t : Tape τ) : Bool := 0 < t.offset

def held (t : Tape τ) : Nat := (t.block.map (·.lease.bytes)).getD 0

def onDisk {α : Type} (request : Disk → Except DiskError α × Disk) : TapeM τ α := do
  let t ← get
  let (outcome, disk) := request t.disk
  set { t with disk }
  match outcome with
  | .ok a => return a
  | .error e => throw (.disk e)

variable [FixedWidth τ]

/-- Puts the records of a changed block that lie on the tape back to their place on the disk. -/
def writeBack (b : Block τ) : TapeM τ Unit := do
  if b.dirty then
    let t ← get
    let first := b.index * t.blockItems
    let records := b.image (min t.blockItems (t.size - first))
    onDisk (Disk.write (first * FixedWidth.width τ) (FixedWidth.encodeAll records))

/-- Reads block `index` into memory that is already charged. -/
def fetch (index : Nat) (lease : Lease) : TapeM τ Unit := do
  let bytes := (← get).blockSize
  let image ← onDisk (Disk.read (index * bytes) bytes)
  let block := { index, items := FixedWidth.decodeAll image, dirty := false, lease }
  modify fun t => { t with block := some block }

def orRelease (lease : Lease) (work : TapeM τ Unit) : TapeM τ Unit :=
  tryCatch work fun e => do
    lease.release
    throw e

/-- Caches block `index`. The block cached before leaves the cache first: if it cannot be written
back, or the other one not be read, no block is cached afterwards. -/
def load (index : Nat) : TapeM τ Unit := do
  match (← get).block with
  | some b =>
    if b.index ≠ index then
      modify fun t => { t with block := none }
      orRelease b.lease do
        writeBack b
        fetch index b.lease
  | none =>
    let bytes := (← get).blockSize
    Site.provide bytes
    let lease ← Lease.take bytes
    orRelease lease (fetch index lease)

/-- Works on the cached block; there is one whenever a block was just loaded. -/
def withBlock {α : Type} (work : Block τ → α × Block τ) : TapeM τ α := do
  match (← get).block with
  | some b =>
    let (a, b) := work b
    modify fun t => { t with block := some b }
    return a
  | none => Site.halt .outOfRange

def recordAt (index : Nat) : TapeM τ τ := do
  let items := (← get).blockItems
  load (index / items)
  withBlock fun b => (b.get (index % items), b)

/-- The record at the cursor; the cursor moves past it. -/
def read : TapeM τ τ := do
  let t ← get
  if t.size ≤ t.offset then throw .endOfTape
  let x ← recordAt t.offset
  modify fun t => { t with offset := t.offset + 1 }
  return x

/-- Moves the cursor one record back and reads the record there. The cursor moves first, and
stays where it is if the record cannot be read. -/
def readBack : TapeM τ τ := do
  let t ← get
  if t.offset = 0 then throw .beforeStart
  set { t with offset := t.offset - 1 }
  recordAt (t.offset - 1)

def next? : TapeM τ (Option τ) := do
  if (← get).canRead then some <$> read else return none

def readEach : Nat → TapeM τ (List τ)
  | 0 => return []
  | count + 1 => do
    let x ← read
    return x :: (← readEach count)

/-- The next `count` records. If fewer are left none is read. -/
def readArray (count : Nat) : TapeM τ (List τ) := do
  let t ← get
  if t.size - t.offset < count then throw .endOfTape
  readEach count

def readRest : TapeM τ (List τ) := do
  let t ← get
  readEach (t.size - t.offset)

/-- Writes a record at the cursor, over the one there or at the end, and moves past it. -/
def write (x : τ) : TapeM τ Unit := do
  let t ← get
  load (t.offset / t.blockItems)
  withBlock fun b => ((), b.set (t.offset % t.blockItems) x)
  modify fun t => { t with offset := t.offset + 1, size := max t.size (t.offset + 1) }

def writeArray : List τ → TapeM τ Unit
  | [] => return
  | x :: records => do
    write x
    writeArray records

/-- Moves the cursor, at most to the end. -/
def seek (index : Nat) : TapeM τ Unit := do
  let t ← get
  if t.size < index then throw (.seekOutOfRange index t.size)
  set { t with offset := index }

def flush : TapeM τ Unit := do
  match (← get).block with
  | none => return
  | some b =>
    writeBack b
    modify fun t => { t with block := some { b with dirty := false } }

def releaseBlock : TapeM τ Unit := do
  flush
  let block := (← get).block
  modify fun t => { t with block := none }
  match block with
  | none => return
  | some b => b.lease.release

/-- Sets the number of records. Records cut off are lost, records added have no defined content,
and the cursor moves to the end if it was past it. -/
def truncate (size : Nat) : TapeM τ Unit := do
  releaseBlock
  Site.count (size * FixedWidth.width τ)
  onDisk (Disk.resize (size * FixedWidth.width τ))
  modify fun t => { t with size, offset := min t.offset size }

/-- Flushes the tape for the last time. What cannot be saved is lost and reported. -/
def close (t : Tape τ) : SiteM Disk := do
  let (outcome, t) ← (flush : TapeM τ Unit) t
  match outcome with
  | .ok _ => pure ()
  | .error e => Site.report (.lostBlock e)
  match t.block with
  | none => pure ()
  | some b => b.lease.release
  return t.disk

end Tape

end BoundedMerge
