import BoundedMerge.Tape.Basic

/-!
A batch is a bounded run of records in main memory. Its whole capacity is charged to the ledger
when it is made, whether it is used or not.
-/

namespace BoundedMerge

variable {τ : Type}

structure Batch (τ : Type) where
  capacity : Nat
  items : Array τ := #[]
  lease : Lease

namespace Batch

def isFull (b : Batch τ) : Bool := b.capacity ≤ b.items.size

def isEmpty (b : Batch τ) : Bool := b.items.isEmpty

def clear (b : Batch τ) : Batch τ := { b with items := #[] }

def push (b : Batch τ) (x : τ) : SiteM (Batch τ) := do
  Site.assert (!b.isFull) .batchFull
  return { b with items := b.items.push x }

def close (b : Batch τ) : SiteM Unit := b.lease.release

variable [FixedWidth τ]

def new (capacity : Nat) : SiteM (Batch τ) := do
  let bytes := capacity * (FixedWidth.footprint τ).size
  Site.count bytes
  let lease ← Lease.take bytes
  Site.provide bytes
  return { capacity, lease }

/-- Moves `count` records from the tape to the batch. The batch keeps the records read before a
failure. -/
def pull (b : Batch τ) : Nat → TapeM τ (Except TapeError Unit × Batch τ)
  | 0 => return (.ok (), b)
  | count + 1 => do
    match ← (observing Tape.read) with
    | .error e => return (.error e, b)
    | .ok x => pull (← b.push x) count
where
  /-- Turns a failure into a result. -/
  observing (work : TapeM τ τ) : TapeM τ (Except TapeError τ) :=
    tryCatch (Except.ok <$> work) fun e => pure (.error e)

def fill (b : Batch τ) : TapeM τ (Except TapeError Nat × Batch τ) := do
  let t ← get
  let count := min (b.capacity - b.items.size) (t.size - t.offset)
  let (outcome, b) ← b.pull count
  return (outcome.map fun _ => count, b)

def store (b : Batch τ) : TapeM τ Unit := Tape.writeArray b.items.toList

end Batch

end BoundedMerge
