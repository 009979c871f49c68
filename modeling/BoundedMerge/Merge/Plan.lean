import BoundedMerge.Strategy.Basic
import BoundedMerge.Tape.Basic

/-!
The plan of a merge: how many tapes can be merged at once, and how many records can be arranged in
main memory at once, with the memory that is available now. Every tape that takes part costs its
block and a place for its pending record, and the strategy says what it needs itself.
-/

namespace BoundedMerge

/-- How many inputs can be merged at once, of `runs` that are to be merged, when `fixed` bytes are
needed in any case and `perInput` for each input. With less than two inputs at once a merge would
not come to an end, so memory for two is required. -/
def Plan.arity (available fixed perInput runs : Nat) : Except MergeError Nat :=
  let affordable := (available - fixed) / perInput
  if 1 < runs ∧ affordable < 2 then
    .error (.insufficientMemory available (fixed + 2 * perInput))
  else .ok (min (max affordable 2) runs)

/-- How many records of `recordSize` bytes fit in main memory beside `fixed` bytes, at least one. -/
def Plan.capacity (available fixed recordSize : Nat) : Except MergeError Nat :=
  let capacity := (available - fixed) / recordSize
  if capacity = 0 then .error (.insufficientMemory available (fixed + recordSize))
  else .ok capacity

/-- A merger makes all its tapes with one block size. -/
structure Merger where
  blockSize : Nat := Tape.defaultBlockSize

namespace Merger

variable {π τ : Type}

section

variable (τ) [FixedWidth τ]

/-- Bytes of an open tape together with its pending record. -/
def tapeSpace (m : Merger) : Nat :=
  Tape.memoryUsage τ m.blockSize + (FixedWidth.footprint τ).option.size

def newTape (m : Merger) : SiteM (Except MergeError (Tape τ)) := do
  match ← Tape.temporary m.blockSize with
  | .ok tape => return .ok tape
  | .error (.disk e) => return .error (.scratch e)
  | .error e => return .error (.tape e)

/-- A new tape that holds the given records, with the cursor behind the first `offset` of them. -/
def newTapeOf (m : Merger) (records : List τ) (offset : Nat) :
    SiteM (Except MergeError (Tape τ)) := do
  match ← m.newTape τ with
  | .error e => return .error e
  | .ok tape =>
    let (outcome, tape) ← (do Tape.writeArray records; Tape.seek offset : TapeM τ Unit) tape
    match outcome with
    | .ok _ => return .ok tape
    | .error e =>
      let _ ← tape.close
      return .error (.tape e)

variable [Strategy π τ]

/-- Bytes of a merge whatever the number of inputs: the strategy's own and the output tape. -/
def fixedSpace (m : Merger) (p : π) : Nat := Strategy.overhead τ p + m.tapeSpace τ

/-- Bytes of a merge for each input: its tape, what the strategy needs for it, and the mark that
it is taken. -/
def inputSpace (m : Merger) (p : π) : Nat := m.tapeSpace τ + Strategy.perInput τ p + 1

/-- Bytes of a run formation, its batch apart: the strategy's own, the input and the output tape. -/
def formationSpace (m : Merger) (p : π) : Nat := Strategy.overhead τ p + 2 * m.tapeSpace τ

/-- A plan, for which the machine must count what is required if it is too little. -/
def orCount (plan : Except MergeError Nat) : SiteM (Except MergeError Nat) := do
  if let .error (.insufficientMemory _ required) := plan then Site.count required
  return plan

def arity (m : Merger) (p : π) (runs : Nat) : SiteM (Except MergeError Nat) := do
  let _ ← Tape.measure τ m.blockSize
  Site.count (max (m.fixedSpace τ p) (m.inputSpace τ p))
  orCount (Plan.arity (← get).ledger.available (m.fixedSpace τ p) (m.inputSpace τ p) runs)

def capacity (m : Merger) (p : π) : SiteM (Except MergeError Nat) := do
  let _ ← Tape.measure τ m.blockSize
  Site.count (m.formationSpace τ p)
  orCount (Plan.capacity (← get).ledger.available (m.formationSpace τ p)
    (max 1 (FixedWidth.footprint τ).size))

end

end Merger

end BoundedMerge
