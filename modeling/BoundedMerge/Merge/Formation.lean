import BoundedMerge.Batch
import BoundedMerge.Merge.Passes
import BoundedMerge.Strategy.Interleave
import BoundedMerge.Strategy.Ordered

/-!
Run formation. An input that fits in main memory is arranged there and written to the output. Any
other is cut into batches as large as memory allows; each is arranged and parked on a tape of its
own, and these runs are merged.
-/

namespace BoundedMerge

variable {π τ : Type}

structure Source (π τ : Type) extends Target π τ where
  input : Tape τ

abbrev SourceM (π τ : Type) := ExceptT MergeError (StateT (Source π τ) SiteM)

namespace Source

def onTarget {α : Type} (work : MergeM π τ α) : SourceM π τ α := do
  let (outcome, target) ← (work (← get).toTarget : SiteM _)
  modify fun s => { s with toTarget := target }
  match outcome with
  | .ok a => return a
  | .error e => throw e

def onInput {α : Type} (work : TapeM τ α) : SourceM π τ α := do
  let (outcome, input) ← (work (← get).input : SiteM _)
  modify fun s => { s with input }
  match outcome with
  | .ok a => return a
  | .error e => throw (.tape e)

variable [FixedWidth τ]

def fill (batch : Batch τ) : SourceM π τ (Batch τ) := do
  let (outcome, batch) ← onInput batch.fill
  match outcome with
  | .ok _ => return batch
  | .error e => throw (.tape e)

variable [Strategy π τ]

/-- The next records of the input, as many as the batch has room for, arranged. -/
def arrange (batch : Batch τ) : SourceM π τ (Batch τ) := do
  let batch ← fill batch.clear
  let items ← onTarget (Target.onStrategy (Strategy.arrange batch.items))
  return { batch with items }

end Source

namespace Merger

variable [FixedWidth τ] [Strategy π τ]

/-- Works with a batch and gives its memory back, whether the work fails or not. -/
def withBatch {α : Type} (capacity : Nat) (work : Batch τ → SourceM π τ α) : SourceM π τ α := do
  let batch ← Batch.new capacity
  let a ← tryCatch (work batch) fun e => do
    batch.close
    throw e
  batch.close
  return a

def arrangeAll (records : Nat) : SourceM π τ Stats := do
  withBatch records fun batch => do
    let batch ← Source.arrange batch
    Source.onTarget (Target.onOutput do batch.store; Tape.flush)
  return { runs := 1, consumed := records, produced := records }

/-- Parks the batch on a new tape, which can be read from its first record and holds no block. -/
def park (m : Merger) (batch : Batch τ) : SiteM (Except MergeError (Tape τ)) := do
  match ← m.newTape τ with
  | .error e => return .error e
  | .ok tape =>
    let (outcome, tape) ← (do batch.store; Tape.seek 0; Tape.releaseBlock : TapeM τ Unit) tape
    match outcome with
    | .ok _ => return .ok tape
    | .error e =>
      let _ ← tape.close
      return .error (.tape e)

/-- Forms runs of the rest of the input, at most the given number. They come after those formed
before. -/
def formWithin (m : Merger) (batch : Batch τ) (runs : List (Tape τ)) :
    Nat → SourceM π τ (Except MergeError Unit × List (Tape τ))
  | 0 => return (.ok (), runs)
  | count + 1 => do
    if !(← get).input.canRead then return (.ok (), runs)
    match ← formed with
    | .error e => return (.error e, runs)
    | .ok run => formWithin m batch (runs ++ [run]) count
where
  /-- The next run. -/
  formed : SourceM π τ (Except MergeError (Tape τ)) :=
    tryCatch (do m.park (← Source.arrange batch)) fun e => return .error e

def distribute (m : Merger) (capacity : Nat) : SourceM π τ (List (Tape τ)) := do
  let batch ← Batch.new capacity
  let (outcome, runs) ← m.formWithin batch [] (← get).input.size
  batch.close
  match outcome with
  | .ok _ =>
    tryCatch (Source.onInput Tape.releaseBlock) fun e => do
      closeAll runs
      throw e
    return runs
  | .error e =>
    closeAll runs
    throw e

/-- Processes the whole input, wherever its cursor is, and writes at the cursor of the output. -/
def process (m : Merger) : SourceM π τ Stats := do
  Source.onInput (Tape.seek 0)
  let s ← get
  let records := s.input.size
  match ← m.capacity τ s.strategy with
  | .error e => throw e
  | .ok capacity =>
    if records ≤ capacity then
      Site.report (.inMemory records)
      arrangeAll records
    else
      Site.report (.distributing records capacity)
      let runs ← m.distribute capacity
      Site.report (.runsFormed runs.length)
      Source.onTarget (m.merge runs)

end Merger

structure Transfer (τ : Type) where
  input : Tape τ
  output : Tape τ

namespace Merger

variable [FixedWidth τ]

def processWith [Strategy π τ] (m : Merger) (strategy : π) :
    ExceptT MergeError (StateT (Transfer τ) SiteM) Stats := do
  let t ← get
  let (outcome, s) ← ((m.process : SourceM π τ Stats)
    { input := t.input, output := t.output, strategy } : SiteM _)
  set { input := s.input, output := s.output : Transfer τ }
  Strategy.close τ s.strategy
  match outcome with
  | .ok stats => return stats
  | .error e => throw e

/-- Sorts the input by `cmp`, with a strategy that takes `handleSize` bytes itself. -/
def sortBy (m : Merger) (cmp : τ → τ → Ordering) (handleSize : Nat)
    (pivots : Nat → Sorting.PivotChoice := fun _ => Sorting.middlePivot) :
    ExceptT MergeError (StateT (Transfer τ) SiteM) Stats :=
  m.processWith { cmp, handleSize, pivots : Ordered τ }

def shuffle {γ : Type} [WordSource γ] (m : Merger) (source : γ) :
    ExceptT MergeError (StateT (Transfer τ) SiteM) Stats :=
  m.processWith { source : Interleave γ }

end Merger

end BoundedMerge
