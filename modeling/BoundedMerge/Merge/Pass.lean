import BoundedMerge.Merge.Plan

/-!
One pass merges a bench of input tapes onto the output tape. The strategy sees the pending record
of every input, and an input whose record it takes moves on to its next one. The pass is complete
when the strategy says so and no record is pending any more.
-/

namespace BoundedMerge

variable {π τ : Type}

structure Stats where
  passes : Nat := 0
  /-- Runs the merge started with. -/
  runs : Nat := 0
  /-- Records read from inputs. -/
  consumed : Nat := 0
  /-- Records written to outputs. -/
  produced : Nat := 0
deriving DecidableEq, Repr

structure Target (π τ : Type) where
  output : Tape τ
  strategy : π

abbrev MergeM (π τ : Type) := ExceptT MergeError (StateT (Target π τ) SiteM)

namespace Target

def onOutput {α : Type} (work : TapeM τ α) : MergeM π τ α := do
  let (outcome, output) ← (work (← get).output : SiteM _)
  modify fun t => { t with output }
  match outcome with
  | .ok a => return a
  | .error e => throw (.tape e)

def onStrategy {α : Type} (work : StrategyM π α) : MergeM π τ α := do
  let (outcome, strategy) ← (work (← get).strategy : SiteM _)
  modify fun t => { t with strategy }
  match outcome with
  | .ok a => return a
  | .error e => throw e

end Target

structure Bench (π τ : Type) extends Target π τ where
  inputs : Array (Tape τ)

abbrev BenchM (π τ : Type) := ExceptT MergeError (StateT (Bench π τ) SiteM)

namespace Bench

def onTarget {α : Type} (work : MergeM π τ α) : BenchM π τ α := do
  let (outcome, target) ← (work (← get).toTarget : SiteM _)
  modify fun b => { b with toTarget := target }
  match outcome with
  | .ok a => return a
  | .error e => throw e

def onInput {α : Type} (index : Nat) (work : TapeM τ α) : BenchM π τ α := do
  let tape ← Site.demand (← get).inputs[index]?
  let (outcome, tape) ← (work tape : SiteM _)
  modify fun b => { b with inputs := b.inputs.setIfInBounds index tape }
  match outcome with
  | .ok a => return a
  | .error e => throw (.tape e)

def stepLimit [Strategy π τ] (b : Bench π τ) : Nat :=
  Strategy.stepLimit τ b.strategy (b.inputs.toList.map fun t => t.size - t.offset)

variable [FixedWidth τ]

def readFirsts (index : Nat) : Nat → BenchM π τ (List (Option τ))
  | 0 => return []
  | count + 1 => do
    let x ← onInput index Tape.next?
    return x :: (← readFirsts (index + 1) count)

/-- Moves each of the given inputs on to its next record. Also gives the number of records that
were pending there. -/
def advance (pending : List (Option τ)) : List Nat → BenchM π τ (List (Option τ) × Nat)
  | [] => return (pending, 0)
  | index :: indices => do
    let used := if (pending[index]?.join).isSome then 1 else 0
    let x ← onInput index Tape.next?
    let (pending, count) ← advance (pending.set index x) indices
    return (pending, used + count)

def releaseInputs : List Nat → BenchM π τ Unit
  | [] => return
  | index :: indices => do
    onInput index Tape.releaseBlock
    releaseInputs indices

variable [Strategy π τ]

def follow (stats : Stats) (pending : List (Option τ)) : Nat → BenchM π τ Stats
  | 0 => Site.halt .stalled
  | steps + 1 => do
    let (step, taken) ← onTarget
      (Target.onStrategy (Strategy.operate pending (Taken.none pending.length)))
    match step with
    | .done =>
      if pending.any Option.isSome then throw .inputsRemaining
      return stats
    | .skip =>
      let (pending, used) ← advance pending taken.indices
      follow { stats with consumed := stats.consumed + used } pending steps
    | .emit x =>
      onTarget (Target.onOutput (Tape.write x))
      let (pending, used) ← advance pending taken.indices
      follow { stats with consumed := stats.consumed + used, produced := stats.produced + 1 }
        pending steps

/-- Merges the inputs, from their cursors on, and writes at the cursor of the output. Afterwards
no input holds a block, and the output is flushed. -/
def mergePass : BenchM π τ Stats := do
  let b ← get
  let arity := b.inputs.size
  if arity = 0 then throw (.invalidArity 0)
  let pending ← readFirsts 0 arity
  onTarget (Target.onStrategy (Strategy.prepare pending))
  let stats ← follow { passes := 1, runs := arity } pending b.stepLimit
  releaseInputs (List.range arity)
  onTarget (Target.onOutput Tape.flush)
  return stats

end Bench

end BoundedMerge
