import BoundedMerge.Merge.Pass

/-!
A merge of more runs than can be merged at once. Each pass merges groups of as many runs as can be
afforded into new runs on temporary tapes, until the runs that are left can be merged onto the
output. Runs that are not being merged hold no block, so all memory is there for the group at
work. The tapes of all runs are closed when the merge ends, also when it fails.
-/

namespace BoundedMerge

variable {α π τ : Type}

/-- The list cut into pieces of `size`, the last of which may be shorter; a piece has one element
at least. -/
def groupsOf (size : Nat) : List α → List (List α)
  | [] => []
  | x :: xs => (x :: xs.take (size - 1)) :: groupsOf size (xs.drop (size - 1))
termination_by xs => xs.length
decreasing_by simp only [List.length_drop, List.length_cons]; omega

theorem flatten_groupsOf (size : Nat) (xs : List α) : (groupsOf size xs).flatten = xs := by
  induction xs using groupsOf.induct size with
  | case1 => simp [groupsOf]
  | case2 x xs ih => simp [groupsOf, ih]

namespace Stats

def add (a b : Stats) : Stats :=
  { a with
    passes := a.passes + b.passes
    consumed := a.consumed + b.consumed
    produced := a.produced + b.produced }

end Stats

namespace Merger

variable [FixedWidth τ]

def closeAll : List (Tape τ) → SiteM Unit
  | [] => return
  | tape :: tapes => do
    let _ ← tape.close
    closeAll tapes

/-- Gives the blocks of all tapes back, up to the first that cannot be flushed. -/
def releaseAll : List (Tape τ) → SiteM (Except TapeError Unit × List (Tape τ))
  | [] => return (.ok (), [])
  | tape :: tapes => do
    let (outcome, tape) ← (Tape.releaseBlock : TapeM τ Unit) tape
    match outcome with
    | .error e => return (.error e, tape :: tapes)
    | .ok _ =>
      let (outcome, tapes) ← releaseAll tapes
      return (outcome, tape :: tapes)

variable [Strategy π τ]

def mergeGroup (m : Merger) (group : List (Tape τ)) : StrategyM π (Stats × Tape τ) := do
  match ← m.newTape τ with
  | .error e =>
    closeAll group
    throw e
  | .ok output =>
    let (outcome, b) ← (pass { output, strategy := ← get, inputs := group.toArray } : SiteM _)
    set b.strategy
    match outcome with
    | .ok stats =>
      closeAll b.inputs.toList
      return (stats, b.output)
    | .error e =>
      let _ ← b.output.close
      closeAll b.inputs.toList
      throw e
where
  /-- A pass whose output is ready to be read and holds no block. -/
  pass : BenchM π τ Stats := do
    let stats ← Bench.mergePass
    Bench.onTarget (Target.onOutput do Tape.seek 0; Tape.releaseBlock)
    return stats

/-- Merges each group into one run; a group of one run is that run. The runs `merged` so far come
before them in the result. -/
def mergeGroups (m : Merger) (merged : List (Tape τ)) :
    List (List (Tape τ)) → StrategyM π (Stats × List (Tape τ))
  | [] => return ({}, merged)
  | [run] :: groups => mergeGroups m (merged ++ [run]) groups
  | group :: groups => do
    let (stats, run) ← tryCatch (m.mergeGroup group) fun e => do
      closeAll groups.flatten
      closeAll merged
      throw e
    let (rest, runs) ← mergeGroups m (merged ++ [run]) groups
    return (stats.add rest, runs)

def mergeLast (runs : List (Tape τ)) : MergeM π τ Stats := do
  let (outcome, b) ← ((Bench.mergePass : BenchM π τ Stats)
    { (← get) with inputs := runs.toArray } : SiteM _)
  set b.toTarget
  closeAll b.inputs.toList
  match outcome with
  | .ok stats => return stats
  | .error e => throw e

def mergeWithin (m : Merger) (stats : Stats) (runs : List (Tape τ)) : Nat → MergeM π τ Stats
  | 0 => Site.halt .stalled
  | passes + 1 => do
    match ← m.arity τ (← get).strategy runs.length with
    | .error e =>
      closeAll runs
      throw e
    | .ok arity =>
      if runs.length ≤ arity then
        Site.report (.finalPass runs.length)
        return stats.add (← mergeLast runs)
      else
        Site.report (.pass (stats.passes + 1) runs.length arity)
        let (pass, runs) ← Target.onStrategy (m.mergeGroups [] (groupsOf arity runs))
        mergeWithin m (stats.add { pass with passes := 1 }) runs passes

/-- Merges the runs, from their cursors on, and writes at the cursor of the output. Every pass
but the last leaves fewer runs, so there are no more passes than runs. -/
def merge (m : Merger) (runs : List (Tape τ)) : MergeM π τ Stats := do
  if runs.isEmpty then return {}
  let (outcome, runs) ← releaseAll runs
  match outcome with
  | .error e =>
    closeAll runs
    throw (.tape e)
  | .ok _ => m.mergeWithin { runs := runs.length } runs runs.length

end Merger

end BoundedMerge
