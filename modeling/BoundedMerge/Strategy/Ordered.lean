import BoundedMerge.FixedWidth
import BoundedMerge.Selection
import BoundedMerge.Sorting.Basic
import BoundedMerge.Strategy.Basic

/-!
The strategy that merges ordered inputs into an ordered output. A selection holds the pending
record of each input that is not used up, and the least one is emitted, of equal ones that of the
first input. The input it came from is looked at again in the next step, when its next record is
pending.
-/

namespace BoundedMerge

variable {τ : Type}

structure Ordered (τ : Type) where
  cmp : τ → τ → Ordering
  /-- Bytes of the strategy itself. -/
  handleSize : Nat := 80
  /-- Pivots for each sort in main memory. -/
  pivots : Nat → Sorting.PivotChoice := fun _ => Sorting.middlePivot
  /-- Sorts done so far. -/
  sorts : Nat := 0
  selection : Option (Selection τ) := none
  /-- The input whose record was emitted last. -/
  lastTaken : Option Nat := none

namespace Ordered

def enter (cmp : τ → τ → Ordering) (s : Selection τ) (source : Nat) :
    List (Option τ) → SiteM (Selection τ)
  | [] => return s
  | none :: inputs => enter cmp s (source + 1) inputs
  | some x :: inputs => do
    let s ← s.insert cmp x source
    enter cmp s (source + 1) inputs

def discard : StrategyM (Ordered τ) Unit := do
  let selection := (← get).selection
  modify fun p => { p with selection := none }
  match selection with
  | none => return
  | some s => s.close

/-- Enters the record that is now pending where the last one was taken. -/
def refill (cmp : τ → τ → Ordering) (lastTaken : Option Nat) (inputs : List (Option τ))
    (s : Selection τ) : SiteM (Selection τ) := do
  match lastTaken with
  | none => return s
  | some source =>
    match ← Site.demand inputs[source]? with
    | none => return s
    | some x => s.insert cmp x source

def operate (inputs : List (Option τ)) (taken : Taken) :
    StrategyM (Ordered τ) (Step τ × Taken) := do
  let p ← get
  match p.selection with
  | none => throw .uninitialized
  | some s =>
    let s ← refill p.cmp p.lastTaken inputs s
    match s.extract p.cmp with
    | (some node, s) =>
      let taken ← Strategy.take taken node.source
      set { p with selection := some s, lastTaken := some node.source }
      return (.emit node.key, taken)
    | (none, s) =>
      set { p with selection := some s, lastTaken := none }
      Site.assert (inputs.all Option.isNone) .inputsLeftOver
      return (.done, taken)

def arrange (run : Array τ) : StrategyM (Ordered τ) (Array τ) := do
  let p ← get
  set { p with sorts := p.sorts + 1 }
  Site.demand
    (Sorting.sortBy (Sorting.lessBy p.cmp) Sorting.defaultThreshold (p.pivots p.sorts) run)

variable [FixedWidth τ]

def nodeSize (τ : Type) [FixedWidth τ] : Nat :=
  ((FixedWidth.footprint τ).pair .word).size

def prepare (inputs : List (Option τ)) : StrategyM (Ordered τ) Unit := do
  if inputs.isEmpty then throw (.invalidArity 0)
  discard
  let s ← Selection.new inputs.length (nodeSize τ)
  let s ← enter (← get).cmp s 0 inputs
  modify fun p => { p with selection := some s, lastTaken := none }

instance : Strategy (Ordered τ) τ where
  prepare := prepare
  operate := operate
  arrange := arrange
  overhead p := p.handleSize
  perInput _ := nodeSize τ
  close p := do
    match p.selection with
    | none => return
    | some s => s.close

end Ordered

end BoundedMerge
