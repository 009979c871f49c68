import BoundedMerge.FixedWidth
import BoundedMerge.Random.Draw
import BoundedMerge.Selection
import BoundedMerge.Strategy.Basic

/-!
The strategy that interleaves its inputs at random. A selection holds each input that is not used
up under a random word. The input with the least word gives the next record and is entered again
under a new word, so all inputs that are left stay in contention. An input that turns out to have
no pending record drops out in a step of its own.
-/

namespace BoundedMerge

variable {γ τ : Type}

structure Interleave (γ : Type) where
  source : γ
  selection : Option (Selection UInt32) := none
  /-- The number of inputs of the merge. -/
  arity : Nat := 0
  lastTaken : Option Nat := none
  /-- Records seen pending at the inputs. -/
  seen : Nat := 0
  emitted : Nat := 0

namespace Interleave

def handleSize : Nat := 416

def nodeSize : Nat := (Footprint.pair ⟨4, 4⟩ .word).size

variable [WordSource γ]

def enter (s : Selection UInt32) (input : Nat) (source : γ) : SiteM (Selection UInt32 × γ) := do
  let (word, source) := WordSource.next source
  return (← s.insert compare word input, source)

/-- Enters the inputs that have a record, the last one first. The first of the list is number
`input`. -/
def enterAll (s : Selection UInt32) (source : γ) (input : Nat) :
    List (Option τ) → SiteM (Selection UInt32 × γ)
  | [] => return (s, source)
  | x :: inputs => do
    let (s, source) ← enterAll s source (input + 1) inputs
    if x.isSome then enter s input source else return (s, source)

def discard : StrategyM (Interleave γ) Unit := do
  let selection := (← get).selection
  modify fun p => { p with selection := none }
  match selection with
  | none => return
  | some s => s.close

def prepare (inputs : List (Option τ)) : StrategyM (Interleave γ) Unit := do
  if inputs.isEmpty then throw (.invalidArity 0)
  modify fun p => { p with arity := inputs.length }
  discard
  let s ← Selection.new inputs.length nodeSize
  let (s, source) ← enterAll s (← get).source 0 inputs
  modify fun p =>
    { p with source, selection := some s, lastTaken := none, seen := s.size, emitted := 0 }

/-- The number of records seen, counting the one that is now pending where the last was taken. -/
def recount (p : Interleave γ) (inputs : List (Option τ)) : SiteM Nat := do
  match p.lastTaken with
  | none => return p.seen
  | some input => return if (← Site.demand inputs[input]?).isSome then p.seen + 1 else p.seen

def operate (inputs : List (Option τ)) (taken : Taken) :
    StrategyM (Interleave γ) (Step τ × Taken) := do
  let p ← get
  Site.assert (inputs.length = p.arity) .inputCountChanged
  match p.selection with
  | none => throw .uninitialized
  | some s =>
    let seen ← recount p inputs
    match s.extract compare with
    | (none, s) =>
      set { p with selection := some s, lastTaken := none, seen }
      Site.assert (inputs.all Option.isNone) .inputsLeftOver
      Site.assert (seen = p.emitted) .countsDiffer
      return (.done, taken)
    | (some node, s) =>
      match ← Site.demand inputs[node.source]? with
      | none =>
        set { p with selection := some s, lastTaken := none, seen }
        return (.skip, taken)
      | some x =>
        let (s, source) ← enter s node.source p.source
        let taken ← Strategy.take taken node.source
        set { p with source, selection := some s, lastTaken := some node.source, seen,
                     emitted := p.emitted + 1 }
        return (.emit x, taken)

def arrange (run : Array τ) : StrategyM (Interleave γ) (Array τ) := do
  let p ← get
  match Draw.shuffle run p.source with
  | none => Site.halt .stalled
  | some (run, source) =>
    set { p with source }
    return run

instance : Strategy (Interleave γ) τ where
  prepare := prepare
  operate := operate
  arrange := arrange
  overhead _ := handleSize
  perInput _ := nodeSize
  close p := do
    match p.selection with
    | none => return
    | some s => s.close

end Interleave

end BoundedMerge
