import BoundedMerge.Strategy.Basic

/-!
Strategies that look for the first input with a pending record. They hold no memory and cannot
arrange a run; they may be told to stop after a number of steps.
-/

namespace BoundedMerge

variable {τ : Type}

inductive FirstPending.Mode
  /-- One input after the other. -/
  | concat
  /-- All inputs advance together. -/
  | lockstep
  /-- One input after the other, records with an odd key left out. -/
  | skipOdd
deriving DecidableEq, Repr

structure FirstPending (τ : Type) where
  mode : FirstPending.Mode
  key : τ → Int
  /-- Steps after which the merge is called done. -/
  stop : Option Nat := none
  overhead : Nat := 0
  perInput : Nat := 0
  /-- Steps since the merge began. -/
  steps : Nat := 0

namespace FirstPending

/-- The first pending record and the number of its input, counted from `index`. -/
def find? (index : Nat) : List (Option τ) → Option (Nat × τ)
  | [] => none
  | none :: inputs => find? (index + 1) inputs
  | some x :: _ => some (index, x)

def operate (inputs : List (Option τ)) (taken : Taken) :
    StrategyM (FirstPending τ) (Step τ × Taken) := do
  let p ← get
  if p.stop = some p.steps then return (.done, taken)
  match find? 0 inputs with
  | none => return (.done, taken)
  | some (index, x) =>
    set { p with steps := p.steps + 1 }
    match p.mode with
    | .concat => return (.emit x, ← Strategy.take taken index)
    | .lockstep => return (.emit x, ← Strategy.takeAll taken inputs.length)
    | .skipOdd =>
      let taken ← Strategy.take taken index
      return (if p.key x % 2 = 1 then .skip else .emit x, taken)

instance : Strategy (FirstPending τ) τ where
  prepare _ := modify fun p => { p with steps := 0 }
  operate := operate
  overhead p := p.overhead
  perInput p := p.perInput
  close _ := return

end FirstPending

end BoundedMerge
