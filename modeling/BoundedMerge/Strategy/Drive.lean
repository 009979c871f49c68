import BoundedMerge.Strategy.Basic

/-!
Driving a strategy over runs that are held in main memory. The pending record of an input is the
first that is left of its run; a run that is used up stays so. Every merge makes a strategy take
the very steps that it takes here.
-/

namespace BoundedMerge.Strategy

variable {π τ : Type} [Strategy π τ]

def advance (taken : Taken) (runs : List (List τ)) : List (List τ) :=
  runs.mapIdx fun i run => if taken.indices.contains i then run.tail else run

/-- Operates the strategy until it is done, in at most the given number of steps. The result has
the emitted records in order, and nothing for each step without one. -/
def driveWithin (steps : Nat) (runs : List (List τ)) : StrategyM π (List (Option τ)) := do
  match steps with
  | 0 => Site.halt .stalled
  | steps + 1 =>
    let (step, taken) ← operate (runs.map List.head?) (Taken.none runs.length)
    match step with
    | .done => return []
    | .skip => return none :: (← driveWithin steps (advance taken runs))
    | .emit x => return some x :: (← driveWithin steps (advance taken runs))

def drive (runs : List (List τ)) : StrategyM π (List (Option τ)) := do
  let limit := stepLimit τ (← get) (runs.map List.length)
  prepare (runs.map List.head?)
  driveWithin limit runs

end BoundedMerge.Strategy
