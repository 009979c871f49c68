import BoundedMerge.Merge.Error
import BoundedMerge.Site
import BoundedMerge.Strategy.Taken

/-!
A merge strategy decides, step by step, which record goes to the output next. It is shown the
pending record of every input, the next one that is not used up, and marks the inputs whose
pending record it uses up. It also says how a run that fits in main memory is put in order, and
how much memory it needs, so that a merge can be planned.
-/

namespace BoundedMerge

inductive Step (τ : Type)
  /-- The record goes to the output. -/
  | emit (x : τ)
  /-- No record goes to the output. -/
  | skip
  /-- The merge is complete. -/
  | done
deriving DecidableEq, Repr

abbrev StrategyM (π : Type) := ExceptT MergeError (StateT π SiteM)

class Strategy (π τ : Type) where
  /-- Prepares for a merge, given the first record of each input. -/
  prepare : List (Option τ) → StrategyM π Unit
  /-- Performs one step, given the pending record of each input. -/
  operate : List (Option τ) → Taken → StrategyM π (Step τ × Taken)
  /-- Puts a run that is held in main memory in order. -/
  arrange : Array τ → StrategyM π (Array τ) := fun _ => throw .noMainMemoryOperation
  /-- Bytes needed whatever the number of inputs. -/
  overhead : π → Nat
  /-- Bytes needed for each input. -/
  perInput : π → Nat
  /-- Gives the memory the strategy holds back. -/
  close : π → SiteM Unit
  /-- How many steps a merge may take, given the number of records of each input: by default one
  for each record, one for each input and one to end it. -/
  stepLimit : π → List Nat → Nat := fun _ records =>
    records.foldr (· + ·) 0 + records.length + 1

namespace Strategy

def within {π ρ α : Type} (part : π) (whole : π → ρ) (work : StrategyM π α) : StrategyM ρ α := do
  let (outcome, part) ← (work part : SiteM _)
  set (whole part)
  match outcome with
  | .ok a => return a
  | .error e => throw e

/-- Marks an input, which must be one of those there are. -/
def take (taken : Taken) (index : Nat) : SiteM Taken := Site.demand (taken.take? index)

theorem take_none {arity index : Nat} (h : index < arity) :
    take (Taken.none arity) index = pure { arity, indices := [index] } := by
  rw [take, Taken.take?, if_pos (show index < (Taken.none arity).arity from h)]
  rfl

def takeAll (taken : Taken) (count : Nat) : SiteM Taken := (List.range count).foldlM take taken

end Strategy

end BoundedMerge
