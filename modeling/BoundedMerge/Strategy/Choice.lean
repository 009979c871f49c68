import BoundedMerge.Strategy.FirstPending
import BoundedMerge.Strategy.Interleave
import BoundedMerge.Strategy.Ordered

/-! A strategy that is chosen while the program runs. -/

namespace BoundedMerge

variable {τ : Type}

inductive Choice (τ : Type)
  | ordered (p : Ordered τ)
  | interleave (p : Interleave KeyStream)
  | firstPending (p : FirstPending τ)

namespace Choice

instance [FixedWidth τ] : Strategy (Choice τ) τ where
  prepare inputs := do
    match ← get with
    | ordered p => Strategy.within p ordered (Strategy.prepare inputs)
    | interleave p => Strategy.within p interleave (Strategy.prepare inputs)
    | firstPending p => Strategy.within p firstPending (Strategy.prepare inputs)
  operate inputs taken := do
    match ← get with
    | ordered p => Strategy.within p ordered (Strategy.operate inputs taken)
    | interleave p => Strategy.within p interleave (Strategy.operate inputs taken)
    | firstPending p => Strategy.within p firstPending (Strategy.operate inputs taken)
  arrange run := do
    match ← get with
    | ordered p => Strategy.within p ordered (Strategy.arrange run)
    | interleave p => Strategy.within p interleave (Strategy.arrange run)
    | firstPending p => Strategy.within p firstPending (Strategy.arrange run)
  overhead
    | ordered p => Strategy.overhead τ p
    | interleave p => Strategy.overhead τ p
    | firstPending p => Strategy.overhead τ p
  perInput
    | ordered p => Strategy.perInput τ p
    | interleave p => Strategy.perInput τ p
    | firstPending p => Strategy.perInput τ p
  close
    | ordered p => Strategy.close τ p
    | interleave p => Strategy.close τ p
    | firstPending p => Strategy.close τ p
  stepLimit
    | ordered p => Strategy.stepLimit τ p
    | interleave p => Strategy.stepLimit τ p
    | firstPending p => Strategy.stepLimit τ p

end Choice

end BoundedMerge
