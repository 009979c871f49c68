import BoundedMerge.Proofs.Strategy.Plain

/-!
Strategies that know of no disk. What such a strategy decides depends on the pending records and
on its own state alone, so it decides the same at a site where the storage fails and at a twin
where it does not.
-/

namespace BoundedMerge

variable {γ τ : Type}

structure Strategy.Blind (π τ : Type) [Strategy π τ] : Prop where
  prepare (inputs : List (Option τ)) : Work.Blind (Strategy.prepare inputs : StrategyM π Unit)
  operate (inputs : List (Option τ)) (taken : Taken) :
    Work.Blind (Strategy.operate inputs taken : StrategyM π (Step τ × Taken))
  arrange (run : Array τ) : Work.Blind (Strategy.arrange run : StrategyM π (Array τ))
  close (p : π) : SiteM.Blind (Strategy.close τ p)

theorem Strategy.Plain.blind {π : Type} [Strategy π τ] (h : Strategy.Plain π τ) :
    Strategy.Blind π τ where
  prepare inputs := (h.prepare inputs).blind
  operate inputs taken := (h.operate inputs taken).blind
  arrange run := (h.arrange run).blind
  close p := (h.close p).blind

theorem Ordered.blind [FixedWidth τ] : Strategy.Blind (Ordered τ) τ := Ordered.plain.blind

theorem Interleave.blind [WordSource γ] : Strategy.Blind (Interleave γ) τ := Interleave.plain.blind

end BoundedMerge
