import BoundedMerge.Proofs.Site.Plain
import BoundedMerge.Strategy.Interleave
import BoundedMerge.Strategy.Ordered

/-!
Strategies whose work is plain. All that such a strategy does at the site is to lease its selection
and to give it back; what it decides depends on the pending records and on its own state alone.
-/

namespace BoundedMerge

open SiteM

variable {γ τ : Type}

structure Strategy.Plain (π τ : Type) [Strategy π τ] : Prop where
  prepare (inputs : List (Option τ)) : Work.Plain (Strategy.prepare inputs : StrategyM π Unit)
  operate (inputs : List (Option τ)) (taken : Taken) :
    Work.Plain (Strategy.operate inputs taken : StrategyM π (Step τ × Taken))
  arrange (run : Array τ) : Work.Plain (Strategy.arrange run : StrategyM π (Array τ))
  close (p : π) : SiteM.Plain (Strategy.close τ p)

namespace Selection

variable {κ : Type}

theorem plain_new (capacity nodeSize : Nat) :
    SiteM.Plain (new capacity nodeSize : SiteM (Selection κ)) :=
  Plain.bind (Plain.provide _) fun _ => Plain.bind (Plain.take _) fun _ => Plain.pure _

theorem plain_insert (s : Selection κ) (cmp : κ → κ → Ordering) (key : κ) (source : Nat) :
    SiteM.Plain (s.insert cmp key source) :=
  Plain.bind (Plain.assert _ _) fun _ => Plain.pure _

end Selection

namespace Ordered

theorem plain_enter (cmp : τ → τ → Ordering) (s : Selection τ) (source : Nat)
    (inputs : List (Option τ)) : SiteM.Plain (enter cmp s source inputs) := by
  induction inputs generalizing s source with
  | nil => exact Plain.pure _
  | cons input inputs ih =>
    cases input with
    | none => exact ih s (source + 1)
    | some x => exact (s.plain_insert cmp x source).bind fun s' => ih s' (source + 1)

theorem plain_discard : Work.Plain (discard : StrategyM (Ordered τ) Unit) := by
  apply Work.Plain.get
  intro p
  apply (Work.Plain.modify _).bind
  intro _
  cases p.selection with
  | none => exact Work.Plain.pure ()
  | some s => exact Work.Plain.lift (Plain.release s.lease)

theorem plain_refill (cmp : τ → τ → Ordering) (lastTaken : Option Nat)
    (inputs : List (Option τ)) (s : Selection τ) :
    SiteM.Plain (refill cmp lastTaken inputs s) := by
  cases lastTaken with
  | none => exact Plain.pure _
  | some source =>
    apply Plain.bind (Plain.demand _)
    intro input
    cases input with
    | none => exact Plain.pure _
    | some x => exact s.plain_insert cmp x source

variable [FixedWidth τ]

theorem plain_prepare (inputs : List (Option τ)) :
    Work.Plain (prepare inputs : StrategyM (Ordered τ) Unit) := by
  unfold prepare
  split
  · exact Work.Plain.throw _
  · apply plain_discard.bind
    intro _
    apply (Work.Plain.lift (Selection.plain_new _ _)).bind
    intro s
    apply Work.Plain.get
    intro p
    apply (Work.Plain.lift (plain_enter p.cmp s 0 inputs)).bind
    intro s'
    exact Work.Plain.modify _

omit [FixedWidth τ] in
theorem plain_operate (inputs : List (Option τ)) (taken : Taken) :
    Work.Plain (operate inputs taken : StrategyM (Ordered τ) (Step τ × Taken)) := by
  apply Work.Plain.get
  intro p
  cases p.selection with
  | none => exact Work.Plain.throw _
  | some s =>
    apply (Work.Plain.lift (plain_refill p.cmp p.lastTaken inputs s)).bind
    intro s'
    obtain ⟨node?, rest⟩ := s'.extract p.cmp
    cases node? with
    | none =>
      apply (Work.Plain.set _).bind
      intro _
      apply (Work.Plain.lift (Plain.assert _ _)).bind
      intro _
      exact Work.Plain.pure _
    | some node =>
      apply (Work.Plain.lift (Plain.demand (taken.take? node.source))).bind
      intro taken'
      apply (Work.Plain.set _).bind
      intro _
      exact Work.Plain.pure _

omit [FixedWidth τ] in
theorem plain_arrange (run : Array τ) :
    Work.Plain (arrange run : StrategyM (Ordered τ) (Array τ)) := by
  apply Work.Plain.get
  intro p
  apply (Work.Plain.set _).bind
  intro _
  exact Work.Plain.lift (Plain.demand _)

theorem plain : Strategy.Plain (Ordered τ) τ where
  prepare := plain_prepare
  operate := plain_operate
  arrange := plain_arrange
  close p := by
    obtain ⟨_, _, _, _, selection, _⟩ := p
    cases selection with
    | none => exact Plain.pure _
    | some s => exact Plain.release s.lease

end Ordered

namespace Interleave

variable [WordSource γ]

theorem plain_enter (s : Selection UInt32) (input : Nat) (source : γ) :
    SiteM.Plain (enter s input source) :=
  (s.plain_insert _ _ _).bind fun _ => Plain.pure _

theorem plain_enterAll (s : Selection UInt32) (source : γ) (input : Nat)
    (inputs : List (Option τ)) : SiteM.Plain (enterAll s source input inputs) := by
  induction inputs generalizing input with
  | nil => exact Plain.pure _
  | cons x inputs ih =>
    rw [enterAll]
    apply (ih (input + 1)).bind
    intro entered
    exact Plain.ite (plain_enter _ _ _) (Plain.pure _)

omit [WordSource γ] in
theorem plain_discard : Work.Plain (discard : StrategyM (Interleave γ) Unit) := by
  apply Work.Plain.get
  intro p
  apply (Work.Plain.modify _).bind
  intro _
  cases p.selection with
  | none => exact Work.Plain.pure ()
  | some s => exact Work.Plain.lift (Plain.release s.lease)

theorem plain_prepare (inputs : List (Option τ)) :
    Work.Plain (prepare inputs : StrategyM (Interleave γ) Unit) := by
  unfold prepare
  split
  · exact Work.Plain.throw _
  · apply (Work.Plain.modify _).bind
    intro _
    apply plain_discard.bind
    intro _
    apply (Work.Plain.lift (Selection.plain_new _ _)).bind
    intro s
    apply Work.Plain.get
    intro p
    apply (Work.Plain.lift (plain_enterAll s p.source 0 inputs)).bind
    intro entered
    exact Work.Plain.modify _

omit [WordSource γ] in
theorem plain_recount (p : Interleave γ) (inputs : List (Option τ)) :
    SiteM.Plain (recount p inputs) := by
  unfold recount
  split
  · exact Plain.pure _
  · exact (Plain.demand _).bind fun _ => Plain.pure _

theorem plain_operate (inputs : List (Option τ)) (taken : Taken) :
    Work.Plain (operate inputs taken : StrategyM (Interleave γ) (Step τ × Taken)) := by
  apply Work.Plain.get
  intro p
  apply (Work.Plain.lift (Plain.assert _ _)).bind
  intro _
  cases p.selection with
  | none => exact Work.Plain.throw _
  | some s =>
    apply (Work.Plain.lift (plain_recount p inputs)).bind
    intro seen
    obtain ⟨node?, rest⟩ := s.extract compare
    cases node? with
    | none =>
      apply (Work.Plain.set _).bind
      intro _
      apply (Work.Plain.lift (Plain.assert _ _)).bind
      intro _
      apply (Work.Plain.lift (Plain.assert _ _)).bind
      intro _
      exact Work.Plain.pure _
    | some node =>
      apply (Work.Plain.lift (Plain.demand inputs[node.source]?)).bind
      intro input
      cases input with
      | none =>
        apply (Work.Plain.set _).bind
        intro _
        exact Work.Plain.pure _
      | some x =>
        apply (Work.Plain.lift (plain_enter rest node.source p.source)).bind
        intro entered
        apply (Work.Plain.lift (Plain.demand (taken.take? node.source))).bind
        intro taken'
        apply (Work.Plain.set _).bind
        intro _
        exact Work.Plain.pure _

theorem plain_arrange (run : Array τ) :
    Work.Plain (arrange run : StrategyM (Interleave γ) (Array τ)) := by
  apply Work.Plain.get
  intro p
  cases Draw.shuffle run p.source with
  | none => exact Work.Plain.lift (Plain.halt _)
  | some shuffled =>
    apply (Work.Plain.set _).bind
    intro _
    exact Work.Plain.pure _

theorem plain : Strategy.Plain (Interleave γ) τ where
  prepare := plain_prepare
  operate := plain_operate
  arrange := plain_arrange
  close p := by
    obtain ⟨_, selection, _, _, _, _⟩ := p
    cases selection with
    | none => exact Plain.pure _
    | some s => exact Plain.release s.lease

end Interleave

end BoundedMerge
