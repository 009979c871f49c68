import BoundedMerge.Proofs.Site.Work
import BoundedMerge.Strategy.Interleave
import BoundedMerge.Strategy.Ordered

/-!
Strategies that cannot be told apart. A step of a merge looks at no site: it comes to an answer or
to a halt, and leaves the site as it was. So states that differ only in what no step looks at, as
the lease of a selection, give the same answers in all steps to come, wherever these are taken.
-/

namespace BoundedMerge

open SiteM

/-- Both come to a result, and the results are related, or both halt alike. Neither looks at the
site or changes it. -/
inductive SiteM.Agrees {α β : Type} (R : α → β → Prop) : SiteM α → SiteM β → Prop
  | results {a : α} {b : β} (h : R a b) : Agrees R (pure a) (pure b)
  | halts (h : Halt) : Agrees R (Site.halt h) (Site.halt h)

namespace SiteM.Agrees

variable {α β γ δ : Type} {R : α → β → Prop} {S : γ → δ → Prop}

theorem bind {work : SiteM α} {work' : SiteM β} {next : α → SiteM γ} {next' : β → SiteM δ}
    (h : Agrees R work work') (hnext : ∀ a b, R a b → Agrees S (next a) (next' b)) :
    Agrees S (work >>= next) (work' >>= next') := by
  cases h with
  | results h =>
    rw [pure_bind, pure_bind]
    exact hnext _ _ h
  | halts h => exact .halts h

theorem bind_eq {work : SiteM α} {next : α → SiteM γ} {next' : α → SiteM δ}
    (h : Agrees Eq work work) (hnext : ∀ a, Agrees S (next a) (next' a)) :
    Agrees S (work >>= next) (work >>= next') := by
  apply h.bind
  intro a b hab
  rw [hab]
  exact hnext b

theorem demand (x : Option α) : Agrees Eq (Site.demand x) (Site.demand x) := by
  cases x with
  | none => exact .halts _
  | some a => exact .results rfl

theorem assert (holds : Bool) (a : Assertion) :
    Agrees Eq (Site.assert holds a) (Site.assert holds a) := by
  unfold Site.assert
  split
  · exact .results rfl
  · exact .halts _

/-- Results are related if the works that come to them agree. -/
theorem related {work : SiteM α} {work' : SiteM β} {a : α} {b : β} (h : Agrees R work work')
    (hwork : work = pure a) (hwork' : work' = pure b) : R a b := by
  let site : Site := { ledger := default }
  have hrun : (work site : Except Halt α × Site) = (.ok a, site) := congrFun hwork site
  have hrun' : (work' site : Except Halt β × Site) = (.ok b, site) := congrFun hwork' site
  cases h with
  | results h =>
    injection hrun with hrun
    injection hrun' with hrun'
    injection hrun with ha
    injection hrun' with hb
    rwa [← ha, ← hb]
  | halts h =>
    injection hrun with hrun
    contradiction

end SiteM.Agrees

namespace Strategy

variable {π τ : Type} [Strategy π τ]

/-- What is answered in the steps of a merge up to the first halt. Each step is taken at a site of
its own, given by the number of steps behind it. -/
def answers (sites : Nat → Site) :
    List (List (Option τ) × Taken) → π → List (Except Halt (Except MergeError (Step τ × Taken)))
  | [], _ => []
  | (inputs, taken) :: calls, p =>
    match ((Strategy.operate inputs taken : StrategyM π (Step τ × Taken)) p (sites calls.length) :
      Except Halt (Except MergeError (Step τ × Taken) × π) × Site) with
    | (.ok (answer, p), _) => .ok answer :: answers sites calls p
    | (.error h, _) => [.error h]

/-- The same answers, in all steps to come and wherever they are taken. -/
def AnswerAlike (τ : Type) [Strategy π τ] (p q : π) : Prop :=
  ∀ (calls : List (List (Option τ) × Taken)) (sites sites' : Nat → Site),
    answers sites calls p = answers sites' calls q

def Same {α : Type} (R : π → π → Prop) (out out' : Except MergeError α × π) : Prop :=
  out'.1 = out.1 ∧ R out.2 out'.2

/-- A relation of states that every step keeps lets all answers be the same. -/
theorem answerAlike {R : π → π → Prop}
    (hstep : ∀ p q, R p q → ∀ (inputs : List (Option τ)) (taken : Taken),
      Agrees (Same R) ((Strategy.operate inputs taken : StrategyM π (Step τ × Taken)) p)
        ((Strategy.operate inputs taken : StrategyM π (Step τ × Taken)) q))
    {p q : π} (h : R p q) : AnswerAlike τ p q := by
  intro calls sites sites'
  induction calls generalizing p q with
  | nil => rfl
  | cons call calls ih =>
    obtain ⟨inputs, taken⟩ := call
    have hagrees := hstep p q h inputs taken
    rw [answers, answers]
    generalize (Strategy.operate inputs taken : StrategyM π (Step τ × Taken)) p = work at hagrees
    generalize (Strategy.operate inputs taken : StrategyM π (Step τ × Taken)) q = work' at hagrees
    cases hagrees with
    | halts h => rfl
    | @results out out' hout =>
      obtain ⟨answer, p'⟩ := out
      obtain ⟨_, q'⟩ := out'
      obtain ⟨rfl, hrel⟩ := hout
      exact congrArg (_ :: ·) (ih hrel)

end Strategy

namespace Selection

variable {κ : Type} {s t : Selection κ}

structure Alike (s t : Selection κ) : Prop where
  capacity_eq : t.capacity = s.capacity
  nodes_eq : t.nodes = s.nodes

theorem Alike.agrees_insert {cmp : κ → κ → Ordering} (h : s.Alike t) (key : κ) (source : Nat) :
    Agrees Alike (s.insert cmp key source) (t.insert cmp key source) := by
  unfold insert
  rw [h.capacity_eq, h.nodes_eq]
  exact (Agrees.assert _ _).bind_eq fun _ => .results ⟨rfl, rfl⟩

theorem Alike.extract (h : s.Alike t) (cmp : κ → κ → Ordering) :
    (t.extract cmp).1 = (s.extract cmp).1 ∧ (s.extract cmp).2.Alike (t.extract cmp).2 := by
  unfold Selection.extract
  rw [h.nodes_eq]
  split
  · exact ⟨rfl, h.capacity_eq, rfl⟩
  · exact ⟨rfl, h⟩

end Selection

namespace Ordered

variable {τ : Type} {cmp : τ → τ → Ordering} {s t : Selection τ} {p q : Ordered τ}

/-- The states differ in no more than the lease and in how runs are sorted. -/
structure Alike (p q : Ordered τ) : Prop where
  cmp_eq : q.cmp = p.cmp
  last_eq : q.lastTaken = p.lastTaken
  selection : Option.Rel Selection.Alike p.selection q.selection

theorem agrees_enter (h : s.Alike t) (source : Nat) (inputs : List (Option τ)) :
    Agrees Selection.Alike (enter cmp s source inputs) (enter cmp t source inputs) := by
  induction inputs generalizing s t source with
  | nil => exact .results h
  | cons x inputs ih =>
    cases x with
    | none => exact ih h (source + 1)
    | some x => exact (h.agrees_insert x source).bind fun _ _ h' => ih h' (source + 1)

theorem agrees_refill (h : s.Alike t) (lastTaken : Option Nat) (inputs : List (Option τ)) :
    Agrees Selection.Alike (refill cmp lastTaken inputs s) (refill cmp lastTaken inputs t) := by
  unfold refill
  cases lastTaken with
  | none => exact .results h
  | some source =>
    apply (Agrees.demand _).bind_eq
    intro x
    cases x with
    | none => exact .results h
    | some x => exact h.agrees_insert x source

theorem Alike.agrees_operate (h : p.Alike q) (inputs : List (Option τ)) (taken : Taken) :
    Agrees (Strategy.Same Alike)
      ((operate inputs taken : StrategyM (Ordered τ) (Step τ × Taken)) p)
      ((operate inputs taken : StrategyM (Ordered τ) (Step τ × Taken)) q) := by
  obtain ⟨hcmp, hlast, hselection⟩ := id h
  unfold operate
  simp only [Work.run_bind, Work.run_get, pure_bind]
  generalize p.selection = selection at hselection ⊢
  generalize q.selection = selection' at hselection ⊢
  cases hselection with
  | none => exact .results ⟨rfl, h⟩
  | some hs =>
    simp only [Work.run_bind, Work.run_liftM, bind_assoc, pure_bind]
    rw [hcmp, hlast]
    apply (agrees_refill hs _ _).bind
    intro s t hst
    have hextract := hst.extract p.cmp
    generalize s.extract p.cmp = out at hextract ⊢
    generalize t.extract p.cmp = out' at hextract ⊢
    obtain ⟨_, s'⟩ := out
    obtain ⟨node, t'⟩ := out'
    obtain ⟨rfl, hrest⟩ := hextract
    cases node with
    | none =>
      simp only [Work.run_bind, Work.run_set, Work.run_liftM, bind_assoc, pure_bind]
      apply (Agrees.assert _ _).bind_eq
      intro _
      exact .results ⟨rfl, rfl, rfl, .some hrest⟩
    | some node =>
      simp only [Work.run_bind, Work.run_set, Work.run_liftM, bind_assoc, pure_bind]
      apply (Agrees.demand _).bind_eq
      intro _
      exact .results ⟨rfl, rfl, rfl, .some hrest⟩

end Ordered

namespace Interleave

variable {γ τ : Type} {s t : Selection UInt32} {p q : Interleave γ}

structure Alike (p q : Interleave γ) : Prop where
  source_eq : q.source = p.source
  arity_eq : q.arity = p.arity
  last_eq : q.lastTaken = p.lastTaken
  seen_eq : q.seen = p.seen
  emitted_eq : q.emitted = p.emitted
  selection : Option.Rel Selection.Alike p.selection q.selection

def Entered (out out' : Selection UInt32 × γ) : Prop := out.1.Alike out'.1 ∧ out'.2 = out.2

variable [WordSource γ]

theorem agrees_enter (h : s.Alike t) (input : Nat) (source : γ) :
    Agrees Entered (enter s input source) (enter t input source) := by
  unfold enter
  cases WordSource.next source with
  | mk word source => exact (h.agrees_insert word input).bind fun _ _ h' => .results ⟨h', rfl⟩

theorem agrees_enterAll (h : s.Alike t) (source : γ) (input : Nat) (inputs : List (Option τ)) :
    Agrees Entered (enterAll s source input inputs) (enterAll t source input inputs) := by
  induction inputs generalizing input with
  | nil => exact .results ⟨h, rfl⟩
  | cons x inputs ih =>
    rw [enterAll, enterAll]
    apply (ih (input + 1)).bind
    intro out out' hout
    obtain ⟨s', _⟩ := out
    obtain ⟨t', source'⟩ := out'
    obtain ⟨hs, rfl⟩ := hout
    simp only
    split
    · exact agrees_enter hs input source'
    · exact .results ⟨hs, rfl⟩

omit [WordSource γ] in
theorem agrees_recount (h : p.Alike q) (inputs : List (Option τ)) :
    Agrees Eq (recount p inputs) (recount q inputs) := by
  unfold recount
  rw [h.last_eq, h.seen_eq]
  cases p.lastTaken with
  | none => exact .results rfl
  | some input => exact (Agrees.demand _).bind_eq fun _ => .results rfl

theorem Alike.agrees_operate (h : p.Alike q) (inputs : List (Option τ)) (taken : Taken) :
    Agrees (Strategy.Same Alike)
      ((operate inputs taken : StrategyM (Interleave γ) (Step τ × Taken)) p)
      ((operate inputs taken : StrategyM (Interleave γ) (Step τ × Taken)) q) := by
  have hrecount := agrees_recount h inputs
  obtain ⟨hsource, harity, hlast, hseen, hemitted, hselection⟩ := id h
  unfold operate
  simp only [Work.run_bind, Work.run_get, Work.run_liftM, bind_assoc, pure_bind]
  rw [harity]
  apply (Agrees.assert _ _).bind_eq
  intro _
  generalize p.selection = selection at hselection ⊢
  generalize q.selection = selection' at hselection ⊢
  cases hselection with
  | none => exact .results ⟨rfl, h⟩
  | @some s t hs =>
    simp only [Work.run_bind, Work.run_liftM, bind_assoc, pure_bind]
    apply hrecount.bind
    intro seen _ hsame
    obtain rfl := hsame
    have hextract := hs.extract compare
    generalize s.extract compare = out at hextract ⊢
    generalize t.extract compare = out' at hextract ⊢
    obtain ⟨_, s'⟩ := out
    obtain ⟨node, t'⟩ := out'
    obtain ⟨rfl, hrest⟩ := hextract
    cases node with
    | none =>
      simp only [Work.run_bind, Work.run_set, Work.run_liftM, bind_assoc, pure_bind]
      rw [hemitted]
      apply (Agrees.assert _ _).bind_eq
      intro _
      apply (Agrees.assert _ _).bind_eq
      intro _
      exact .results ⟨rfl, hsource, rfl, rfl, rfl, rfl, .some hrest⟩
    | some node =>
      simp only [Work.run_bind, Work.run_liftM, bind_assoc, pure_bind]
      apply (Agrees.demand _).bind_eq
      intro x
      cases x with
      | none => exact .results ⟨rfl, hsource, rfl, rfl, rfl, hemitted, .some hrest⟩
      | some x =>
        simp only [Work.run_bind, Work.run_set, Work.run_liftM, bind_assoc, pure_bind]
        rw [hsource]
        apply (agrees_enter hrest node.source p.source).bind
        intro entered entered' hentered
        obtain ⟨hnodes, hdrawn⟩ := hentered
        apply (Agrees.demand _).bind_eq
        intro _
        exact .results ⟨rfl, hdrawn, rfl, rfl, rfl, congrArg (· + 1) hemitted, .some hnodes⟩

end Interleave

end BoundedMerge
