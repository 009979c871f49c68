import BoundedMerge.Proofs.Site.Meets
import BoundedMerge.Strategy.Drive

/-!
A policy is a strategy that knows no site: what it answers, and whether it halts, depends on its
own state and on the pending records alone. Driven over runs that are held in memory it takes a
definite course, a sequence of calls with their answers. A strategy plays a policy if it answers as
the policy does wherever it works.
-/

namespace BoundedMerge

open SiteM

variable {π τ : Type}

/-- The marked inputs are some of those there are, each marked once. -/
structure Taken.Marks (taken : Taken) (arity : Nat) : Prop where
  nodup : taken.indices.Nodup
  bounded : ∀ i ∈ taken.indices, i < arity

abbrev Act (π α : Type) := π → Except Halt (Except MergeError α × π)

structure Policy (π τ : Type) where
  prepare : List (Option τ) → Act π Unit
  operate : List (Option τ) → Act π (Step τ × Taken)
  marks : ∀ inputs p step taken p',
    operate inputs p = .ok (.ok (step, taken), p') → taken.Marks inputs.length

inductive Call (τ : Type)
  | prepare (inputs : List (Option τ)) (answer : Except MergeError Unit)
  | operate (inputs : List (Option τ)) (answer : Except MergeError (Step τ × Taken))

inductive Ending (π τ : Type)
  /-- It was done, or failed, with these runs left. -/
  | returned (outcome : Except MergeError Unit) (p : π) (left : List (List τ))
  | halted (h : Halt)
  /-- It was not done in the steps it was allowed. -/
  | running

structure Course (π τ : Type) where
  calls : List (Call τ) := []
  emitted : List τ := []
  ending : Ending π τ

def Ending.map {ρ : Type} (f : π → ρ) : Ending π τ → Ending ρ τ
  | returned outcome p left => .returned outcome (f p) left
  | halted h => .halted h
  | running => .running

def Course.after (c : Course π τ) (call : Call τ) (out : List τ) : Course π τ :=
  { c with calls := call :: c.calls, emitted := out ++ c.emitted }

@[simp] theorem Course.after_emitted (c : Course π τ) (call : Call τ) (out : List τ) :
    (c.after call out).emitted = out ++ c.emitted := rfl

@[simp] theorem Course.after_ending (c : Course π τ) (call : Call τ) (out : List τ) :
    (c.after call out).ending = c.ending := rfl

@[simp] theorem Course.after_calls (c : Course π τ) (call : Call τ) (out : List τ) :
    (c.after call out).calls = call :: c.calls := rfl

namespace Policy

/-- Operates the policy on the runs until it is done. After each step every input that it took
has advanced by one record, and an input without records stays so. -/
def drive (policy : Policy π τ) : Nat → π → List (List τ) → Course π τ
  | 0, _, _ => { ending := .running }
  | steps + 1, p, runs =>
    match policy.operate (runs.map List.head?) p with
    | .error h => { ending := .halted h }
    | .ok (.error e, p) =>
      { calls := [.operate (runs.map List.head?) (.error e)]
        ending := .returned (.error e) p runs }
    | .ok (.ok (.done, taken), p) =>
      { calls := [.operate (runs.map List.head?) (.ok (.done, taken))]
        ending := .returned
          (if runs.all List.isEmpty then .ok () else .error .inputsRemaining) p runs }
    | .ok (.ok (.skip, taken), p) =>
      (policy.drive steps p (Strategy.advance taken runs)).after
        (.operate (runs.map List.head?) (.ok (.skip, taken))) []
    | .ok (.ok (.emit x, taken), p) =>
      (policy.drive steps p (Strategy.advance taken runs)).after
        (.operate (runs.map List.head?) (.ok (.emit x, taken))) [x]

def course (policy : Policy π τ) (steps : Nat) (p : π) (runs : List (List τ)) : Course π τ :=
  match policy.prepare (runs.map List.head?) p with
  | .error h => { ending := .halted h }
  | .ok (.error e, p) =>
    { calls := [.prepare (runs.map List.head?) (.error e)]
      ending := .returned (.error e) p runs }
  | .ok (.ok _, p) =>
    (policy.drive steps p runs).after (.prepare (runs.map List.head?) (.ok ())) []

/-- More steps make no difference to a policy that was done. -/
theorem drive_of_le (policy : Policy π τ) {steps more : Nat} {p : π} {runs : List (List τ)}
    (hmore : steps ≤ more) (hended : (policy.drive steps p runs).ending ≠ .running) :
    policy.drive more p runs = policy.drive steps p runs := by
  induction steps generalizing more p runs with
  | zero => exact absurd rfl hended
  | succ steps ih =>
    obtain ⟨more, rfl⟩ : ∃ fewer, more = fewer + 1 := ⟨more - 1, by omega⟩
    have hrest (p' : π) (runs' : List (List τ))
        (h : (policy.drive steps p' runs').ending ≠ .running) :
        policy.drive more p' runs' = policy.drive steps p' runs' := ih (by omega) h
    rw [drive] at hended ⊢
    rw [drive]
    cases hanswer : policy.operate (runs.map List.head?) p with
    | error h => rfl
    | ok answer =>
      rw [hanswer] at hended
      obtain ⟨outcome, p'⟩ := answer
      rcases outcome with e | ⟨step, taken⟩
      · rfl
      cases step with
      | done => rfl
      | skip => exact congrArg (Course.after · _ _) (hrest _ _ hended)
      | emit x => exact congrArg (Course.after · _ _) (hrest _ _ hended)

theorem course_of_le (policy : Policy π τ) {steps more : Nat} {p : π} {runs : List (List τ)}
    (hmore : steps ≤ more) (hended : (policy.course steps p runs).ending ≠ .running) :
    policy.course more p runs = policy.course steps p runs := by
  rw [course] at hended ⊢
  rw [course]
  cases hanswer : policy.prepare (runs.map List.head?) p with
  | error h => rfl
  | ok answer =>
    rw [hanswer] at hended
    obtain ⟨e | ⟨⟩, p'⟩ := answer
    · rfl
    · exact congrArg (Course.after · _ _) (policy.drive_of_le hmore hended)

/-- Nothing is left of the runs when the merge is complete. -/
theorem drive_left (policy : Policy π τ) {steps : Nat} {p p' : π} {runs left : List (List τ)}
    (h : (policy.drive steps p runs).ending = .returned (.ok ()) p' left) :
    ∀ run ∈ left, run = [] := by
  induction steps generalizing p runs with
  | zero => contradiction
  | succ steps ih =>
    rw [drive] at h
    cases hanswer : policy.operate (runs.map List.head?) p with
    | error halt =>
      rw [hanswer] at h
      contradiction
    | ok answer =>
      rw [hanswer] at h
      obtain ⟨outcome, q⟩ := answer
      rcases outcome with e | ⟨step, taken⟩
      · injection h with hfailed
        contradiction
      cases step with
      | done =>
        injection h with hall _ hleft
        rw [← hleft]
        intro run hrun
        split at hall
        · next hempty => simpa using List.all_eq_true.mp hempty run hrun
        · contradiction
      | skip => exact ih h
      | emit x => exact ih h

theorem course_left (policy : Policy π τ) {steps : Nat} {p p' : π} {runs left : List (List τ)}
    (h : (policy.course steps p runs).ending = .returned (.ok ()) p' left) :
    ∀ run ∈ left, run = [] := by
  rw [course] at h
  cases hanswer : policy.prepare (runs.map List.head?) p with
  | error halt =>
    rw [hanswer] at h
    contradiction
  | ok answer =>
    rw [hanswer] at h
    obtain ⟨e | ⟨⟩, q⟩ := answer
    · injection h with hfailed
      contradiction
    · exact policy.drive_left h

/-- The strategy answers as the policy does at every site like `ref`, and halts where the policy
does, or for a reason that is up to the site. -/
structure PlayedBy [Strategy π τ] (policy : Policy π τ) (ref : Site) : Prop where
  prepare (inputs : List (Option τ)) (p : π) :
    Meets ref ((Strategy.prepare inputs : StrategyM π Unit) p)
      (fun out => policy.prepare inputs p = .ok out) (fun h => policy.prepare inputs p = .error h)
  operate (inputs : List (Option τ)) (p : π) :
    Meets ref ((Strategy.operate inputs (Taken.none inputs.length) :
        StrategyM π (Step τ × Taken)) p)
      (fun out => policy.operate inputs p = .ok out) (fun h => policy.operate inputs p = .error h)

end Policy

/-- A strategy that keeps a record of its calls, and says itself how many steps a merge may take. -/
structure Watched (π τ : Type) where
  strategy : π
  allowed : Nat
  calls : List (Call τ) := []

namespace Watched

def call {α : Type} (work : StrategyM π α) (record : Except MergeError α → Call τ) :
    StrategyM (Watched π τ) α := do
  let w ← get
  let (answer, strategy) ← (work w.strategy : SiteM _)
  set { w with strategy, calls := w.calls ++ [record answer] }
  match answer with
  | .ok a => return a
  | .error e => throw e

instance [Strategy π τ] : Strategy (Watched π τ) τ where
  prepare inputs := call (Strategy.prepare inputs) (.prepare inputs)
  operate inputs taken := call (Strategy.operate inputs taken) (.operate inputs)
  overhead w := Strategy.overhead τ w.strategy
  perInput w := Strategy.perInput τ w.strategy
  close w := Strategy.close τ w.strategy
  stepLimit w _ := w.allowed

def later (w : Watched π τ) (calls : List (Call τ)) (p : π) : Watched π τ :=
  { w with strategy := p, calls := w.calls ++ calls }

def act {α : Type} (act : Act π α) (record : Except MergeError α → Call τ) :
    Act (Watched π τ) α := fun w =>
  (act w.strategy).map fun out => (out.1, w.later [record out.1] out.2)

theorem meets_call {α : Type} {ref : Site} {work : StrategyM π α} {w : Watched π τ}
    {record : Except MergeError α → Call τ} {act : Act π α}
    (h : Meets ref (work w.strategy) (fun out => act w.strategy = .ok out)
      (fun h => act w.strategy = .error h)) :
    Meets ref ((call work record : StrategyM (Watched π τ) α) w)
      (fun out => Watched.act act record w = .ok out)
      (fun h => Watched.act act record w = .error h) := by
  unfold call
  simp only [Work.run_bind, Work.run_get, Work.run_liftM, bind_assoc, pure_bind, Work.run_set]
  have hhalts := h.mono_halts (K := fun h => Watched.act act record w = .error h) fun halt hhalt =>
    by rw [Watched.act, hhalt, Except.map]
  apply hhalts.bind
  intro out hout
  obtain ⟨answer, p⟩ := out
  have hact : Watched.act act record w = .ok (answer, w.later [record answer] p) := by
    rw [Watched.act, hout, Except.map]
  cases answer with
  | error e => exact Meets.pure hact
  | ok a => exact Meets.pure hact

end Watched

namespace Policy

def watched (policy : Policy π τ) : Policy (Watched π τ) τ where
  prepare inputs := Watched.act (policy.prepare inputs) (.prepare inputs)
  operate inputs := Watched.act (policy.operate inputs) (.operate inputs)
  marks inputs w step taken w' h := by
    rw [Watched.act] at h
    cases hanswer : policy.operate inputs w.strategy with
    | error halt =>
      rw [hanswer] at h
      contradiction
    | ok out =>
      rw [hanswer] at h
      obtain ⟨answer, p⟩ := out
      cases h
      exact policy.marks inputs w.strategy step taken p hanswer

theorem PlayedBy.watched [Strategy π τ] {policy : Policy π τ} {ref : Site}
    (h : policy.PlayedBy ref) : policy.watched.PlayedBy ref where
  prepare inputs w := Watched.meets_call (h.prepare inputs w.strategy)
  operate inputs w := Watched.meets_call (h.operate inputs w.strategy)

end Policy

namespace Course

def watched (c : Course π τ) (w : Watched π τ) : Course (Watched π τ) τ where
  calls := c.calls
  emitted := c.emitted
  ending := c.ending.map (w.later c.calls)

theorem watched_after (c : Course π τ) (w : Watched π τ) (call : Call τ) (out : List τ) (p : π) :
    (c.watched (w.later [call] p)).after call out = (c.after call out).watched w := by
  obtain ⟨calls, emitted, ending⟩ := c
  cases ending with
  | returned outcome q left => simp [watched, after, Ending.map, Watched.later]
  | halted h => rfl
  | running => rfl

end Course

namespace Policy

theorem drive_watched (policy : Policy π τ) (steps : Nat) (w : Watched π τ)
    (runs : List (List τ)) :
    policy.watched.drive steps w runs = (policy.drive steps w.strategy runs).watched w := by
  induction steps generalizing w runs with
  | zero => rfl
  | succ steps ih =>
    rw [drive, drive]
    simp only [watched, Watched.act]
    cases policy.operate (runs.map List.head?) w.strategy with
    | error h => rfl
    | ok answer =>
      obtain ⟨outcome, p⟩ := answer
      rcases outcome with e | ⟨step, taken⟩
      · rfl
      cases step with
      | done => rfl
      | skip => exact (congrArg (Course.after · _ _) (ih _ _)).trans (Course.watched_after ..)
      | emit x => exact (congrArg (Course.after · _ _) (ih _ _)).trans (Course.watched_after ..)

theorem course_watched (policy : Policy π τ) (steps : Nat) (w : Watched π τ)
    (runs : List (List τ)) :
    policy.watched.course steps w runs = (policy.course steps w.strategy runs).watched w := by
  rw [course, course]
  simp only [watched, Watched.act]
  cases policy.prepare (runs.map List.head?) w.strategy with
  | error h => rfl
  | ok answer =>
    obtain ⟨e | ⟨⟩, p⟩ := answer
    · rfl
    · exact (congrArg (Course.after · _ _) (policy.drive_watched _ _ _)).trans
        (Course.watched_after ..)

end Policy

end BoundedMerge
