import BoundedMerge.Proofs.Site.Echoes

/-!
What work leaves as it was. Work guards a property of its state if the property is lost only where
the outcome of the work says so, as the outcome of work that failed may. What is done afterwards
then counts only where nothing was lost; and where the outcome tells of a loss, it is enough that
the outcome of the whole still does.
-/

namespace BoundedMerge

open SiteM

namespace Work

variable {α β ε σ : Type}

def Raises (P : ε → Prop) (work : ExceptT ε (StateT σ SiteM) α) : Prop :=
  ∀ s, Loses (work s) fun out => ∀ e, out.1 = .error e → P e

def Returns (P : α → Prop) (work : ExceptT ε (StateT σ SiteM) α) : Prop :=
  ∀ s, Loses (work s) fun out => ∀ a, out.1 = .ok a → P a

/-- The property of the state is kept, unless the outcome of the work says that it is lost. -/
def Guards (I : σ → Prop) (lost : Except ε α → Prop) (work : ExceptT ε (StateT σ SiteM) α) :
    Prop :=
  ∀ s, I s → Loses (work s) fun out => lost out.1 ∨ I out.2

namespace Raises

variable {P : ε → Prop}

theorem pure (a : α) : Raises P (pure a : ExceptT ε (StateT σ SiteM) α) :=
  fun _ => Loses.pure fun _ h => nomatch h

theorem throw {e : ε} (h : P e) : Raises P (throw e : ExceptT ε (StateT σ SiteM) α) := by
  intro s
  apply Loses.pure
  intro e' he'
  cases he'
  exact h

theorem bind {work : ExceptT ε (StateT σ SiteM) α} {next : α → ExceptT ε (StateT σ SiteM) β}
    (hwork : Raises P work) (hnext : ∀ a, Raises P (next a)) : Raises P (work >>= next) := by
  intro s
  rw [run_bind]
  apply (hwork s).bind
  intro out hout
  obtain ⟨outcome, s'⟩ := out
  cases outcome with
  | ok a => exact hnext a s'
  | error e =>
    apply Loses.pure
    intro e' he'
    cases he'
    exact hout e rfl

/-- Work at the site does not fail. -/
theorem lift (work : SiteM α) : Raises P (liftM work : ExceptT ε (StateT σ SiteM) α) := by
  intro s
  rw [run_liftM]
  exact Loses.after fun a => Loses.pure fun _ h => nomatch h

theorem get : Raises P (get : ExceptT ε (StateT σ SiteM) σ) :=
  fun _ => Loses.pure fun _ h => nomatch h

theorem set (s : σ) : Raises P (set s : ExceptT ε (StateT σ SiteM) PUnit) :=
  fun _ => Loses.pure fun _ h => nomatch h

theorem modify (f : σ → σ) : Raises P (modify f : ExceptT ε (StateT σ SiteM) PUnit) :=
  fun _ => Loses.pure fun _ h => nomatch h

end Raises

namespace Returns

variable {P : α → Prop} {Q : β → Prop}

theorem pure {a : α} (h : P a) : Returns P (pure a : ExceptT ε (StateT σ SiteM) α) := by
  intro s
  apply Loses.pure
  intro a' ha'
  cases ha'
  exact h

theorem bind {work : ExceptT ε (StateT σ SiteM) α} {next : α → ExceptT ε (StateT σ SiteM) β}
    (hwork : Returns P work) (hnext : ∀ a, P a → Returns Q (next a)) :
    Returns Q (work >>= next) := by
  intro s
  rw [run_bind]
  apply (hwork s).bind
  intro out hout
  obtain ⟨outcome, s'⟩ := out
  cases outcome with
  | ok a => exact hnext a (hout a rfl) s'
  | error e => exact Loses.pure fun _ h => nomatch h

/-- Whatever comes first. -/
theorem after {work : ExceptT ε (StateT σ SiteM) α} {next : α → ExceptT ε (StateT σ SiteM) β}
    (hnext : ∀ a, Returns Q (next a)) : Returns Q (work >>= next) := by
  have htrivial : Returns (fun _ => True) work :=
    fun s site => (ensures_trivial (work s) site).mono (fun _ _ _ _ _ => trivial) fun _ _ h => h
  exact htrivial.bind fun a _ => hnext a

theorem halt (h : Halt) :
    Returns P (liftM (Site.halt h : SiteM α) : ExceptT ε (StateT σ SiteM) α) := by
  intro s
  rw [run_liftM]
  have hnone : Loses (Site.halt h : SiteM α) fun _ => False := fun _ => ensures_halt.mpr trivial
  exact hnone.bind fun _ hfalse => hfalse.elim

end Returns

namespace Guards

variable {I : σ → Prop} {lost : Except ε α → Prop} {lost' : Except ε β → Prop}

theorem pure (a : α) : Guards I lost (pure a : ExceptT ε (StateT σ SiteM) α) :=
  fun _ hs => Loses.pure (.inr hs)

theorem throw (e : ε) : Guards I lost (throw e : ExceptT ε (StateT σ SiteM) α) :=
  fun _ hs => Loses.pure (.inr hs)

/-- Work at the site does not touch the state. -/
theorem lift (work : SiteM α) : Guards I lost (liftM work : ExceptT ε (StateT σ SiteM) α) := by
  intro s hs
  rw [run_liftM]
  exact Loses.after fun a => Loses.pure (.inr hs)

theorem get {next : σ → ExceptT ε (StateT σ SiteM) α} (hnext : ∀ s, I s → Guards I lost (next s)) :
    Guards I lost (get >>= next) :=
  fun s hs => hnext s hs s hs

theorem modify {lost : Except ε PUnit → Prop} {f : σ → σ} (hf : ∀ s, I s → I (f s)) :
    Guards I lost (modify f : ExceptT ε (StateT σ SiteM) PUnit) :=
  fun s hs => Loses.pure (.inr (hf s hs))

theorem of_raises {P : ε → Prop} {work : ExceptT ε (StateT σ SiteM) α} (hwork : Raises P work)
    (hlost : ∀ out, (∀ e, out = .error e → P e) → lost out) : Guards I lost work :=
  fun s _ => (hwork s).mono fun out hout => .inl (hlost out.1 hout)

/-- Where the first work tells of a loss, the whole must do so in the end. -/
theorem bind {work : ExceptT ε (StateT σ SiteM) α} {next : α → ExceptT ε (StateT σ SiteM) β}
    (hwork : Guards I lost work) (hnext : ∀ a, Guards I lost' (next a))
    (herror : ∀ e, lost (.error e) → lost' (.error e))
    (hlost : ∀ a, lost (.ok a) → ∀ s, Loses (next a s) fun out => lost' out.1) :
    Guards I lost' (work >>= next) := by
  intro s hs
  rw [run_bind]
  apply (hwork s hs).bind
  intro out hout
  obtain ⟨outcome, s'⟩ := out
  cases outcome with
  | error e => exact Loses.pure (hout.imp (herror e) id)
  | ok a =>
    rcases hout with hout | hs'
    · exact (hlost a hout s').mono fun _ => .inl
    · exact hnext a s' hs'

/-- Where nothing can be lost, the property holds for what comes next. -/
theorem bind_kept {work : ExceptT ε (StateT σ SiteM) α}
    {next : α → ExceptT ε (StateT σ SiteM) β} (hwork : Guards I (fun _ => False) work)
    (hnext : ∀ a, Guards I lost' (next a)) : Guards I lost' (work >>= next) :=
  hwork.bind hnext (fun _ h => h.elim) fun _ h => h.elim

theorem lift_bind {work : SiteM α} {next : α → ExceptT ε (StateT σ SiteM) β}
    (hnext : ∀ a, Guards I lost' (next a)) : Guards I lost' (liftM work >>= next) :=
  (lift work).bind_kept hnext

/-- A handler that fails as the work did. -/
theorem rethrow {work : ExceptT ε (StateT σ SiteM) α} {after : SiteM Unit}
    (hwork : Guards I lost work) :
    Guards I lost (tryCatch work fun e => do liftM after; MonadExcept.throw e) := by
  intro s hs
  rw [run_tryCatch]
  apply (hwork s hs).bind
  intro out hout
  obtain ⟨outcome, s'⟩ := out
  cases outcome with
  | ok a => exact Loses.pure hout
  | error e =>
    simp only [run_bind, run_liftM, bind_assoc, pure_bind]
    exact Loses.after fun _ => Loses.pure hout

/-- A failure that is turned into a result. -/
theorem observe {work : ExceptT ε (StateT σ SiteM) α} {handle : ε → α} (hwork : Guards I lost work)
    (herror : ∀ e, lost (.error e) → lost (.ok (handle e))) :
    Guards I lost (tryCatch work fun e => Pure.pure (handle e)) := by
  intro s hs
  rw [run_tryCatch]
  apply (hwork s hs).bind
  intro out hout
  obtain ⟨outcome, s'⟩ := out
  cases outcome with
  | ok a => exact Loses.pure hout
  | error e => exact Loses.pure (hout.imp (herror e) id)

end Guards

end Work

end BoundedMerge
