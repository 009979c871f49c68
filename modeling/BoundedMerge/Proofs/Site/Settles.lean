import BoundedMerge.Proofs.Site.Work
import Mathlib.Algebra.Ring.Nat

/-!
Accounts that come out even. A site books a number of bytes if exactly these are in use, and nothing
was ever given back that was not in use. Work `Settles` if it takes bytes over that are charged
and leaves those charged for its result, whatever else is in use, and however small the limit is.
A `Holder` is something that may hold memory. Work on it `Trades` if it settles together with what
is held before and after, also when it fails, and it `Balances` if nothing else changes hands.
-/

namespace BoundedMerge

/-- The event reports that more was given back than was in use. -/
def Event.isUnderflow : Event → Bool
  | fatalBreach (.underflow ..) | breach (.underflow ..) => true
  | _ => false

namespace Site

def Clean (site : Site) : Prop := ∀ e ∈ site.journal.toList, e.isUnderflow = false

/-- An account is kept at the site, and it is exact: `used` bytes are in use. -/
structure Books (site : Site) (used : Nat) : Prop where
  kept : site.ledger.policy ≠ .ignore
  used_eq : site.ledger.used = used
  clean : site.Clean

theorem Clean.report {site : Site} (h : site.Clean) {e : Event} (he : e.isUnderflow = false) :
    Clean { site with journal := site.journal.push e } := by
  intro e' he'
  rw [Array.toList_push, List.mem_append, List.mem_singleton] at he'
  rcases he' with hold | rfl
  · exact h e' hold
  · exact he

theorem Books.report {site : Site} {used : Nat} (h : site.Books used) {e : Event}
    (he : e.isUnderflow = false) :
    Books { site with journal := site.journal.push e } used :=
  ⟨h.kept, h.used_eq, h.clean.report he⟩

theorem Books.charge {site : Site} {used : Nat} (h : site.Books used) (bytes : Nat) :
    Books { site with ledger := (site.ledger.charge bytes).2 } (used + bytes) ∧
      ∀ e, (site.ledger.charge bytes).1 = .error e →
        ∃ requested used' limit, e = .limitExceeded requested used' limit := by
  rw [Ledger.charge, if_neg h.kept]
  refine ⟨⟨h.kept, by rw [h.used_eq], h.clean⟩, ?_⟩
  intro e he
  simp only at he
  split at he
  · exact ⟨_, _, _, (Except.error.inj he).symm⟩
  · contradiction

theorem Books.refund {site : Site} {rest bytes : Nat} (h : site.Books (rest + bytes)) :
    (site.ledger.refund bytes).1 = .ok () ∧
      Books { site with ledger := (site.ledger.refund bytes).2 } rest := by
  have henough : ¬site.ledger.used < bytes := by
    rw [h.used_eq]
    omega
  rw [Ledger.refund, if_neg h.kept, if_neg henough]
  refine ⟨rfl, h.kept, ?_, h.clean⟩
  simp only [h.used_eq, Nat.add_sub_cancel]

end Site

/-- The work takes over `before` bytes that are in use. It leaves a result with property `P` and
`after` bytes in use for it, and everything else as it was. -/
def SiteM.Settles {α : Type} (before : Nat) (work : SiteM α) (P : α → Prop) (after : α → Nat) :
    Prop :=
  ∀ rest site, site.Books (rest + before) → work.Ensures site
    (fun a last => P a ∧ last.Books (rest + after a)) (fun _ last => last.Clean)

namespace SiteM.Settles

variable {α β : Type} {before before' : Nat} {work : SiteM α} {P P' : α → Prop}
  {after after' : α → Nat}

/-- What is in use elsewhere stays so. -/
theorem adapt (extra : Nat) (h : Settles before work P after) (hbefore : before' = extra + before)
    (hafter : ∀ a, P a → P' a ∧ after' a = extra + after a) : Settles before' work P' after' := by
  intro rest site hsite
  rw [hbefore, ← Nat.add_assoc] at hsite
  refine (h (rest + extra) site hsite).mono ?_ fun _ _ hhalt => hhalt
  intro a last ha
  obtain ⟨hP, heven⟩ := hafter a ha.1
  rw [heven, ← Nat.add_assoc]
  exact ⟨hP, ha.2⟩

theorem frame (extra : Nat) (h : Settles before work P after) :
    Settles (extra + before) work P fun a => extra + after a :=
  h.adapt extra rfl fun _ hP => ⟨hP, rfl⟩

/-- Work that uses up what it takes over leaves the rest. -/
theorem beside (extra : Nat) (h : Settles before work P fun _ => 0) :
    Settles (before + extra) work P fun _ => extra :=
  h.adapt extra (Nat.add_comm _ _) fun _ hP => ⟨hP, rfl⟩

theorem mono (h : Settles before work P after) (hafter : ∀ a, P a → P' a ∧ after' a = after a) :
    Settles before work P' after' := by
  refine h.adapt 0 (Nat.zero_add _).symm fun a ha => ⟨(hafter a ha).1, ?_⟩
  rw [(hafter a ha).2, Nat.zero_add]

theorem pure {a : α} (hP : P a) (h : before = after a) : Settles before (pure a) P after := by
  intro rest site hsite
  rw [h] at hsite
  exact ensures_pure.mpr ⟨hP, hsite⟩

theorem bind {next : α → SiteM β} {Q : β → Prop} {last : β → Nat} (h : Settles before work P after)
    (hnext : ∀ a, P a → Settles (after a) (next a) Q last) :
    Settles before (work >>= next) Q last := by
  intro rest site hsite
  rw [ensures_bind]
  refine (h rest site hsite).mono ?_ fun _ _ hhalt => hhalt
  intro a site' ha
  exact hnext a ha.1 rest site' ha.2

theorem halt (h : Halt) : Settles before (Site.halt h) P after :=
  fun _ _ hsite => ensures_halt.mpr hsite.clean

theorem halt_bind (h : Halt) {next : β → SiteM α} :
    Settles before (Site.halt h >>= next) P after :=
  fun _ _ hsite => ensures_bind.mpr (ensures_halt.mpr hsite.clean)

theorem get : Settles before (get : SiteM Site) (fun _ => True) fun _ => before :=
  fun _ _ hsite => ensures_get.mpr ⟨trivial, hsite⟩

theorem report {e : Event} (he : e.isUnderflow = false) :
    Settles before (Site.report e) (fun _ => True) fun _ => before :=
  fun _ _ hsite => ensures_modify.mpr ⟨trivial, hsite.report he⟩

theorem count (bytes : Nat) :
    Settles before (Site.count bytes) (fun _ => True) fun _ => before := by
  unfold Site.count
  refine get.bind fun site _ => ?_
  split
  · exact halt _
  · exact pure trivial rfl

theorem allocate (bytes : Nat) :
    Settles before (Site.allocate bytes) (fun _ => True) fun _ => before := by
  have hasked : Settles before (modifyGet fun site : Site =>
      (bytes = 0 || site.memory.gives site.memory.asked bytes, site.askedOnce)) (fun _ => True)
      fun _ => before :=
    fun _ _ hsite => ensures_modifyGet.mpr ⟨trivial, hsite.kept, hsite.used_eq, hsite.clean⟩
  unfold Site.allocate
  refine hasked.bind fun given _ => ?_
  split
  · exact halt _
  · exact pure trivial rfl

theorem provide (bytes : Nat) :
    Settles before (Site.provide bytes) (fun _ => True) fun _ => before :=
  (count _).bind fun _ _ => allocate bytes

theorem demand (x : Option α) :
    Settles before (Site.demand x) (fun a => x = some a) fun _ => before := by
  cases x with
  | none => exact halt _
  | some a => exact pure rfl rfl

theorem assert (holds : Bool) (a : Assertion) :
    Settles before (Site.assert holds a) (fun _ => holds = true) fun _ => before := by
  unfold Site.assert
  split
  · next h => exact pure h rfl
  · exact halt _

theorem newFile : Settles before Site.newFile (fun _ => True) fun _ => before :=
  fun _ _ hsite => ensures_modifyGet.mpr ⟨trivial, hsite.kept, hsite.used_eq, hsite.clean⟩

theorem setLimit (bytes : Nat) :
    Settles before (Site.setLimit bytes) (fun _ => True) fun _ => before := by
  unfold Site.setLimit
  refine (report rfl).bind fun _ _ => ?_
  exact fun _ _ hsite => ensures_modify.mpr ⟨trivial, hsite.kept, hsite.used_eq, hsite.clean⟩

/-- Whether it fits or not, a charge is entered. -/
theorem charge (bytes : Nat) :
    Settles 0 (Site.charge bytes) (fun outcome => ∀ e, outcome = .error e →
      (Event.breach e).isUnderflow = false ∧ (Event.fatalBreach e).isUnderflow = false)
      fun _ => bytes := by
  have hentered : Settles 0 (modifyGet fun site =>
      ((site.ledger.charge bytes).1, { site with ledger := (site.ledger.charge bytes).2 }))
      (fun outcome => ∀ e, outcome = .error e →
        (Event.breach e).isUnderflow = false ∧ (Event.fatalBreach e).isUnderflow = false)
      fun _ => bytes := by
    intro rest site hsite
    obtain ⟨hbooks, hexcess⟩ := hsite.charge bytes
    refine ensures_modifyGet.mpr ⟨?_, hbooks⟩
    intro e he
    obtain ⟨requested, used, limit, rfl⟩ := hexcess e he
    exact ⟨rfl, rfl⟩
  unfold Site.charge
  refine get.bind fun site _ => ?_
  simp only
  split
  · exact (count _).bind fun _ _ => hentered
  · exact hentered

theorem take (bytes : Nat) :
    Settles 0 (Lease.take bytes) (fun lease => lease.bytes = bytes) fun _ => bytes := by
  intro rest site hsite
  unfold Lease.take
  rw [ensures_bind, ensures_get, if_neg hsite.kept]
  refine Settles.bind (charge bytes) ?_ rest site hsite
  intro outcome hquiet
  cases outcome with
  | ok _ => exact pure rfl rfl
  | error e =>
    obtain ⟨hbreach, hfatal⟩ := hquiet e rfl
    simp only
    split
    · exact (report hfatal).bind fun _ _ => halt _
    · exact (report hbreach).bind fun _ _ => pure rfl rfl

/-- What a lease gives back was in use. -/
theorem release (lease : Lease) :
    Settles lease.bytes lease.release (fun _ => True) fun _ => 0 := by
  intro rest site hsite
  unfold Lease.release
  split
  · next hzero =>
    rw [hzero] at hsite
    exact ensures_pure.mpr ⟨trivial, hsite⟩
  · obtain ⟨henough, hbooks⟩ := hsite.refund
    rw [ensures_bind, Site.refund, ensures_modifyGet]
    simp only [henough]
    exact ensures_pure.mpr ⟨trivial, hbooks⟩

end SiteM.Settles

def SiteM.Returns {α : Type} (work : SiteM α) : Prop :=
  ∀ site, work.Ensures site (fun _ _ => True) fun _ _ => False

namespace SiteM.Returns

variable {α β : Type} {work : SiteM α}

theorem exists_run (h : Returns work) (site : Site) :
    ∃ a last, (work site : Except Halt α × Site) = (.ok a, last) := by
  have hwork := h site
  unfold Ensures at hwork
  split at hwork
  · next a last hrun => exact ⟨a, last, hrun⟩
  · contradiction

theorem pure (a : α) : Returns (pure a) := fun _ => ensures_pure.mpr trivial

theorem bind {next : α → SiteM β} (h : Returns work) (hnext : ∀ a, Returns (next a)) :
    Returns (work >>= next) :=
  fun site => ensures_bind.mpr ((h site).mono (fun a last _ => hnext a last) fun _ _ hh => hh)

theorem report (e : Event) : Returns (Site.report e) := fun _ => ensures_modify.mpr trivial

theorem release (lease : Lease) : Returns lease.release := by
  intro site
  unfold Lease.release
  split
  · exact ensures_pure.mpr trivial
  · rw [ensures_bind, Site.refund, ensures_modifyGet]
    cases (site.ledger.refund lease.bytes).1 with
    | ok _ => exact ensures_pure.mpr trivial
    | error e => exact report _ _

end SiteM.Returns

universe u

class Holder (σ : Type u) where
  /-- Bytes that are to be charged for what it holds. -/
  held : σ → Nat
  /-- Its leases are for what it holds. -/
  Paid : σ → Prop

namespace Holder

open SiteM

instance {σ : Type u} [Holder σ] : Holder (List σ) where
  held all := (all.map held).sum
  Paid all := ∀ s ∈ all, Paid s

section List

variable {σ : Type u} [Holder σ]

@[simp] theorem held_nil : held ([] : List σ) = 0 := rfl

@[simp] theorem held_cons (s : σ) (all : List σ) : held (s :: all) = held s + held all := rfl

@[simp] theorem held_append (all all' : List σ) : held (all ++ all') = held all + held all' := by
  simp only [held, List.map_append, List.sum_append]

@[simp] theorem paid_nil : Paid ([] : List σ) := by
  intro s hs
  contradiction

@[simp] theorem paid_cons {s : σ} {all : List σ} : Paid (s :: all) ↔ Paid s ∧ Paid all :=
  List.forall_mem_cons

@[simp] theorem paid_append {all all' : List σ} : Paid (all ++ all') ↔ Paid all ∧ Paid all' :=
  List.forall_mem_append

end List

variable {ε σ α β : Type} [Holder σ]

/-- The work takes over `before` bytes that are in use. It leaves an outcome with property `P` and
`after` bytes in use for it, and the bytes for what is then held. -/
def Trades (before : Nat) (work : ExceptT ε (StateT σ SiteM) α) (P : Except ε α → Prop)
    (after : Except ε α → Nat) : Prop :=
  ∀ s, Paid s → Settles (before + held s) (work s) (fun out => P out.1 ∧ Paid out.2)
    fun out => after out.1 + held out.2

def Balances (work : ExceptT ε (StateT σ SiteM) α) : Prop :=
  Trades 0 work (fun _ => True) fun _ => 0

def gain (after : α → Nat) : Except ε α → Nat
  | .ok a => after a
  | .error _ => 0

/-- The property of the result, unless the work failed. -/
def Sure (P : α → Prop) : Except ε α → Prop
  | .ok a => P a
  | .error _ => True

def Safe (P : α → Prop) : Except ε α → Prop
  | .ok a => P a
  | .error _ => False

namespace Trades

variable {before before' : Nat} {work : ExceptT ε (StateT σ SiteM) α} {P P' : Except ε α → Prop}
  {after after' : Except ε α → Nat}

theorem adapt (extra : Nat) (h : Trades before work P after) (hbefore : before' = extra + before)
    (hafter : ∀ out, P out → P' out ∧ after' out = extra + after out) :
    Trades before' work P' after' := by
  intro s hs
  refine (h s hs).adapt extra (by rw [hbefore, Nat.add_assoc]) ?_
  intro out hout
  obtain ⟨hP, heven⟩ := hafter out.1 hout.1
  exact ⟨⟨hP, hout.2⟩, by rw [heven, Nat.add_assoc]⟩

theorem frame (extra : Nat) (h : Trades before work P after) :
    Trades (extra + before) work P fun out => extra + after out :=
  h.adapt extra rfl fun _ hP => ⟨hP, rfl⟩

theorem pure {a : α} (hP : P (.ok a)) (h : before = after (.ok a)) :
    Trades before (pure a : ExceptT ε (StateT σ SiteM) α) P after :=
  fun _ hs => Settles.pure ⟨hP, hs⟩ (by rw [h])

theorem throw {e : ε} (hP : P (.error e)) (h : before = after (.error e)) :
    Trades before (throw e : ExceptT ε (StateT σ SiteM) α) P after :=
  fun _ hs => Settles.pure ⟨hP, hs⟩ (by rw [h])

theorem bind {next : α → ExceptT ε (StateT σ SiteM) β} {Q : Except ε β → Prop}
    {last : Except ε β → Nat} (h : Trades before work P after)
    (hok : ∀ a, P (.ok a) → Trades (after (.ok a)) (next a) Q last)
    (herror : ∀ e, P (.error e) → Q (.error e) ∧ after (.error e) = last (.error e)) :
    Trades before (work >>= next) Q last := by
  intro s hs
  rw [Work.run_bind]
  apply (h s hs).bind
  intro out hout
  obtain ⟨e | a, s'⟩ := out
  · obtain ⟨hQ, heven⟩ := herror e hout.1
    exact Settles.pure ⟨hQ, hout.2⟩ (by rw [heven])
  · exact hok a hout.1 s' hout.2

theorem bind_safe {next : α → ExceptT ε (StateT σ SiteM) β} {R : α → Prop}
    {Q : Except ε β → Prop} {last : Except ε β → Nat} (h : Trades before work (Safe R) after)
    (hnext : ∀ a, R a → Trades (after (.ok a)) (next a) Q last) :
    Trades before (work >>= next) Q last :=
  h.bind hnext fun _ he => he.elim

theorem tryCatch {handle : ε → ExceptT ε (StateT σ SiteM) α} {Q : Except ε α → Prop}
    {last : Except ε α → Nat} (h : Trades before work P after)
    (hok : ∀ a, P (.ok a) → Q (.ok a) ∧ after (.ok a) = last (.ok a))
    (herror : ∀ e, P (.error e) → Trades (after (.error e)) (handle e) Q last) :
    Trades before (tryCatch work handle) Q last := by
  intro s hs
  rw [Work.run_tryCatch]
  apply (h s hs).bind
  intro out hout
  obtain ⟨e | a, s'⟩ := out
  · exact herror e hout.1 s' hout.2
  · obtain ⟨hQ, heven⟩ := hok a hout.1
    exact Settles.pure ⟨hQ, hout.2⟩ (by rw [heven])

/-- Work at the site alone does not fail. -/
theorem liftM {work : SiteM α} {P : α → Prop} {after : α → Nat} (h : Settles before work P after)
    {Q : Except ε α → Prop} {last : Except ε α → Nat}
    (hok : ∀ a, P a → Q (.ok a) ∧ after a = last (.ok a)) :
    Trades before (liftM work : ExceptT ε (StateT σ SiteM) α) Q last := by
  intro s hs
  rw [Work.run_liftM]
  have hframed : Settles (before + held s) work P fun a => after a + held s :=
    h.adapt (held s) (Nat.add_comm _ _) fun a ha => ⟨ha, Nat.add_comm _ _⟩
  apply hframed.bind
  intro a ha
  obtain ⟨hQ, heven⟩ := hok a ha
  exact Settles.pure ⟨hQ, hs⟩ (by rw [heven])

theorem liftM_bind {work : SiteM β} {next : β → ExceptT ε (StateT σ SiteM) α} {R : β → Prop}
    {between : β → Nat} (h : Settles before work R between)
    (hnext : ∀ b, R b → Trades (between b) (next b) P after) :
    Trades before ((MonadLiftT.monadLift work : ExceptT ε (StateT σ SiteM) β) >>= next) P
      after := by
  have hwork : Trades before (MonadLiftT.monadLift work : ExceptT ε (StateT σ SiteM) β) (Safe R)
      (gain between) := liftM h fun b hb => ⟨hb, rfl⟩
  exact hwork.bind_safe hnext

theorem get {next : σ → ExceptT ε (StateT σ SiteM) α} (h : ∀ s, Trades before (next s) P after) :
    Trades before (get >>= next) P after :=
  fun s hs => h s s hs

end Trades

namespace Balances

variable {work : ExceptT ε (StateT σ SiteM) α}

theorem of_settles (h : ∀ s, Paid s → Settles (held s) (work s) (fun out => Paid out.2)
    fun out => held out.2) : Balances work := by
  intro s hs
  rw [Nat.zero_add]
  exact (h s hs).mono fun out hout => ⟨⟨trivial, hout⟩, Nat.zero_add _⟩

theorem settles (h : Balances work) {s : σ} (hs : Paid s) :
    Settles (held s) (work s) (fun out => Paid out.2) fun out => held out.2 := by
  have hwork := h s hs
  rw [Nat.zero_add] at hwork
  exact hwork.mono fun out hout => ⟨hout.2, (Nat.zero_add _).symm⟩

theorem pure (a : α) : Balances (pure a : ExceptT ε (StateT σ SiteM) α) :=
  Trades.pure trivial rfl

theorem throw (e : ε) : Balances (throw e : ExceptT ε (StateT σ SiteM) α) :=
  Trades.throw trivial rfl

theorem bind {next : α → ExceptT ε (StateT σ SiteM) β} (h : Balances work)
    (hnext : ∀ a, Balances (next a)) : Balances (work >>= next) :=
  Trades.bind h (fun a _ => hnext a) fun _ _ => ⟨trivial, rfl⟩

theorem map (f : α → β) (h : Balances work) : Balances (f <$> work) := by
  rw [map_eq_pure_bind]
  exact h.bind fun a => pure (f a)

theorem tryCatch {handle : ε → ExceptT ε (StateT σ SiteM) α} (h : Balances work)
    (hhandle : ∀ e, Balances (handle e)) : Balances (tryCatch work handle) :=
  Trades.tryCatch h (fun _ _ => ⟨trivial, rfl⟩) fun e _ => hhandle e

/-- Something is given back if the work fails. -/
theorem orElse {cost : Nat} {undo : SiteM PUnit} (h : Balances work)
    (hundo : Settles cost undo (fun _ => True) fun _ => 0) :
    Trades cost (MonadExcept.tryCatch work fun e => do
      MonadLiftT.monadLift undo
      MonadExcept.throw e) (fun _ => True) (gain fun _ => cost) := by
  have hwork : Trades cost work (fun _ => True) fun _ => cost := Trades.frame cost h
  apply hwork.tryCatch
  · exact fun _ _ => ⟨trivial, rfl⟩
  · exact fun e _ => Trades.liftM_bind hundo fun _ _ => Trades.throw trivial rfl

theorem liftM {work : SiteM α} {P : α → Prop} (h : Settles 0 work P fun _ => 0) :
    Balances (liftM work : ExceptT ε (StateT σ SiteM) α) :=
  Trades.liftM h fun _ _ => ⟨trivial, rfl⟩

theorem get {next : σ → ExceptT ε (StateT σ SiteM) α} (h : ∀ s, Balances (next s)) :
    Balances (get >>= next) :=
  Trades.get h

theorem modify {f : σ → σ} (h : ∀ s, Paid s → Paid (f s) ∧ held s = held (f s)) :
    Balances (modify f : ExceptT ε (StateT σ SiteM) PUnit) := by
  intro s hs
  obtain ⟨hpaid, heven⟩ := h s hs
  exact Settles.pure ⟨trivial, hpaid⟩ (by simp only [Nat.zero_add, heven])

theorem ite {c : Prop} [Decidable c] {work' : ExceptT ε (StateT σ SiteM) α} (h : Balances work)
    (h' : Balances work') : Balances (if c then work else work') := by
  split
  · exact h
  · exact h'

/-- Work that is done unless there is a reason to fail. -/
theorem guarded {c : Prop} [Decidable c] {e : ε} {next : PUnit → ExceptT ε (StateT σ SiteM) α}
    (h : Balances (next ⟨⟩)) :
    Balances (if c then (MonadExcept.throw e : ExceptT ε (StateT σ SiteM) PUnit) >>= next
      else next ⟨⟩) :=
  ite ((throw e).bind fun _ => h) h

end Balances

/-- A part that can be exchanged for another one. What the `others` hold stays the same. -/
structure Portion {ρ : Type} [Holder ρ] (part : σ → ρ) (put : ρ → σ → σ) (others : σ → Nat) :
    Prop where
  paid_part {s : σ} : Paid s → Paid (part s)
  paid_put {s : σ} {r : ρ} : Paid s → Paid r → Paid (put r s)
  held_eq (s : σ) : held s = others s + held (part s)
  held_put (s : σ) (r : ρ) : held (put r s) = others s + held r

namespace Portion

variable {ρ ε' : Type} [Holder ρ] {part : σ → ρ} {put : ρ → σ → σ} {others : σ → Nat}
  {work : ExceptT ε (StateT ρ SiteM) α} {whole : ExceptT ε' (StateT σ SiteM) α}

/-- Work on a part is work on the whole. -/
theorem trades (hpart : Portion part put others) (wrap : ε → ε') {before : Nat}
    {P : Except ε α → Prop} {after : Except ε α → Nat} {Q : Except ε' α → Prop}
    {last : Except ε' α → Nat} (h : Trades before work P after)
    (hrun : ∀ s, whole s = (work (part s) >>= fun out =>
      pure (out.1.mapError wrap, put out.2 s) : SiteM (Except ε' α × σ)))
    (hout : ∀ out, P out → Q (out.mapError wrap) ∧ after out = last (out.mapError wrap)) :
    Trades before whole Q last := by
  intro s hs
  rw [hrun]
  have hframed : Settles (before + held s) (work (part s)) (fun out => P out.1 ∧ Paid out.2)
      fun out => others s + (after out.1 + held out.2) := by
    refine (h (part s) (hpart.paid_part hs)).adapt (others s) ?_ fun _ hP => ⟨hP, rfl⟩
    rw [hpart.held_eq]
    omega
  apply hframed.bind
  intro out hP
  obtain ⟨hQ, heven⟩ := hout out.1 hP.1
  refine Settles.pure ⟨hQ, hpart.paid_put hs hP.2⟩ ?_
  rw [hpart.held_put, heven, Nat.add_left_comm]

theorem balances (hpart : Portion part put others) (wrap : ε → ε') (h : Balances work)
    (hrun : ∀ s, whole s = (work (part s) >>= fun out =>
      pure (out.1.mapError wrap, put out.2 s) : SiteM (Except ε' α × σ))) : Balances whole :=
  hpart.trades wrap h hrun fun _ _ => ⟨trivial, rfl⟩

end Portion

end Holder

end BoundedMerge
