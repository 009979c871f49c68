import BoundedMerge.Proofs.Site.Work

/-!
What work reports of the course of a merge, at any site. Most work is quiet: it adds nothing to
the plans in the journal. Work on a state may fail; what is said of its result is said of the case
where it does not. Whether work may be stalled is a parameter: of most work it is not known to be
possible, and where it is not, the work comes to an end.
-/

namespace BoundedMerge

def Event.isPlan : Event → Bool
  | inMemory _ | distributing .. | runsFormed _ | pass .. | finalPass _ => true
  | _ => false

def Site.plans (site : Site) : List Event := site.journal.toList.filter Event.isPlan

theorem Site.plans_report (site : Site) (e : Event) :
    Site.plans { site with journal := site.journal.push e } =
      site.plans ++ if e.isPlan then [e] else [] := by
  rw [plans, plans, Array.toList_push, List.filter_append, List.filter_cons, List.filter_nil]

/-- A lease that is given back is at most reported as a breach. -/
theorem Lease.plans_release (lease : Lease) (site : Site) :
    lease.release.Ensures site (fun _ after => after.plans = site.plans) fun _ _ => False := by
  unfold Lease.release
  split
  · exact SiteM.ensures_pure.mpr rfl
  · simp only [SiteM.ensures_bind, Site.refund, SiteM.ensures_modifyGet]
    cases (site.ledger.refund lease.bytes).1 with
    | ok _ => exact SiteM.ensures_pure.mpr rfl
    | error e =>
      refine SiteM.ensures_modify.mpr ((Site.plans_report _ (.breach e)).trans ?_)
      exact List.append_nil _

namespace SiteM

variable {α β : Type} {stall : Prop}

/-- The work adds nothing to the plans. It comes to a result with `Q` or to a halt, and is stalled
in the case `stall` only. -/
def Quiet (stall : Prop) (work : SiteM α) (Q : α → Prop) : Prop :=
  ∀ site, work.Ensures site (fun a after => after.plans = site.plans ∧ Q a)
    fun halt after => after.plans = site.plans ∧ (halt = .stalled → stall)

/-- The work adds to the plans. It comes to a result with `Q`, which tells what was added as well,
or to a halt, where `H` tells it, and is stalled in the case `stall` only. -/
def Reports (stall : Prop) (work : SiteM α) (Q : α → List Event → Prop)
    (H : List Event → Prop) : Prop :=
  ∀ site, work.Ensures site (fun a after => ∃ news, after.plans = site.plans ++ news ∧ Q a news)
    fun halt after => (∃ news, after.plans = site.plans ++ news ∧ H news) ∧
      (halt = .stalled → stall)

namespace Quiet

variable {Q Q' : α → Prop} {R : β → Prop} {work : SiteM α}

theorem mono (h : Quiet stall work Q) (hQ : ∀ a, Q a → Q' a) : Quiet stall work Q' := by
  intro site
  apply (h site).mono
  · intro a _ ha
    exact ⟨ha.1, hQ a ha.2⟩
  · intro _ _ hh
    exact hh

theorem pure {a : α} (h : Q a) : Quiet stall (pure a) Q := fun _ => ensures_pure.mpr ⟨rfl, h⟩

theorem halt {h : Halt} (hstall : h = .stalled → stall) :
    Quiet stall (Site.halt h : SiteM α) Q := fun _ => ensures_halt.mpr ⟨rfl, hstall⟩

theorem bind {next : α → SiteM β} (h : Quiet stall work Q)
    (hnext : ∀ a, Q a → Quiet stall (next a) R) : Quiet stall (work >>= next) R := by
  intro site
  rw [ensures_bind]
  apply (h site).mono
  · intro a after ha
    apply (hnext a ha.2 after).mono
    · intro b last hb
      exact ⟨hb.1.trans ha.1, hb.2⟩
    · intro halt last hh
      exact ⟨hh.1.trans ha.1, hh.2⟩
  · intro _ _ hh
    exact hh

theorem get : Quiet stall (get : SiteM Site) fun _ => True :=
  fun _ => ensures_get.mpr ⟨rfl, trivial⟩

theorem report {e : Event} (he : e.isPlan = false) :
    Quiet stall (Site.report e) fun _ => True := by
  intro site
  refine ensures_modify.mpr ⟨(Site.plans_report site e).trans ?_, trivial⟩
  rw [he]
  exact List.append_nil _

theorem count (bytes : Nat) : Quiet stall (Site.count bytes) fun _ => True := by
  unfold Site.count
  refine get.bind fun site _ => ?_
  split
  · exact halt nofun
  · exact pure trivial

theorem allocate (bytes : Nat) : Quiet stall (Site.allocate bytes) fun _ => True := by
  have hasked : Quiet stall (modifyGet fun site : Site =>
      (bytes = 0 || site.memory.gives site.memory.asked bytes, site.askedOnce)) fun _ => True :=
    fun _ => ensures_modifyGet.mpr ⟨rfl, trivial⟩
  unfold Site.allocate
  refine hasked.bind fun given _ => ?_
  split
  · exact halt nofun
  · exact pure trivial

theorem provide (bytes : Nat) : Quiet stall (Site.provide bytes) fun _ => True :=
  (count _).bind fun _ _ => allocate bytes

theorem demand (x : Option α) : Quiet stall (Site.demand x) fun a => x = some a := by
  cases x with
  | some a => exact pure rfl
  | none => exact halt nofun

theorem assert (holds : Bool) (a : Assertion) :
    Quiet stall (Site.assert holds a) fun _ => holds = true := by
  unfold Site.assert
  split
  · next h => exact pure h
  · exact halt nofun

theorem newFile : Quiet stall Site.newFile fun _ => True :=
  fun _ => ensures_modifyGet.mpr ⟨rfl, trivial⟩

theorem charge (bytes : Nat) : Quiet stall (Site.charge bytes) fun _ => True := by
  have hmodify : Quiet stall (modifyGet fun site : Site => ((site.ledger.charge bytes).1,
      { site with ledger := (site.ledger.charge bytes).2 })) fun _ => True :=
    fun _ => ensures_modifyGet.mpr ⟨rfl, trivial⟩
  unfold Site.charge
  refine get.bind fun site _ => ?_
  simp only
  split
  · exact (count _).bind fun _ _ => hmodify
  · exact hmodify

theorem take (bytes : Nat) : Quiet stall (Lease.take bytes) fun _ => True := by
  unfold Lease.take
  refine get.bind fun site _ => ?_
  simp only
  split
  · exact pure trivial
  · refine (charge bytes).bind fun outcome _ => ?_
    cases outcome with
    | ok _ => exact pure trivial
    | error e =>
      simp only
      split
      · exact (report rfl).bind fun _ _ => halt nofun
      · exact (report rfl).bind fun _ _ => pure trivial

theorem release (lease : Lease) : Quiet stall lease.release fun _ => True := by
  intro site
  apply (lease.plans_release site).mono
  · intro _ _ hplans
    exact ⟨hplans, trivial⟩
  · intro _ _ hh
    exact hh.elim

end Quiet

namespace Reports

variable {Q Q' : α → List Event → Prop} {R : β → List Event → Prop} {H H' : List Event → Prop}
  {work : SiteM α}

theorem mono (h : Reports stall work Q H) (hQ : ∀ a news, Q a news → Q' a news)
    (hH : ∀ news, H news → H' news) : Reports stall work Q' H' := by
  intro site
  apply (h site).mono
  · intro a _ ha
    obtain ⟨news, hnews, hQnews⟩ := ha
    exact ⟨news, hnews, hQ a news hQnews⟩
  · intro halt _ hh
    obtain ⟨⟨news, hnews, hHnews⟩, hstall⟩ := hh
    exact ⟨⟨news, hnews, hH news hHnews⟩, hstall⟩

theorem of_quiet {P : α → Prop} (h : Quiet stall work P) (hQ : ∀ a, P a → Q a []) (hH : H []) :
    Reports stall work Q H := by
  intro site
  apply (h site).mono
  · intro a after ha
    exact ⟨[], by rw [ha.1, List.append_nil], hQ a ha.2⟩
  · intro halt after hh
    exact ⟨⟨[], by rw [hh.1, List.append_nil], hH⟩, hh.2⟩

theorem pure {a : α} (h : Q a []) : Reports stall (pure a) Q H :=
  fun site => ensures_pure.mpr ⟨[], (List.append_nil site.plans).symm, h⟩

/-- After quiet work. -/
theorem quiet_bind {P : α → Prop} {next : α → SiteM β} (h : Quiet stall work P) (hH : H [])
    (hnext : ∀ a, P a → Reports stall (next a) R H) : Reports stall (work >>= next) R H := by
  intro site
  rw [ensures_bind]
  apply (h site).mono
  · intro a after ha
    have hrest := hnext a ha.2 after
    rwa [ha.1] at hrest
  · intro halt after hh
    exact ⟨⟨[], by rw [hh.1, List.append_nil], hH⟩, hh.2⟩

/-- After an event that is a plan. -/
theorem report_bind {e : Event} (he : e.isPlan = true) {next : SiteM β}
    (hnext : Reports stall next (fun b news => R b (e :: news)) fun news => H (e :: news)) :
    Reports stall (Site.report e >>= fun _ => next) R H := by
  intro site
  rw [ensures_bind, Site.report, ensures_modify]
  have hplans := Site.plans_report site e
  rw [he, if_pos rfl] at hplans
  apply (hnext _).mono
  · intro b after hb
    obtain ⟨news, hnews, hR⟩ := hb
    exact ⟨e :: news, by rw [hnews, hplans, List.append_assoc, List.singleton_append], hR⟩
  · intro halt after hh
    obtain ⟨⟨news, hnews, hHnews⟩, hstall⟩ := hh
    exact ⟨⟨e :: news, by rw [hnews, hplans, List.append_assoc, List.singleton_append], hHnews⟩,
      hstall⟩

/-- What is done afterwards without a plan. -/
theorem bind_quiet {next : α → SiteM β} (h : Reports stall work Q H)
    (hnext : ∀ a news, Q a news → Quiet stall (next a) fun b => R b news)
    (hH : ∀ a news, Q a news → H news) : Reports stall (work >>= next) R H := by
  intro site
  rw [ensures_bind]
  apply (h site).mono
  · intro a after ha
    obtain ⟨news, hnews, hQ⟩ := ha
    apply (hnext a news hQ after).mono
    · intro b last hb
      exact ⟨news, hb.1.trans hnews, hb.2⟩
    · intro halt last hh
      exact ⟨⟨news, hh.1.trans hnews, hH a news hQ⟩, hh.2⟩
  · intro _ _ hh
    exact hh

end Reports

end SiteM

namespace Work

variable {ε σ α β : Type} {stall : Prop}

def Quiet (stall : Prop) (work : ExceptT ε (StateT σ SiteM) α) (s : σ) (Q : α → σ → Prop) : Prop :=
  SiteM.Quiet stall (work s) fun out => ∀ a, out.1 = .ok a → Q a out.2

namespace Quiet

variable {Q Q' : α → σ → Prop} {R : β → σ → Prop} {work : ExceptT ε (StateT σ SiteM) α} {s : σ}

theorem mono (h : Quiet stall work s Q) (hQ : ∀ a s', Q a s' → Q' a s') :
    Quiet stall work s Q' :=
  SiteM.Quiet.mono h fun out hout a ha => hQ a out.2 (hout a ha)

theorem pure {a : α} (h : Q a s) :
    Quiet stall (pure a : ExceptT ε (StateT σ SiteM) α) s Q := by
  apply SiteM.Quiet.pure
  intro a' ha'
  cases ha'
  exact h

theorem throw {e : ε} : Quiet stall (throw e : ExceptT ε (StateT σ SiteM) α) s Q :=
  SiteM.Quiet.pure nofun

theorem throw_bind {e : ε} {next : β → ExceptT ε (StateT σ SiteM) α} :
    Quiet stall (MonadExcept.throw e >>= next) s Q :=
  SiteM.Quiet.pure nofun

theorem halt {h : Halt} (hstall : h = .stalled → stall) :
    Quiet stall (liftM (Site.halt h : SiteM α) : ExceptT ε (StateT σ SiteM) α) s Q := by
  unfold Quiet
  rw [run_liftM]
  exact SiteM.Quiet.bind (SiteM.Quiet.halt (Q := fun _ => False) hstall) fun _ hfalse => hfalse.elim

/-- Work at the site that looks at the outcome. -/
theorem bind_run {next : Except ε α × σ → SiteM β} {P : β → Prop} (h : Quiet stall work s Q)
    (hnext : ∀ outcome s', (∀ a, outcome = .ok a → Q a s') →
      SiteM.Quiet stall (next (outcome, s')) P) :
    SiteM.Quiet stall ((work s : SiteM _) >>= next) P :=
  SiteM.Quiet.bind h fun out hout => hnext out.1 out.2 hout

theorem bind {next : α → ExceptT ε (StateT σ SiteM) β} (h : Quiet stall work s Q)
    (hnext : ∀ a s', Q a s' → Quiet stall (next a) s' R) : Quiet stall (work >>= next) s R := by
  unfold Quiet
  rw [run_bind]
  apply SiteM.Quiet.bind h
  intro out hout
  obtain ⟨outcome, s'⟩ := out
  cases outcome with
  | ok a => exact hnext a s' (hout a rfl)
  | error e => exact SiteM.Quiet.pure nofun

theorem get {next : σ → ExceptT ε (StateT σ SiteM) α} :
    Quiet stall (get >>= next) s Q ↔ Quiet stall (next s) s Q := Iff.rfl

theorem modify_last {Q : PUnit → σ → Prop} {f : σ → σ} (h : Q ⟨⟩ (f s)) :
    Quiet stall (modify f : ExceptT ε (StateT σ SiteM) PUnit) s Q :=
  SiteM.Quiet.pure fun _ _ => h

theorem set_last {Q : PUnit → σ → Prop} {s' : σ} (h : Q ⟨⟩ s') :
    Quiet stall (set s' : ExceptT ε (StateT σ SiteM) PUnit) s Q :=
  SiteM.Quiet.pure fun _ _ => h

theorem modify {f : σ → σ} {next : PUnit → ExceptT ε (StateT σ SiteM) α} :
    Quiet stall (modify f >>= next) s Q ↔ Quiet stall (next ⟨⟩) (f s) Q := Iff.rfl

theorem set {s' : σ} {next : PUnit → ExceptT ε (StateT σ SiteM) α} :
    Quiet stall (set s' >>= next) s Q ↔ Quiet stall (next ⟨⟩) s' Q := Iff.rfl

/-- Work at the site does not touch the state. -/
theorem lift {work : SiteM α} {P : α → Prop} (h : SiteM.Quiet stall work P)
    {next : α → ExceptT ε (StateT σ SiteM) β} (hnext : ∀ a, P a → Quiet stall (next a) s R) :
    Quiet stall (liftM work >>= next) s R := by
  unfold Quiet
  simp only [run_bind, run_liftM, bind_assoc, pure_bind]
  exact h.bind hnext

theorem lift_last {work : SiteM α} {P : α → Prop} (h : SiteM.Quiet stall work P)
    (hQ : ∀ a, P a → Q a s) :
    Quiet stall (liftM work : ExceptT ε (StateT σ SiteM) α) s Q := by
  unfold Quiet
  rw [run_liftM]
  apply SiteM.Quiet.bind h
  intro a ha
  exact pure (hQ a ha)

/-- Work on a part of the state, or on another state, with its outcome at hand. -/
theorem lift_run {ε' ρ : Type} {work : ExceptT ε' (StateT ρ SiteM) α} {r : ρ} {P : α → ρ → Prop}
    (h : Quiet stall work r P) {next : Except ε' α × ρ → ExceptT ε (StateT σ SiteM) β}
    (hok : ∀ a r', P a r' → Quiet stall (next (.ok a, r')) s R)
    (herror : ∀ e r', Quiet stall (next (.error e, r')) s R) :
    Quiet stall (liftM (work r : SiteM _) >>= next) s R := by
  apply lift h
  intro out hout
  obtain ⟨outcome, r'⟩ := out
  cases outcome with
  | ok a => exact hok a r' (hout a rfl)
  | error e => exact herror e r'

/-- A handler from wherever the work failed. -/
theorem tryCatch {handle : ε → ExceptT ε (StateT σ SiteM) α} (h : Quiet stall work s Q)
    (hhandle : ∀ e s', Quiet stall (handle e) s' Q) :
    Quiet stall (tryCatch work handle) s Q := by
  unfold Quiet
  rw [run_tryCatch]
  apply SiteM.Quiet.bind h
  intro out hout
  obtain ⟨outcome, s'⟩ := out
  cases outcome with
  | ok a => exact SiteM.Quiet.pure hout
  | error e => exact hhandle e s'

/-- A handler that fails in the end. -/
theorem rethrow {handle : ε → ExceptT ε (StateT σ SiteM) α} (h : Quiet stall work s Q)
    (hhandle : ∀ e s', Quiet stall (handle e) s' fun _ _ => False) :
    Quiet stall (MonadExcept.tryCatch work handle) s Q :=
  h.tryCatch fun e s' => (hhandle e s').mono fun _ _ hfalse => hfalse.elim

/-- A handler that cleans up and fails as the work did. -/
theorem after_throw {cleanup : SiteM Unit} {e : ε} (h : SiteM.Quiet stall cleanup fun _ => True) :
    Quiet stall (do liftM cleanup; MonadExcept.throw e : ExceptT ε (StateT σ SiteM) α) s Q :=
  lift h fun _ _ => throw

end Quiet

/-- Work on a state that adds to the plans: what is added has `H`, also where the work fails. If it
does not fail it comes to a result and a state with `Q`. -/
def Reports (stall : Prop) (work : ExceptT ε (StateT σ SiteM) α) (s : σ)
    (Q : α → σ → List Event → Prop) (H : List Event → Prop) : Prop :=
  SiteM.Reports stall (work s)
    (fun out news => H news ∧ ∀ a, out.1 = .ok a → Q a out.2 news) H

namespace Reports

variable {Q Q' : α → σ → List Event → Prop} {R : β → σ → List Event → Prop}
  {H H' : List Event → Prop} {P : α → σ → Prop} {work : ExceptT ε (StateT σ SiteM) α} {s : σ}

theorem mono (h : Reports stall work s Q H) (hQ : ∀ a s' news, Q a s' news → Q' a s' news)
    (hH : ∀ news, H news → H' news) : Reports stall work s Q' H' := by
  apply SiteM.Reports.mono h
  · intro out news hout
    exact ⟨hH news hout.1, fun a ha => hQ a out.2 news (hout.2 a ha)⟩
  · exact hH

theorem of_quiet (h : Quiet stall work s P) (hQ : ∀ a s', P a s' → Q a s' []) (hH : H []) :
    Reports stall work s Q H :=
  SiteM.Reports.of_quiet h (fun out hout => ⟨hH, fun a ha => hQ a out.2 (hout a ha)⟩) hH

theorem quiet_bind {next : α → ExceptT ε (StateT σ SiteM) β} (h : Quiet stall work s P)
    (hH : H []) (hnext : ∀ a s', P a s' → Reports stall (next a) s' R H) :
    Reports stall (work >>= next) s R H := by
  unfold Reports
  rw [run_bind]
  apply SiteM.Reports.quiet_bind h hH
  intro out hout
  obtain ⟨outcome, s'⟩ := out
  cases outcome with
  | ok a => exact hnext a s' (hout a rfl)
  | error e => exact SiteM.Reports.pure ⟨hH, nofun⟩

/-- A failure reports nothing. -/
theorem after_throw {cleanup : SiteM Unit} {e : ε} (h : SiteM.Quiet stall cleanup fun _ => True)
    (hH : H []) :
    Reports stall (do liftM cleanup; MonadExcept.throw e : ExceptT ε (StateT σ SiteM) α) s Q H :=
  of_quiet (P := fun _ _ => False) (Quiet.after_throw h) (fun _ _ hfalse => hfalse.elim) hH

/-- Quiet work at the site comes first. -/
theorem lift_bind {work : SiteM α} {P : α → Prop} (h : SiteM.Quiet stall work P) (hH : H [])
    {next : α → ExceptT ε (StateT σ SiteM) β} (hnext : ∀ a, P a → Reports stall (next a) s R H) :
    Reports stall (liftM work >>= next) s R H := by
  unfold Reports
  simp only [run_bind, run_liftM, bind_assoc, pure_bind]
  exact SiteM.Reports.quiet_bind h hH hnext

/-- Work at the site comes first, and the rest is quiet. -/
theorem lift_quiet {work : SiteM α} {P : α → List Event → Prop} (h : SiteM.Reports stall work P H)
    (hH : ∀ a news, P a news → H news) {next : α → ExceptT ε (StateT σ SiteM) β}
    (hnext : ∀ a news, P a news → Quiet stall (next a) s fun b s' => R b s' news) :
    Reports stall (liftM work >>= next) s R H := by
  unfold Reports
  simp only [run_bind, run_liftM, bind_assoc, pure_bind]
  apply SiteM.Reports.bind_quiet h
  · intro a news ha
    apply SiteM.Quiet.mono (hnext a news ha)
    intro out hout
    exact ⟨hH a news ha, hout⟩
  · exact hH

/-- An event that is a plan comes first. -/
theorem report_bind {e : Event} (he : e.isPlan = true)
    {next : PUnit → ExceptT ε (StateT σ SiteM) β}
    (hnext : Reports stall (next ⟨⟩) s (fun b s' news => R b s' (e :: news))
      fun news => H (e :: news)) :
    Reports stall (liftM (Site.report e) >>= next) s R H := by
  unfold Reports
  simp only [run_bind, run_liftM, bind_assoc, pure_bind]
  exact SiteM.Reports.report_bind he hnext

theorem get {next : σ → ExceptT ε (StateT σ SiteM) α} :
    Reports stall (get >>= next) s Q H ↔ Reports stall (next s) s Q H := Iff.rfl

end Reports

end Work

end BoundedMerge
