import BoundedMerge.Proofs.Disk.Refusals
import BoundedMerge.Proofs.Site.Yields

/-!
Work on storage that may fail, beside the same work on storage that does not. A twin of a site has
the same ledger and makes the same files, on disks that refuse nothing. Work is echoed at the twin
if each of its results is lost, as that of work that failed is, or the twin comes to a result that
is related to it.
-/

namespace BoundedMerge

/-- The twin differs in no more than its journal and the refusals of the files made there, and it
makes every file that the site makes. -/
structure Site.Twin (site twin : Site) : Prop where
  ledger : twin.ledger = site.ledger
  sizeBits : twin.sizeBits = site.sizeBits
  made : twin.scratch.made = site.scratch.made
  supply : ∀ n d, site.scratch.supply n = .ok d → twin.scratch.supply n = .ok d.steady
  memory : twin.memory = site.memory

def Scratch.steady (scratch : Scratch) : Scratch where
  supply n :=
    match scratch.supply n with
    | .ok d => .ok d.steady
    | .error _ => .ok {}
  made := scratch.made

def Site.steady (site : Site) : Site := { site with scratch := site.scratch.steady }

theorem Site.twin_steady (site : Site) : site.Twin site.steady := by
  refine ⟨rfl, rfl, rfl, ?_, rfl⟩
  intro n d hd
  simp only [Site.steady, Scratch.steady, hd]

def Scratch.Blank (scratch : Scratch) : Prop := ∀ n d, scratch.supply n = .ok d → d.steady.Fresh

theorem Scratch.Blank.sound_steady {scratch : Scratch} (h : scratch.Blank) :
    scratch.steady.Sound := by
  intro n
  simp only [Scratch.steady]
  cases hmade : scratch.supply n with
  | ok d => exact ⟨d.steady, rfl, h n d hmade⟩
  | error e => exact ⟨{}, rfl, Disk.fresh_default⟩

namespace SiteM

variable {α β γ δ : Type}

/-- Work that does not halt leads to one result and one site. -/
theorem Ensures.exists_result {work : SiteM α} {site : Site} {Q : α → Site → Prop}
    (h : work.Ensures site Q fun _ _ => False) :
    ∃ a after, Q a after ∧ ∀ P H, P a after → work.Ensures site P H := by
  unfold Ensures at *
  split at h
  · next a after _ => exact ⟨a, after, h, fun _ _ ha => ha⟩
  · exact h.elim

def Loses (work : SiteM α) (lost : α → Prop) : Prop :=
  ∀ site, work.Ensures site (fun a _ => lost a) fun _ _ => True

/-- Each result of the work is lost, or the twin comes to a related one. -/
def Echoes (work : SiteM α) (twin : SiteM β) (lost : α → Prop) (R : α → β → Prop) : Prop :=
  ∀ site site', site.Twin site' →
    work.Ensures site (fun a after => lost a ∨
      twin.Ensures site' (fun b after' => R a b ∧ after.Twin after') fun _ _ => False)
      fun _ _ => True

def Blind (work : SiteM α) : Prop := Echoes work work (fun _ => False) Eq

section Loses

variable {lost : α → Prop} {lost' : β → Prop}

theorem Loses.mono {lost lost' : α → Prop} {work : SiteM α} (h : Loses work lost)
    (hlost : ∀ a, lost a → lost' a) : Loses work lost' :=
  fun site => (h site).mono (fun a _ ha => hlost a ha) fun _ _ hh => hh

theorem Loses.pure {a : α} (h : lost a) : Loses (pure a) lost := fun _ => ensures_pure.mpr h

theorem Loses.bind {work : SiteM α} {next : α → SiteM β} (h : Loses work lost)
    (hnext : ∀ a, lost a → Loses (next a) lost') : Loses (work >>= next) lost' := by
  intro site
  rw [ensures_bind]
  exact (h site).mono (fun a after ha => hnext a ha after) (fun _ _ hh => hh)

/-- Whatever comes first, what comes last is lost. -/
theorem Loses.after {work : SiteM α} {next : α → SiteM β} (hnext : ∀ a, Loses (next a) lost') :
    Loses (work >>= next) lost' := by
  have htrivial : Loses work fun _ => True := fun site => ensures_trivial work site
  exact htrivial.bind fun a _ => hnext a

end Loses

namespace Echoes

variable {lost : α → Prop} {lost' : γ → Prop} {R : α → β → Prop} {R' : γ → δ → Prop}

theorem pure {a : α} {b : β} (h : R a b) : Echoes (pure a) (pure b) lost R :=
  fun _ _ htwin => ensures_pure.mpr (.inr (ensures_pure.mpr ⟨h, htwin⟩))

theorem halt (h : Halt) (twin : SiteM β) : Echoes (Site.halt h : SiteM α) twin lost R :=
  fun _ _ _ => ensures_halt.mpr trivial

theorem of_loses {work : SiteM α} {twin : SiteM β} (h : Loses work lost) :
    Echoes work twin lost R := by
  intro site site' _
  exact (h site).mono (fun _ _ ha => .inl ha) (fun _ _ hh => hh)

theorem bind {work : SiteM α} {twin : SiteM β} {next : α → SiteM γ} {next' : β → SiteM δ}
    (h : Echoes work twin lost R) (hlost : ∀ a, lost a → Loses (next a) lost')
    (hnext : ∀ a b, R a b → Echoes (next a) (next' b) lost' R') :
    Echoes (work >>= next) (twin >>= next') lost' R' := by
  intro site site' htwin
  rw [ensures_bind]
  apply (h site site' htwin).mono
  · intro a after ha
    rcases ha with hlose | hecho
    · exact (hlost a hlose after).mono (fun _ _ hc => .inl hc) (fun _ _ hh => hh)
    · obtain ⟨b, after', ⟨hrel, hafter⟩, hresult⟩ := hecho.exists_result
      apply (hnext a b hrel after after' hafter).mono
      · intro c later hc
        apply hc.imp_right
        intro hnext'
        rw [ensures_bind]
        exact hresult _ _ hnext'
      · intro _ _ hh
        exact hh
  · intro _ _ hh
    exact hh

/-- Work whose results are never lost. -/
theorem bind' {work : SiteM α} {twin : SiteM β} {next : α → SiteM γ} {next' : β → SiteM δ}
    (h : Echoes work twin (fun _ => False) R)
    (hnext : ∀ a b, R a b → Echoes (next a) (next' b) lost' R') :
    Echoes (work >>= next) (twin >>= next') lost' R' :=
  h.bind (fun _ ha => ha.elim) hnext

/-- The site may be looked at. -/
theorem get {next : Site → SiteM γ} {next' : Site → SiteM δ}
    (h : ∀ site site', site.Twin site' → Echoes (next site) (next' site') lost' R') :
    Echoes (get >>= next) (get >>= next') lost' R' := by
  intro site site' htwin
  simp only [ensures_bind, ensures_get]
  exact h site site' htwin site site' htwin

theorem modifyGet {f : Site → α × Site} {f' : Site → β × Site}
    (h : ∀ site site', site.Twin site' → R (f site).1 (f' site').1 ∧ (f site).2.Twin (f' site').2) :
    Echoes (modifyGet f) (modifyGet f') lost R := by
  intro site site' htwin
  simp only [ensures_modifyGet]
  exact .inr (h site site' htwin)

/-- What is reported at the site alone makes no difference. -/
theorem report (e : Event) {next : Unit → SiteM γ} {twin : SiteM δ}
    (h : Echoes (next ()) twin lost' R') : Echoes (Site.report e >>= next) twin lost' R' := by
  intro site site' htwin
  simp only [ensures_bind, Site.report, ensures_modify]
  apply h
  exact ⟨htwin.ledger, htwin.sizeBits, htwin.made, htwin.supply, htwin.memory⟩

theorem mono {work : SiteM α} {twin : SiteM β} {lost₁ : α → Prop} {R₁ : α → β → Prop}
    (h : Echoes work twin lost R) (hlost : ∀ a, lost a → lost₁ a)
    (hR : ∀ a b, R a b → R₁ a b) : Echoes work twin lost₁ R₁ := by
  intro site site' htwin
  apply (h site site' htwin).mono
  · intro a after ha
    rcases ha with hlose | hecho
    · exact .inl (hlost a hlose)
    · exact .inr (hecho.mono (fun b after' hb => ⟨hR a b hb.1, hb.2⟩) (fun _ _ hh => hh))
  · intro _ _ hh
    exact hh

end Echoes

namespace Blind

theorem pure {a : α} : Blind (pure a : SiteM α) := Echoes.pure rfl

theorem halt (h : Halt) : Blind (Site.halt h : SiteM α) := Echoes.halt h _

theorem bind {work : SiteM α} {next : α → SiteM β} (h : Blind work)
    (hnext : ∀ a, Blind (next a)) : Blind (work >>= next) := by
  apply Echoes.bind' h
  intro a b hab
  subst hab
  exact hnext a

theorem ite {c : Prop} [Decidable c] {work work' : SiteM α} (h : Blind work) (h' : Blind work') :
    Blind (if c then work else work') := by
  split
  · exact h
  · exact h'

theorem report (e : Event) : Blind (Site.report e) := by
  apply Echoes.modifyGet
  intro site site' htwin
  exact ⟨rfl, htwin.ledger, htwin.sizeBits, htwin.made, htwin.supply, htwin.memory⟩

theorem count (bytes : Nat) : Blind (Site.count bytes) := by
  apply Echoes.get
  intro site site' htwin
  rw [htwin.sizeBits]
  exact ite (halt _) pure

theorem allocate (bytes : Nat) : Blind (Site.allocate bytes) := by
  have hasked : Blind (modifyGet fun site : Site =>
      (bytes = 0 || site.memory.gives site.memory.asked bytes, site.askedOnce) : SiteM Bool) := by
    apply Echoes.modifyGet
    intro site site' htwin
    have hmemory := htwin.memory
    refine ⟨?_, htwin.ledger, htwin.sizeBits, htwin.made, htwin.supply, ?_⟩
    · rw [hmemory]
    · simp only [Site.askedOnce, hmemory]
  exact bind hasked fun given => ite (halt _) pure

theorem provide (bytes : Nat) : Blind (Site.provide bytes) :=
  bind (count _) fun _ => allocate bytes

theorem assert (holds : Bool) (a : Assertion) : Blind (Site.assert holds a) := ite pure (halt _)

theorem charge (bytes : Nat) : Blind (Site.charge bytes) := by
  have hmodify : Blind (modifyGet fun site : Site => ((site.ledger.charge bytes).1,
      { site with ledger := (site.ledger.charge bytes).2 }) : SiteM (Except LedgerError Unit)) := by
    apply Echoes.modifyGet
    intro site site' htwin
    rw [htwin.ledger]
    exact ⟨rfl, rfl, htwin.sizeBits, htwin.made, htwin.supply, htwin.memory⟩
  apply Echoes.get
  intro site site' htwin
  rw [htwin.ledger]
  exact ite (bind (count _) fun _ => hmodify) hmodify

theorem refund (bytes : Nat) : Blind (Site.refund bytes) := by
  apply Echoes.modifyGet
  intro site site' htwin
  rw [htwin.ledger]
  exact ⟨rfl, rfl, htwin.sizeBits, htwin.made, htwin.supply, htwin.memory⟩

theorem take (bytes : Nat) : Blind (Lease.take bytes) := by
  apply Echoes.get
  intro site site' htwin
  rw [htwin.ledger]
  apply ite pure
  apply bind (charge bytes)
  intro outcome
  cases outcome with
  | ok _ => exact pure
  | error e => exact ite (bind (report _) fun _ => halt _) (bind (report _) fun _ => pure)

theorem release (lease : Lease) : Blind lease.release := by
  apply ite pure
  apply bind (refund lease.bytes)
  intro outcome
  cases outcome with
  | ok _ => exact pure
  | error e => exact report _

end Blind

/-- A file that is made at the site is made at the twin. -/
theorem echoes_newFile : Echoes Site.newFile Site.newFile (fun made => ∃ e, made = .error e)
    (fun made made' => ∃ d, made = .ok d ∧ made' = .ok d.steady) := by
  intro site site' htwin
  simp only [Site.newFile, ensures_modifyGet, htwin.made]
  cases hmade : site.scratch.supply site.scratch.made with
  | error e => exact .inl ⟨e, rfl⟩
  | ok d =>
    exact .inr ⟨⟨d, rfl, htwin.supply _ d hmade⟩, htwin.ledger, htwin.sizeBits, rfl,
      htwin.supply, htwin.memory⟩

end SiteM

namespace Work

variable {α β γ δ ε σ σ' : Type}

def Failed (out : Except ε α × σ) : Prop := ∃ e, out.1 = .error e

def Fails (work : ExceptT ε (StateT σ SiteM) α) : Prop := ∀ s, SiteM.Loses (work s) Failed

theorem Fails.throw (e : ε) : Fails (throw e : ExceptT ε (StateT σ SiteM) α) :=
  fun _ => SiteM.Loses.pure ⟨e, rfl⟩

theorem Fails.after {work : ExceptT ε (StateT σ SiteM) α}
    {next : α → ExceptT ε (StateT σ SiteM) β} (hnext : ∀ a, Fails (next a)) :
    Fails (work >>= next) := by
  intro s
  rw [run_bind]
  apply SiteM.Loses.after
  intro out
  obtain ⟨outcome, s'⟩ := out
  cases outcome with
  | error e => exact SiteM.Loses.pure ⟨e, rfl⟩
  | ok a => exact hnext a s'

def Blind (work : ExceptT ε (StateT σ SiteM) α) : Prop := ∀ s, SiteM.Blind (work s)

/-- Work on a state, and work on what the state is with steady disks. If the first succeeds the
second has the same result, as far as disks are not part of it. -/
def Echoes (f : σ → σ') (g : α → β) (work : ExceptT ε (StateT σ SiteM) α)
    (twin : ExceptT ε (StateT σ' SiteM) β) : Prop :=
  ∀ s, SiteM.Echoes (work s) (twin (f s)) Failed
    fun out out' => ∃ a, out.1 = .ok a ∧ out' = (.ok (g a), f out.2)

namespace Echoes

variable {f : σ → σ'} {g : α → β} {h : γ → δ}

theorem pure (a : α) : Echoes f g (pure a : ExceptT ε (StateT σ SiteM) α) (pure (g a)) :=
  fun _ => SiteM.Echoes.pure ⟨a, rfl, rfl⟩

theorem throw (e : ε) (twin : ExceptT ε (StateT σ' SiteM) β) :
    Echoes f g (throw e : ExceptT ε (StateT σ SiteM) α) twin :=
  fun _ => SiteM.Echoes.of_loses (SiteM.Loses.pure ⟨e, rfl⟩)

/-- Work that is run and then looked at: if it failed what follows is lost, and if it succeeded what
follows is echoed. -/
theorem run {work : ExceptT ε (StateT σ SiteM) α} {twin : ExceptT ε (StateT σ' SiteM) β}
    {next : Except ε α × σ → SiteM γ} {next' : Except ε β × σ' → SiteM δ} {lost : γ → Prop}
    {R : γ → δ → Prop} (hwork : Echoes f g work twin) (s : σ)
    (hlost : ∀ e s', SiteM.Loses (next (.error e, s')) lost)
    (hnext : ∀ a s', SiteM.Echoes (next (.ok a, s')) (next' (.ok (g a), f s')) lost R) :
    SiteM.Echoes (work s >>= next) (twin (f s) >>= next') lost R := by
  apply (hwork s).bind
  · intro out hfailed
    obtain ⟨_, s'⟩ := out
    obtain ⟨e, rfl⟩ := hfailed
    exact hlost e s'
  · intro out out' hrel
    obtain ⟨_, s'⟩ := out
    obtain ⟨a, rfl, rfl⟩ := hrel
    exact hnext a s'

theorem bind {work : ExceptT ε (StateT σ SiteM) α} {twin : ExceptT ε (StateT σ' SiteM) β}
    {next : α → ExceptT ε (StateT σ SiteM) γ} {next' : β → ExceptT ε (StateT σ' SiteM) δ}
    (hwork : Echoes f g work twin) (hnext : ∀ a, Echoes f h (next a) (next' (g a))) :
    Echoes f h (work >>= next) (twin >>= next') := by
  intro s
  rw [run_bind, run_bind]
  apply hwork.run s
  · intro e s'
    exact SiteM.Loses.pure ⟨e, rfl⟩
  · intro a s'
    exact hnext a s'

/-- The state may be looked at. -/
theorem get {next : σ → ExceptT ε (StateT σ SiteM) γ} {next' : σ' → ExceptT ε (StateT σ' SiteM) δ}
    (hnext : ∀ s, Echoes f h (next s) (next' (f s))) :
    Echoes f h (get >>= next) (get >>= next') :=
  fun s => hnext s s

theorem set {s : σ} {s' : σ'} (hs : f s = s') :
    Echoes f id (set s : ExceptT ε (StateT σ SiteM) PUnit) (set s') :=
  fun _ => SiteM.Echoes.pure ⟨⟨⟩, rfl, by rw [hs]⟩

theorem modify {m : σ → σ} {m' : σ' → σ'} (hm : ∀ s, f (m s) = m' (f s)) :
    Echoes f id (modify m : ExceptT ε (StateT σ SiteM) PUnit) (modify m') :=
  fun s => SiteM.Echoes.pure ⟨⟨⟩, rfl, by rw [hm]⟩

theorem lift {work : SiteM α} {twin : SiteM β}
    (hwork : SiteM.Echoes work twin (fun _ => False) fun a b => b = g a) :
    Echoes f g (liftM work : ExceptT ε (StateT σ SiteM) α) (liftM twin) := by
  intro s
  rw [run_liftM, run_liftM]
  apply hwork.bind'
  intro a b hab
  subst hab
  exact SiteM.Echoes.pure ⟨a, rfl, rfl⟩

theorem blind {work : SiteM α} (hwork : SiteM.Blind work) :
    Echoes f id (liftM work : ExceptT ε (StateT σ SiteM) α) (liftM work) :=
  lift (hwork.mono (fun _ ha => ha) fun _ _ hab => hab.symm)

/-- Work that knows of no disk goes the same way in any case. -/
theorem of_blind {work : ExceptT ε (StateT σ SiteM) α} (hwork : Blind work) :
    Echoes id id work work := by
  intro s site site' htwin
  apply (hwork s site site' htwin).mono
  · intro out after hecho
    obtain ⟨outcome, s'⟩ := out
    cases outcome with
    | error e => exact .inl ⟨e, rfl⟩
    | ok a =>
      apply Or.inr
      apply (hecho.resolve_left id).mono
      · intro out' after' hout
        exact ⟨⟨a, rfl, hout.1.symm⟩, hout.2⟩
      · intro _ _ hh
        exact hh
  · intro _ _ hh
    exact hh

/-- What the work on steady disks ensures holds of the work if that succeeds. -/
theorem ensures {work : ExceptT ε (StateT σ SiteM) α} {twin : ExceptT ε (StateT σ' SiteM) β}
    (hwork : Echoes f g work twin) (s : σ) (site : Site) {Q : Except ε β × σ' → Site → Prop}
    {H : Halt → Site → Prop} (htwin : (twin (f s)).Ensures site.steady Q H) :
    (work s).Ensures site
      (fun out _ => ∀ a, out.1 = .ok a → ∃ after, Q (.ok (g a), f out.2) after)
      fun _ _ => True := by
  apply (hwork s site site.steady site.twin_steady).mono
  · intro out _ hout a ha
    rcases hout with ⟨e, he⟩ | hecho
    · rw [he] at ha
      contradiction
    · have hboth := (hecho.and htwin).mono (fun _ _ h => h) (fun _ _ h => h.1)
      obtain ⟨out', after', ⟨⟨⟨a', ha', hout'⟩, -⟩, hQ⟩, -⟩ := hboth.exists_result
      rw [ha'] at ha
      cases ha
      rw [hout'] at hQ
      exact ⟨after', hQ⟩
  · intro _ _ hh
    exact hh

/-- A handler that fails whatever it does makes no difference to work that succeeds. -/
theorem rethrow {work : ExceptT ε (StateT σ SiteM) α} {twin : ExceptT ε (StateT σ' SiteM) β}
    {handle : ε → ExceptT ε (StateT σ SiteM) α} {handle' : ε → ExceptT ε (StateT σ' SiteM) β}
    (hwork : Echoes f g work twin) (hhandle : ∀ e, Fails (handle e)) :
    Echoes f g (tryCatch work handle) (tryCatch twin handle') := by
  intro s
  rw [run_tryCatch, run_tryCatch]
  apply hwork.run s
  · exact hhandle
  · intro a s'
    exact SiteM.Echoes.pure ⟨a, rfl, rfl⟩

end Echoes

end Work

end BoundedMerge
