import BoundedMerge.Proofs.Site.Echoes

/-!
Work that only counts, leases and reports. Such work does not look at the ledger: it takes leases
and gives them back, and the limit shows in nothing but a halt. So where it comes to a result, it
comes to the same one under a higher limit.
-/

namespace BoundedMerge

/-- The work is made of sizes that are counted, of leases and of reports. -/
inductive SiteM.Plain : {α : Type} → SiteM α → Prop
  | pure {α : Type} (a : α) : Plain (pure a)
  | halt {α : Type} (h : Halt) : Plain (Site.halt h : SiteM α)
  | bind {α β : Type} {work : SiteM α} {next : α → SiteM β} :
      Plain work → (∀ a, Plain (next a)) → Plain (work >>= next)
  | count (bytes : Nat) : Plain (Site.count bytes)
  | allocate (bytes : Nat) : Plain (Site.allocate bytes)
  | take (bytes : Nat) : Plain (Lease.take bytes)
  | release (lease : Lease) : Plain lease.release
  | report (e : Event) : Plain (Site.report e)

namespace SiteM

variable {α β : Type}

namespace Plain

theorem ite {c : Prop} [Decidable c] {work work' : SiteM α} (h : Plain work) (h' : Plain work') :
    Plain (if c then work else work') := by
  split
  · exact h
  · exact h'

theorem provide (bytes : Nat) : Plain (Site.provide bytes) :=
  bind (count _) fun _ => allocate bytes

theorem assert (holds : Bool) (a : Assertion) : Plain (Site.assert holds a) :=
  ite (pure _) (halt _)

theorem demand (a? : Option α) : Plain (Site.demand a?) := by
  cases a? with
  | none => exact halt _
  | some a => exact pure a

/-- It goes the same way at a twin. -/
theorem blind {work : SiteM α} (h : Plain work) : Blind work := by
  induction h with
  | pure a => exact Blind.pure
  | halt h => exact Blind.halt h
  | bind _ _ ih ihnext => exact ih.bind ihnext
  | count bytes => exact Blind.count bytes
  | allocate bytes => exact Blind.allocate bytes
  | take bytes => exact Blind.take bytes
  | release lease => exact Blind.release lease
  | report e => exact Blind.report e

end Plain

end SiteM

/-- The second site is the first one with a limit that is no lower, and perhaps other reports. -/
structure Site.Eased (site eased : Site) : Prop where
  limit_le : site.ledger.limit ≤ eased.ledger.limit
  policy_eq : eased.ledger.policy = site.ledger.policy
  used_eq : eased.ledger.used = site.ledger.used
  scratch_eq : eased.scratch = site.scratch
  sizeBits_eq : eased.sizeBits = site.sizeBits
  memory_eq : eased.memory = site.memory

namespace SiteM

variable {α β : Type}

/-- Where the work comes to a result, it comes to the same one under a higher limit. -/
def Eases (work : SiteM α) : Prop :=
  ∀ site eased, site.Eased eased → work.Ensures site
    (fun a after =>
      work.Ensures eased (fun b after' => b = a ∧ after.Eased after') fun _ _ => False)
    fun _ _ => True

namespace Eases

theorem bind {work : SiteM α} {next : α → SiteM β} (h : Eases work) (hnext : ∀ a, Eases (next a)) :
    Eases (work >>= next) := by
  intro site eased heased
  rw [ensures_bind]
  apply (h site eased heased).mono
  · intro a after ha
    obtain ⟨b, after', ⟨rfl, hafter⟩, hresult⟩ := ha.exists_result
    apply (hnext b after after' hafter).mono
    · intro c last hc
      rw [ensures_bind]
      exact hresult _ _ hc
    · exact fun _ _ hh => hh
  · exact fun _ _ hh => hh

theorem count (bytes : Nat) : Eases (Site.count bytes) := by
  intro site eased heased
  unfold Site.count
  simp only [ensures_bind, ensures_get, heased.sizeBits_eq]
  split
  · exact ensures_halt.mpr trivial
  · exact ensures_pure.mpr (ensures_pure.mpr ⟨trivial, heased⟩)

theorem allocate (bytes : Nat) : Eases (Site.allocate bytes) := by
  intro site eased heased
  unfold Site.allocate
  simp only [ensures_bind, ensures_modifyGet, heased.memory_eq]
  split
  · exact ensures_halt.mpr trivial
  · exact ensures_pure.mpr (ensures_pure.mpr ⟨trivial, heased.limit_le, heased.policy_eq,
      heased.used_eq, heased.scratch_eq, heased.sizeBits_eq, rfl⟩)

theorem report (e : Event) : Eases (Site.report e) := by
  intro site eased heased
  unfold Site.report
  simp only [ensures_modify]
  exact ⟨trivial, heased.limit_le, heased.policy_eq, heased.used_eq, heased.scratch_eq,
    heased.sizeBits_eq, heased.memory_eq⟩

/-- A charge that breaches no limit breaches no higher one, and where a breach is only reported it
makes no difference. -/
theorem take (bytes : Nat) : Eases (Lease.take bytes) := by
  intro site eased heased
  obtain ⟨⟨limit, _, _⟩, _, _, journal, _⟩ := site
  obtain ⟨⟨limit', policy, used⟩, scratch, memory, journal', sizeBits⟩ := eased
  obtain ⟨hlimit, rfl, rfl, rfl, rfl, rfl⟩ := heased
  simp only at hlimit
  unfold Lease.take Site.charge Site.count
  simp only [ensures_bind, ensures_get, ne_eq]
  by_cases hignore : policy = .ignore
  · simp only [hignore, if_true, ensures_pure]
    exact ⟨trivial, hlimit, rfl, rfl, rfl, rfl, rfl⟩
  · simp only [hignore, if_false, not_false_eq_true, if_true, ensures_bind, ensures_get]
    split
    · exact ensures_halt.mpr trivial
    · simp only [ensures_pure, ensures_modifyGet, Ledger.charge, hignore, if_false]
      by_cases hbreach : limit < used + bytes
      · simp only [hbreach, if_true]
        by_cases habort : policy = .abort
        · simp only [habort, if_true, Site.report, ensures_bind, ensures_modify, ensures_halt]
        · simp only [habort, if_false, Site.report, ensures_bind, ensures_modify, ensures_pure]
          split
          · simp only [ensures_pure]
            exact ⟨trivial, hlimit, rfl, rfl, rfl, rfl, rfl⟩
          · simp only [ensures_bind, ensures_modify, ensures_pure]
            exact ⟨trivial, hlimit, rfl, rfl, rfl, rfl, rfl⟩
      · have hfits : ¬limit' < used + bytes := by omega
        simp only [hbreach, hfits, if_false, ensures_pure]
        exact ⟨trivial, hlimit, rfl, rfl, rfl, rfl, rfl⟩

theorem release (lease : Lease) : Eases lease.release := by
  intro site eased heased
  obtain ⟨⟨limit, _, _⟩, _, _, journal, _⟩ := site
  obtain ⟨⟨limit', policy, used⟩, scratch, memory, journal', sizeBits⟩ := eased
  obtain ⟨hlimit, rfl, rfl, rfl, rfl, rfl⟩ := heased
  simp only at hlimit
  unfold Lease.release Site.refund
  split
  · simp only [ensures_pure]
    exact ⟨trivial, hlimit, rfl, rfl, rfl, rfl, rfl⟩
  · simp only [ensures_bind, ensures_modifyGet, Ledger.refund]
    by_cases hignore : policy = .ignore
    · simp only [hignore, if_true, ensures_pure]
      exact ⟨trivial, hlimit, rfl, rfl, rfl, rfl, rfl⟩
    · simp only [hignore, if_false]
      by_cases hshort : used < lease.bytes
      · simp only [hshort, if_true, Site.report, ensures_modify]
        exact ⟨trivial, hlimit, rfl, rfl, rfl, rfl, rfl⟩
      · simp only [hshort, if_false, ensures_pure]
        exact ⟨trivial, hlimit, rfl, rfl, rfl, rfl, rfl⟩

end Eases

/-- Work that comes to a result comes to the same one under a higher limit. -/
theorem Plain.eases {work : SiteM α} (h : Plain work) : Eases work := by
  induction h with
  | pure a => exact fun _ _ heased => ensures_pure.mpr (ensures_pure.mpr ⟨rfl, heased⟩)
  | halt h => exact fun _ _ _ => ensures_halt.mpr trivial
  | bind _ _ ih ihnext => exact ih.bind ihnext
  | count bytes => exact Eases.count bytes
  | allocate bytes => exact Eases.allocate bytes
  | take bytes => exact Eases.take bytes
  | release lease => exact Eases.release lease
  | report e => exact Eases.report e

end SiteM

namespace Work

variable {α β ε σ : Type}

def Plain (work : ExceptT ε (StateT σ SiteM) α) : Prop := ∀ s, SiteM.Plain (work s)

namespace Plain

theorem pure (a : α) : Plain (pure a : ExceptT ε (StateT σ SiteM) α) :=
  fun _ => SiteM.Plain.pure _

theorem throw (e : ε) : Plain (throw e : ExceptT ε (StateT σ SiteM) α) :=
  fun _ => SiteM.Plain.pure _

theorem bind {work : ExceptT ε (StateT σ SiteM) α} {next : α → ExceptT ε (StateT σ SiteM) β}
    (hwork : Plain work) (hnext : ∀ a, Plain (next a)) : Plain (work >>= next) := by
  intro s
  rw [run_bind]
  apply (hwork s).bind
  intro out
  obtain ⟨outcome, s'⟩ := out
  cases outcome with
  | error e => exact SiteM.Plain.pure _
  | ok a => exact hnext a s'

theorem get {next : σ → ExceptT ε (StateT σ SiteM) α} (hnext : ∀ s, Plain (next s)) :
    Plain (get >>= next) :=
  fun s => hnext s s

theorem set (s : σ) : Plain (set s : ExceptT ε (StateT σ SiteM) PUnit) :=
  fun _ => SiteM.Plain.pure _

theorem modify (f : σ → σ) : Plain (modify f : ExceptT ε (StateT σ SiteM) PUnit) :=
  fun _ => SiteM.Plain.pure _

theorem lift {work : SiteM α} (hwork : SiteM.Plain work) :
    Plain (liftM work : ExceptT ε (StateT σ SiteM) α) := by
  intro s
  rw [run_liftM]
  exact hwork.bind fun _ => SiteM.Plain.pure _

theorem rethrow {work : ExceptT ε (StateT σ SiteM) α} {after : SiteM Unit} (hwork : Plain work)
    (hafter : SiteM.Plain after) :
    Plain (tryCatch work fun e => do liftM after; MonadExcept.throw e) := by
  intro s
  rw [run_tryCatch]
  apply (hwork s).bind
  intro out
  obtain ⟨outcome, s'⟩ := out
  cases outcome with
  | ok a => exact SiteM.Plain.pure _
  | error e => exact (lift hafter).bind (fun _ => throw e) s'

theorem blind {work : ExceptT ε (StateT σ SiteM) α} (h : Plain work) : Blind work :=
  fun s => (h s).blind

end Plain

end Work

end BoundedMerge
