import BoundedMerge.Proofs.Site.Meets

/-!
What the site does for those who work there, whatever the ledger and the journal say. None of it
halts for a reason of its own: a lease may end the program over a breach, and what is counted or
asked for may be more than the machine has.
-/

namespace BoundedMerge

/-- A directory in which every file is made, on a medium that refuses nothing. -/
def Scratch.Sound (scratch : Scratch) : Prop :=
  ∀ n, ∃ d, scratch.supply n = .ok d ∧ d.Fresh

theorem Scratch.sound_reliable : Scratch.reliable.Sound := fun _ => ⟨{}, rfl, Disk.fresh_default⟩

namespace SiteM.Yields

variable {α β : Type} {ref : Site}

/-- What is seen of the site may be anything that is like it. -/
theorem get : Yields ref (get : SiteM Site) fun _ => True :=
  fun _ hsite => ensures_get.mpr ⟨trivial, hsite⟩

theorem report (e : Event) : Yields ref (Site.report e) fun _ => True := by
  intro site hsite
  simp only [Site.report, ensures_modify]
  exact ⟨trivial, hsite.book _ _⟩

/-- Work that begins with a report meets what the rest of it meets. -/
theorem run_report {ε σ : Type} {e : Event} {next : ExceptT ε (StateT σ SiteM) α} {s : σ}
    {Q : Except ε α × σ → Prop} (hnext : Yields ref (next s) Q) :
    Yields ref
      (((liftM (Site.report e) : ExceptT ε (StateT σ SiteM) Unit) >>= fun _ => next) s) Q := by
  simp only [Work.run_bind, Work.run_liftM, bind_assoc, pure_bind]
  exact (report e).bind fun _ _ => hnext

theorem count (bytes : Nat) : Yields ref (Site.count bytes) fun _ => True := by
  apply of_ensures
  intro site hsite
  apply (Site.ensures_count bytes).mono
  · rintro _ after rfl
    exact ⟨trivial, hsite⟩
  · rintro halt _ ⟨rfl, hover⟩
    exact .machine (.oversized (hsite.overflows hover))

theorem provide (bytes : Nat) : Yields ref (Site.provide bytes) fun _ => True := by
  apply of_ensures
  intro site hsite
  apply (Site.ensures_provide bytes).mono
  · rintro _ after rfl
    exact ⟨trivial, hsite.askedOnce⟩
  · rintro halt _ (⟨rfl, hover⟩ | ⟨rfl, hrefuses⟩)
    · exact .machine (.oversized (hsite.overflows hover))
    · exact .machine (.exhausted (hsite.refuses hrefuses))

theorem assert {holds : Bool} (a : Assertion) (h : holds = true) :
    Yields ref (Site.assert holds a) fun _ => True := by
  unfold Site.assert
  rw [if_pos h]
  exact Meets.pure trivial

theorem charge (bytes : Nat) : Yields ref (Site.charge bytes) fun _ => True := by
  intro site hsite
  unfold Site.charge
  simp only [ensures_bind, ensures_get]
  split
  · simp only [ensures_bind, ensures_modifyGet]
    exact (count _ site hsite).mono (fun _ _ h => ⟨trivial, h.2.charge bytes⟩) (fun _ _ h => h)
  · simp only [ensures_modifyGet]
    exact ⟨trivial, hsite.charge bytes⟩

theorem refund (bytes : Nat) : Yields ref (Site.refund bytes) fun _ => True := by
  intro site hsite
  simp only [Site.refund, ensures_modifyGet]
  exact ⟨trivial, hsite.refund bytes⟩

/-- A breach may end the program, but only where the policy says so. -/
theorem take (bytes : Nat) : Yields ref (Lease.take bytes) fun _ => True := by
  intro site hsite
  unfold Lease.take
  simp only [ensures_bind, ensures_get]
  split
  · exact ensures_pure.mpr ⟨trivial, hsite⟩
  · simp only [ensures_bind]
    refine (charge bytes site hsite).mono (fun outcome after h => ?_) (fun _ _ h => h)
    cases outcome with
    | ok _ => exact ensures_pure.mpr ⟨trivial, h.2⟩
    | error e =>
      simp only
      split
      · next habort =>
        simp only [ensures_bind, Site.report, ensures_modify, ensures_halt]
        exact .inl (.breach (hsite.policy ▸ habort))
      · simp only [ensures_bind, Site.report, ensures_modify]
        exact ensures_pure.mpr ⟨trivial, h.2.book _ _⟩

theorem release (lease : Lease) : Yields ref lease.release fun _ => True := by
  unfold Lease.release
  split
  · exact Meets.pure trivial
  · refine (refund lease.bytes).bind fun outcome _ => ?_
    cases outcome with
    | ok _ => exact Meets.pure trivial
    | error e => exact report _

theorem newFile {Q : Except DiskError Disk → Prop}
    (h : ∀ n, Q (ref.scratch.supply n)) : Yields ref Site.newFile Q := by
  intro site hsite
  simp only [Site.newFile, ensures_modifyGet]
  refine ⟨?_, hsite.limit, hsite.policy, hsite.sizeBits, hsite.supply, hsite.gives⟩
  rw [hsite.supply]
  exact h _

end SiteM.Yields

end BoundedMerge
