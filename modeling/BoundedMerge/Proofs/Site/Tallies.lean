import BoundedMerge.Proofs.Site.Yields

/-!
Work that keeps account. A site `Holds` a number of bytes if these are the bytes in use, they are
within the limit, and no breach of the limit was reported. Work `Tallies` if it leads from such a
site to one that holds a number of bytes known from the result, whatever the disks do. It may halt,
but not because the limit was exceeded.
-/

namespace BoundedMerge

def Event.isExcess : Event → Bool
  | fatalBreach (.limitExceeded ..) | breach (.limitExceeded ..) => true
  | _ => false

namespace Site

def excesses (site : Site) : List Event := site.journal.toList.filter Event.isExcess

/-- The bytes that a lease of `bytes` charges: none where no account is kept. -/
def charged (ref : Site) (bytes : Nat) : Nat :=
  if ref.ledger.policy = .ignore then 0 else bytes

/-- The site is like `ref`, `used` bytes are in use and within the limit, and no more breaches were
reported than at `ref`. -/
structure Holds (ref : Site) (used : Nat) (site : Site) : Prop where
  like : ref.Like site
  used_eq : site.ledger.used = used
  used_le : used ≤ ref.ledger.limit
  quiet : site.excesses = ref.excesses

theorem charged_le (ref : Site) (bytes : Nat) : ref.charged bytes ≤ bytes := by
  unfold charged
  split <;> omega

theorem charged_mono (ref : Site) {a b : Nat} (h : a ≤ b) : ref.charged a ≤ ref.charged b := by
  unfold charged
  split <;> omega

theorem Holds.report {ref site : Site} {used : Nat} (h : ref.Holds used site) {e : Event}
    (he : e.isExcess = false) : ref.Holds used { site with journal := site.journal.push e } := by
  refine ⟨h.like.book _ _, h.used_eq, h.used_le, ?_⟩
  rw [← h.quiet, excesses, excesses, Array.toList_push, List.filter_append,
    List.filter_cons_of_neg (by simp [he]), List.filter_nil, List.append_nil]

end Site

/-- A lease is backed by the ledger: where no account is kept it is empty. -/
def Lease.Backed (ref : Site) (lease : Lease) : Prop :=
  ref.ledger.policy = .ignore → lease.bytes = 0

/-- The work leads from a site that holds `used` bytes to a result and a site that holds a number
of bytes for which `Q` holds, or halts for another reason than a breach of the limit. -/
def SiteM.Tallies {α : Type} (ref : Site) (used : Nat) (work : SiteM α) (Q : α → Nat → Prop) :
    Prop :=
  ∀ site, ref.Holds used site → work.Ensures site
    (fun a after => ∃ used', Q a used' ∧ ref.Holds used' after)
    (fun halt after => halt ≠ .breach ∧ ∃ used', ref.Holds used' after)

namespace SiteM.Tallies

variable {α β : Type} {ref : Site} {used : Nat}

theorem mono {work : SiteM α} {Q Q' : α → Nat → Prop} (h : Tallies ref used work Q)
    (hQ : ∀ a used', Q a used' → Q' a used') : Tallies ref used work Q' := by
  intro site hsite
  refine (h site hsite).mono ?_ (fun _ _ hh => hh)
  rintro a after ⟨used', ha, hafter⟩
  exact ⟨used', hQ a used' ha, hafter⟩

/-- What holds of the results whatever the site is. -/
theorem and {work : SiteM α} {Q : α → Nat → Prop} {P : α → Prop} (h : Tallies ref used work Q)
    (hP : ∀ site, work.Ensures site (fun a _ => P a) fun _ _ => True) :
    Tallies ref used work fun a used' => Q a used' ∧ P a := by
  intro site hsite
  refine ((h site hsite).and (hP site)).mono ?_ (fun _ _ hh => hh.1)
  rintro a after ⟨⟨used', ha, hafter⟩, hPa⟩
  exact ⟨used', ⟨ha, hPa⟩, hafter⟩

/-- What is yielded, whatever is in use. -/
theorem and_yields {work : SiteM α} {Q : α → Nat → Prop} {P : α → Prop}
    (h : Tallies ref used work Q) (hP : Yields ref work P) :
    Tallies ref used work fun a used' => Q a used' ∧ P a := by
  intro site hsite
  refine ((h site hsite).and (hP site hsite.like)).mono ?_ (fun _ _ hh => hh.1)
  rintro a after ⟨⟨used', ha, hafter⟩, hPa, -⟩
  exact ⟨used', ⟨ha, hPa⟩, hafter⟩

/-- Work that yields something too halts for one reason only. -/
theorem ensures {site : Site} {work : SiteM α} {Q : α → Nat → Prop} {P : α → Prop}
    (h : Tallies site used work Q) (hP : Yields site work P) (hused : site.ledger.used = used)
    (hle : site.ledger.used ≤ site.ledger.limit) :
    work.Ensures site (fun a _ => ∃ used', Q a used')
      (fun halt _ => site.Fails halt) := by
  refine ((h site ⟨Site.Like.refl site, hused, hused ▸ hle, rfl⟩).and
    (hP.ensures (Site.Like.refl site))).mono ?_ ?_
  · rintro a _ ⟨⟨used', ha, -⟩, -⟩
    exact ⟨used', ha⟩
  · rintro halt _ ⟨⟨hbreach, -⟩, hexcuse⟩
    cases hexcuse with
    | breach => exact absurd rfl hbreach
    | machine hfails => exact hfails

/-- What is in use before is within the limit. -/
theorem of_le {work : SiteM α} {Q : α → Nat → Prop}
    (h : used ≤ ref.ledger.limit → Tallies ref used work Q) : Tallies ref used work Q :=
  fun site hsite => h hsite.used_le site hsite

theorem pure {a : α} {Q : α → Nat → Prop} (h : Q a used) : Tallies ref used (pure a) Q :=
  fun _ hsite => ensures_pure.mpr ⟨used, h, hsite⟩

theorem bind {work : SiteM α} {next : α → SiteM β} {P : α → Nat → Prop} {Q : β → Nat → Prop}
    (h : Tallies ref used work P) (hnext : ∀ a used', P a used' → Tallies ref used' (next a) Q) :
    Tallies ref used (work >>= next) Q := by
  intro site hsite
  rw [ensures_bind]
  refine (h site hsite).mono ?_ (fun _ _ hh => hh)
  rintro a after ⟨used', ha, hafter⟩
  exact hnext a used' ha after hafter

/-- Work on a state: what comes next starts from the state that is left. -/
theorem run_bind {ε σ : Type} {work : ExceptT ε (StateT σ SiteM) α}
    {next : α → ExceptT ε (StateT σ SiteM) β} {s : σ} {P : Except ε α × σ → Nat → Prop}
    {Q : Except ε β × σ → Nat → Prop} (h : Tallies ref used (work s) P)
    (hok : ∀ a s' used', P (.ok a, s') used' → Tallies ref used' (next a s') Q)
    (herror : ∀ e s' used', P (.error e, s') used' → Q (.error e, s') used') :
    Tallies ref used ((work >>= next) s) Q := by
  rw [Work.run_bind]
  refine h.bind fun out used' hout => ?_
  rcases out with ⟨e | a, s'⟩
  · exact pure (herror e s' used' hout)
  · exact hok a s' used' hout

theorem run_tryCatch {ε σ : Type} {work : ExceptT ε (StateT σ SiteM) α}
    {handle : ε → ExceptT ε (StateT σ SiteM) α} {s : σ} {P Q : Except ε α × σ → Nat → Prop}
    (h : Tallies ref used (work s) P)
    (hok : ∀ a s' used', P (.ok a, s') used' → Q (.ok a, s') used')
    (herror : ∀ e s' used', P (.error e, s') used' → Tallies ref used' (handle e s') Q) :
    Tallies ref used ((tryCatch work handle) s) Q := by
  rw [Work.run_tryCatch]
  refine h.bind fun out used' hout => ?_
  rcases out with ⟨e | a, s'⟩
  · exact herror e s' used' hout
  · exact pure (hok a s' used' hout)

theorem run_liftM {ε σ : Type} {work : SiteM α} {s : σ} {Q : Except ε α × σ → Nat → Prop}
    (h : Tallies ref used work fun a used' => Q (.ok a, s) used') :
    Tallies ref used ((liftM work : ExceptT ε (StateT σ SiteM) α) s) Q := by
  rw [Work.run_liftM]
  exact h.bind fun a used' ha => pure ha

theorem halt {h : Halt} {Q : α → Nat → Prop} (hbreach : h ≠ .breach) :
    Tallies ref used (Site.halt h) Q :=
  fun _ hsite => ensures_halt.mpr ⟨hbreach, used, hsite⟩

theorem get : Tallies ref used (get : SiteM Site) fun site used' =>
    ref.Holds used site ∧ used' = used :=
  fun _ hsite => ensures_get.mpr ⟨used, ⟨hsite, rfl⟩, hsite⟩

theorem report {e : Event} (he : e.isExcess = false) :
    Tallies ref used (Site.report e) fun _ used' => used' = used := by
  intro site hsite
  simp only [Site.report, ensures_modify]
  exact ⟨used, rfl, hsite.report he⟩

/-- Work that begins with a report begins with the same accounts after it. -/
theorem run_report {ε σ : Type} {e : Event} {next : ExceptT ε (StateT σ SiteM) α} {s : σ}
    {Q : Except ε α × σ → Nat → Prop} (he : e.isExcess = false)
    (hnext : Tallies ref used (next s) Q) :
    Tallies ref used
      (((liftM (Site.report e) : ExceptT ε (StateT σ SiteM) Unit) >>= fun _ => next) s) Q := by
  simp only [Work.run_bind, Work.run_liftM, bind_assoc, pure_bind]
  refine (report he).bind ?_
  rintro _ _ rfl
  exact hnext

theorem count (bytes : Nat) : Tallies ref used (Site.count bytes) fun _ used' => used' = used := by
  intro site hsite
  unfold Site.count
  simp only [ensures_bind, ensures_get]
  split
  · exact ensures_halt.mpr ⟨by simp, used, hsite⟩
  · exact ensures_pure.mpr ⟨used, rfl, hsite⟩

theorem allocate (bytes : Nat) :
    Tallies ref used (Site.allocate bytes) fun _ used' => used' = used := by
  intro site hsite
  have hasked : ref.Holds used site.askedOnce :=
    ⟨hsite.like.askedOnce, hsite.used_eq, hsite.used_le, hsite.quiet⟩
  unfold Site.allocate
  simp only [ensures_bind, ensures_modifyGet]
  cases decide (bytes = 0) || site.memory.gives site.memory.asked bytes with
  | true => exact ensures_pure.mpr ⟨used, rfl, hasked⟩
  | false => exact ensures_halt.mpr ⟨by simp, used, hasked⟩

theorem provide (bytes : Nat) :
    Tallies ref used (Site.provide bytes) fun _ used' => used' = used := by
  refine (count _).bind ?_
  rintro _ _ rfl
  exact allocate bytes

theorem demand (x : Option α) :
    Tallies ref used (Site.demand x) fun a used' => x = some a ∧ used' = used := by
  cases x with
  | none => exact halt (by simp)
  | some a => exact pure ⟨rfl, rfl⟩

theorem assert (holds : Bool) (a : Assertion) :
    Tallies ref used (Site.assert holds a) fun _ used' => used' = used := by
  unfold Site.assert
  split
  · exact pure rfl
  · exact halt (by simp)

theorem newFile : Tallies ref used Site.newFile fun _ used' => used' = used := by
  intro site hsite
  simp only [Site.newFile, ensures_modifyGet]
  exact ⟨used, rfl, ⟨hsite.like.limit, hsite.like.policy, hsite.like.sizeBits, hsite.like.supply,
    hsite.like.gives⟩, hsite.used_eq, hsite.used_le, hsite.quiet⟩

/-- A charge that fits is entered without a word. -/
theorem take (bytes : Nat) (h : used + ref.charged bytes ≤ ref.ledger.limit) :
    Tallies ref used (Lease.take bytes) fun lease used' =>
      lease.bytes = ref.charged bytes ∧ used' = used + lease.bytes := by
  intro site hsite
  have hpolicy := hsite.like.policy
  unfold Lease.take
  simp only [ensures_bind, ensures_get, hpolicy]
  split
  · next hignore =>
    rw [Site.charged, if_pos hignore]
    exact ensures_pure.mpr ⟨used, ⟨rfl, rfl⟩, hsite⟩
  · next hcount =>
    rw [Site.charged, if_neg hcount] at h ⊢
    have hfits : ¬site.ledger.limit < site.ledger.used + bytes := by
      rw [hsite.like.limit, hsite.used_eq]
      omega
    have hcharge : site.ledger.charge bytes =
        (.ok (), { site.ledger with used := site.ledger.used + bytes }) := by
      rw [Ledger.charge, if_neg (by rw [hpolicy]; exact hcount)]
      simp only [if_neg hfits]
    have hafter : ref.Holds (used + bytes)
        { site with ledger := { site.ledger with used := site.ledger.used + bytes } } :=
      ⟨hsite.like.book _ _, by rw [hsite.used_eq], h, hsite.quiet⟩
    simp only [ensures_bind, Site.charge, ensures_get, hpolicy, ne_eq, hcount, not_false_eq_true,
      if_true]
    have hcounted : (Site.count (site.ledger.used + bytes)).Ensures site
        (fun _ after => after = site) (fun halt after => halt ≠ .breach ∧ after = site) := by
      unfold Site.count
      simp only [ensures_bind, ensures_get]
      split
      · exact ensures_halt.mpr ⟨by simp, rfl⟩
      · exact ensures_pure.mpr rfl
    refine hcounted.mono ?_ ?_
    · rintro _ _ rfl
      simp only [ensures_modifyGet, hcharge, ensures_pure]
      exact ⟨_, ⟨trivial, rfl⟩, hafter⟩
    · rintro halt _ ⟨hbreach, rfl⟩
      exact ⟨hbreach, used, hsite⟩

/-- A lease that is backed gives back what it charged. -/
theorem release (lease : Lease) (hbacked : lease.Backed ref) (h : lease.bytes ≤ used) :
    Tallies ref used lease.release fun _ used' => used' + lease.bytes = used := by
  intro site hsite
  unfold Lease.release
  split
  · next hzero => exact ensures_pure.mpr ⟨used, by omega, hsite⟩
  · next hbytes =>
    have hcount : ¬site.ledger.policy = .ignore := fun hignore =>
      hbytes (hbacked (by rw [← hsite.like.policy]; exact hignore))
    have henough : ¬site.ledger.used < lease.bytes := by
      rw [hsite.used_eq]
      omega
    have hrefund : site.ledger.refund lease.bytes =
        (.ok (), { site.ledger with used := site.ledger.used - lease.bytes }) := by
      rw [Ledger.refund, if_neg hcount]
      simp only [if_neg henough]
    simp only [ensures_bind, Site.refund, ensures_modifyGet, hrefund, ensures_pure]
    have hle := hsite.used_le
    exact ⟨used - lease.bytes, by omega, hsite.like.book _ _, by rw [hsite.used_eq], by omega,
      hsite.quiet⟩

end SiteM.Tallies

end BoundedMerge
