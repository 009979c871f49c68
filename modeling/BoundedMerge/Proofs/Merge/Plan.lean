import BoundedMerge.Layout.Order
import BoundedMerge.Merge.Formation
import BoundedMerge.Proofs.Layout.Lawful
import BoundedMerge.Proofs.Site.Work
import Mathlib.Order.Bounds.Basic

/-!
The plans are the best there are. A division with two clamps tells how many tapes can be merged at
once, and another how many records can be arranged at once: each is the greatest number whose cost
does not exceed what is available. Where a plan fails, what it says is required is what it takes.
-/

namespace BoundedMerge

open SiteM

namespace Plan

variable {space fixed perInput recordSize runs k : Nat} {e : MergeError}

theorem arity_of_le (hper : 0 < perInput) (h : fixed + 2 * perInput ≤ space) :
    arity space fixed perInput runs = .ok (min ((space - fixed) / perInput) runs) := by
  have hmany : 2 ≤ (space - fixed) / perInput := (Nat.le_div_iff_mul_le hper).mpr (by omega)
  unfold arity
  simp only
  rw [if_neg (by omega), Nat.max_eq_left hmany]

theorem arity_of_lt (hper : 0 < perInput) (hruns : 1 < runs) (h : space < fixed + 2 * perInput) :
    arity space fixed perInput runs =
      .error (.insufficientMemory space (fixed + 2 * perInput)) := by
  have hfew : (space - fixed) / perInput < 2 := (Nat.div_lt_iff_lt_mul hper).mpr (by omega)
  unfold arity
  simp only
  rw [if_pos ⟨hruns, hfew⟩]

theorem capacity_of_le (hrecord : 0 < recordSize) (h : fixed + recordSize ≤ space) :
    capacity space fixed recordSize = .ok ((space - fixed) / recordSize) := by
  have hone : 1 ≤ (space - fixed) / recordSize := (Nat.le_div_iff_mul_le hrecord).mpr (by omega)
  unfold capacity
  simp only
  rw [if_neg (by omega)]

theorem capacity_of_lt (hrecord : 0 < recordSize) (h : space < fixed + recordSize) :
    capacity space fixed recordSize =
      .error (.insufficientMemory space (fixed + recordSize)) := by
  unfold capacity
  simp only
  rw [if_pos (Nat.div_eq_of_lt (by omega))]

/-- The plan is the best for any space: of `counts`, where `need k` bytes are needed for `k`
together, the greatest that can be afforded. It fails if less than `least` can be. -/
structure Best (plan : Nat → Except MergeError Nat) (need : Nat → Nat) (least : Nat)
    (counts : Set Nat) : Prop where
  ok_iff : ∀ space k, plan space = .ok k ↔
    least ≤ k ∧ IsGreatest {k | k ∈ counts ∧ need k ≤ space} k
  error_iff : ∀ space e, plan space = .error e ↔
    space < need least ∧ e = .insufficientMemory space (need least)

/-- A plan that comes out in two ways, on both sides of what `least` takes. -/
theorem Best.of_cases {plan : Nat → Except MergeError Nat} {need : Nat → Nat} {least : Nat}
    {counts : Set Nat} (best : Nat → Nat)
    (hle : ∀ space, need least ≤ space → plan space = .ok (best space) ∧ least ≤ best space ∧
      IsGreatest {k | k ∈ counts ∧ need k ≤ space} (best space))
    (hlt : ∀ space, space < need least →
      plan space = .error (.insufficientMemory space (need least)))
    (hmono : ∀ space k, least ≤ k → need k ≤ space → need least ≤ space) :
    Best plan need least counts := by
  refine ⟨fun space k => ?_, fun space e => ?_⟩
  · constructor
    · intro hok
      by_cases hfits : need least ≤ space
      · obtain ⟨hplan, hlow, hgreatest⟩ := hle space hfits
        rw [hplan] at hok
        cases hok
        exact ⟨hlow, hgreatest⟩
      · rw [hlt space (Nat.lt_of_not_le hfits)] at hok
        cases hok
    · rintro ⟨hlow, hgreatest⟩
      obtain ⟨hplan, -, hbest⟩ := hle space (hmono space k hlow hgreatest.1.2)
      rw [hplan, hbest.unique hgreatest]
  · constructor
    · intro herror
      by_cases hfits : need least ≤ space
      · rw [(hle space hfits).1] at herror
        cases herror
      · rw [hlt space (Nat.lt_of_not_le hfits)] at herror
        cases herror
        exact ⟨Nat.lt_of_not_le hfits, rfl⟩
    · rintro ⟨hshort, rfl⟩
      exact hlt space hshort

theorem best_arity (fixed : Nat) (hper : 0 < perInput) (hruns : 1 < runs) :
    Best (fun space => arity space fixed perInput runs) (fun k => fixed + k * perInput) 2
      {k | k ≤ runs} := by
  refine Best.of_cases (fun space => min ((space - fixed) / perInput) runs)
    (fun space hfits => ⟨arity_of_le hper hfits, ?_, ?_, ?_⟩)
    (fun space hshort => arity_of_lt hper hruns hshort) ?_
  · exact Nat.le_min.mpr ⟨(Nat.le_div_iff_mul_le hper).mpr (by omega), hruns⟩
  · refine ⟨Nat.min_le_right _ _, ?_⟩
    have hmin := Nat.mul_le_mul_right perInput
      (Nat.min_le_left ((space - fixed) / perInput) runs)
    have hdiv := Nat.div_mul_le_self (space - fixed) perInput
    omega
  · rintro k ⟨hk, hcost⟩
    exact Nat.le_min.mpr ⟨(Nat.le_div_iff_mul_le hper).mpr (by omega), hk⟩
  · intro space k hk hcost
    have htwo := Nat.mul_le_mul_right perInput hk
    omega

theorem best_capacity (fixed : Nat) (hrecord : 0 < recordSize) :
    Best (fun space => capacity space fixed recordSize) (fun k => fixed + k * recordSize) 1
      Set.univ := by
  refine Best.of_cases (fun space => (space - fixed) / recordSize) (fun space hfits => ?_)
    (fun space hshort => ?_) ?_
  · rw [Nat.one_mul] at hfits
    refine ⟨capacity_of_le hrecord hfits, (Nat.le_div_iff_mul_le hrecord).mpr (by omega),
      ⟨trivial, ?_⟩, ?_⟩
    · have hdiv := Nat.div_mul_le_self (space - fixed) recordSize
      omega
    · rintro k ⟨-, hcost⟩
      exact (Nat.le_div_iff_mul_le hrecord).mpr (by omega)
  · rw [Nat.one_mul] at hshort ⊢
    exact capacity_of_lt hrecord hshort
  · intro space k hk hcost
    have hone := Nat.mul_le_mul_right recordSize hk
    omega

namespace Best

variable {plan : Nat → Except MergeError Nat} {need : Nat → Nat} {least : Nat} {counts : Set Nat}
  {space more : Nat}

theorem exists_ok (h : Best plan need least counts) (hfits : need least ≤ space) :
    ∃ k, plan space = .ok k := by
  cases hplan : plan space with
  | ok k => exact ⟨k, rfl⟩
  | error e => exact absurd hfits (Nat.not_le.mpr ((h.error_iff space e).mp hplan).1)

theorem le_of_ok (h : Best plan need least counts) (hok : plan space = .ok k) :
    need least ≤ space := by
  by_contra hshort
  rw [(h.error_iff space _).mpr ⟨Nat.lt_of_not_le hshort, rfl⟩] at hok
  cases hok

/-- With more space the plan is for more. -/
theorem mono (h : Best plan need least counts) (hmore : space ≤ more) (hok : plan space = .ok k) :
    ∃ k', k ≤ k' ∧ plan more = .ok k' := by
  obtain ⟨k', hok'⟩ := h.exists_ok ((h.le_of_ok hok).trans hmore)
  obtain ⟨hcounts, hcost⟩ := ((h.ok_iff space k).mp hok).2.1
  exact ⟨k', ((h.ok_iff more k').mp hok').2.2 ⟨hcounts, hcost.trans hmore⟩, hok'⟩

end Best

end Plan

/-- A plan failed, because less was available than it takes at least. -/
def MergeError.Lacks (required : Nat) (e : MergeError) : Prop :=
  ∃ available, available < required ∧ e = .insufficientMemory available required

namespace Merger

variable {π : Type} (τ : Type) [FixedWidth τ] [Strategy π τ]

def mergeSpace (m : Merger) (p : π) : Nat := m.fixedSpace τ p + 2 * m.inputSpace τ p

def runSpace (m : Merger) (p : π) : Nat :=
  m.formationSpace τ p + max 1 (FixedWidth.footprint τ).size

end Merger

def SiteM.Finds {α : Type} (work : SiteM α) (site : Site) (a : α) : Prop :=
  (work site : Except Halt α × Site) = (.ok a, site)

/-- The machine counts so many bytes. -/
def Site.Counts (site : Site) (bytes : Nat) : Prop :=
  ∀ bits, site.sizeBits = some bits → bytes < 2 ^ bits

theorem Site.Counts.mono {site : Site} {bytes more : Nat} (h : site.Counts more)
    (hle : bytes ≤ more) : site.Counts bytes :=
  fun bits hbits => Nat.lt_of_le_of_lt hle (h bits hbits)

namespace SiteM

variable {α β : Type} {site : Site}

theorem Finds.bind {work : SiteM α} {next : α → SiteM β} {a : α} {b : β} (h : work.Finds site a)
    (hnext : (next a).Finds site b) : (work >>= next).Finds site b := by
  unfold Finds at *
  change (match (work site : Except Halt α × Site) with
    | (out, after) => ExceptT.bindCont next out after) = _
  rw [h]
  exact hnext

theorem Finds.unique {work : SiteM α} {a b : α} (h : work.Finds site a) (h' : work.Finds site b) :
    a = b := by
  unfold Finds at h h'
  rw [h] at h'
  cases h'
  rfl

theorem finds_count {bytes : Nat} (h : site.Counts bytes) : (Site.count bytes).Finds site () := by
  obtain ⟨a, after, hrun, rfl⟩ := Ensures.exists_run <| (Site.ensures_count bytes).mono
    (fun _ _ hsame => hsame) fun _ _ ⟨_, bits, hbits, hle⟩ =>
      absurd (h bits hbits) (Nat.not_lt.mpr (Nat.one_shiftLeft bits ▸ hle))
  exact hrun

end SiteM

/-- At the site the work plans for the greatest of `counts` that can be afforded with the memory
that is available, where `need k` bytes are needed for `k` together. If less than `least` can be,
it fails, and what it says is required is the least that must be available for it to succeed. With
a larger limit or less in use it plans for no less. -/
structure SiteM.PlansBest (work : SiteM (Except MergeError Nat)) (need : Nat → Nat) (least : Nat)
    (counts : Set Nat) (site : Site) : Prop where
  ends : ∃ plan, work.Finds site plan
  ok_iff : ∀ k, work.Finds site (.ok k) ↔
    least ≤ k ∧ IsGreatest {k | k ∈ counts ∧ need k ≤ site.ledger.available} k
  error_iff : ∀ e, work.Finds site (.error e) ↔ site.ledger.available < need least ∧
    e = .insufficientMemory site.ledger.available (need least)
  required_isLeast : IsLeast {bytes | ∃ ledger : Ledger, ledger.available = bytes ∧
    ∃ k, work.Finds { site with ledger } (.ok k)} (need least)
  mono : ∀ (ledger : Ledger) (k : Nat), site.ledger.limit ≤ ledger.limit →
    ledger.used ≤ site.ledger.used → work.Finds site (.ok k) →
      ∃ k', k ≤ k' ∧ work.Finds { site with ledger } (.ok k')

/-- Work that comes to a plan that is the best for what is available. -/
theorem Plan.Best.plansBest {plan : Nat → Except MergeError Nat} {need : Nat → Nat} {least : Nat}
    {counts : Set Nat} {work : SiteM (Except MergeError Nat)} {site : Site}
    (h : Plan.Best plan need least counts)
    (hwork : ∀ ledger : Ledger, work.Finds { site with ledger } (plan ledger.available)) :
    work.PlansBest need least counts site := by
  have hfinds (ledger : Ledger) (out : Except MergeError Nat) :
      work.Finds { site with ledger } out ↔ plan ledger.available = out :=
    ⟨(hwork ledger).unique, fun hout => hout ▸ hwork ledger⟩
  refine ⟨⟨_, hwork site.ledger⟩, ?_, ?_, ⟨?_, ?_⟩, ?_⟩
  · exact fun k => (hfinds site.ledger _).trans (h.ok_iff _ k)
  · exact fun e => (hfinds site.ledger _).trans (h.error_iff _ e)
  · obtain ⟨k, hok⟩ := h.exists_ok (Nat.le_refl (need least))
    exact ⟨{ limit := need least, policy := .warn }, rfl, k, (hfinds _ _).mpr hok⟩
  · rintro _ ⟨ledger, rfl, k, hk⟩
    exact h.le_of_ok ((hfinds ledger _).mp hk)
  · intro ledger k hlimit hused hk
    have hmore : site.ledger.available ≤ ledger.available := by
      unfold Ledger.available
      omega
    obtain ⟨k', hle, hok⟩ := h.mono hmore ((hfinds site.ledger _).mp hk)
    exact ⟨k', hle, (hfinds ledger _).mpr hok⟩

namespace Merger

variable {π τ : Type} [FixedWidth τ] {site : Site}

theorem finds_measure (blockSize : Nat) (hwidth : 0 < FixedWidth.width τ)
    (hcount : site.Counts (Tape.memoryUsage τ blockSize)) :
    (Tape.measure τ blockSize).Finds site (Tape.memoryUsage τ blockSize) := by
  unfold Tape.measure
  rw [if_neg (Nat.ne_of_gt hwidth)]
  exact (finds_count hcount).bind rfl

theorem finds_orCount {plan : Except MergeError Nat}
    (hcount : ∀ available required, plan = .error (.insufficientMemory available required) →
      site.Counts required) : (orCount plan).Finds site plan := by
  unfold orCount
  split
  · exact (finds_count (hcount _ _ rfl)).bind rfl
  · rfl

variable [Strategy π τ]

theorem finds_arity (m : Merger) (p : π) (hwidth : 0 < FixedWidth.width τ) {runs : Nat}
    (hruns : 1 < runs) (hcount : site.Counts (m.fixedSpace τ p + 2 * m.inputSpace τ p)) :
    (m.arity τ p runs).Finds site
      (Plan.arity site.ledger.available (m.fixedSpace τ p) (m.inputSpace τ p) runs) := by
  have htape : Tape.memoryUsage τ m.blockSize ≤ m.fixedSpace τ p :=
    (Nat.le_add_right _ _).trans (Nat.le_add_left _ _)
  refine (finds_measure m.blockSize hwidth (hcount.mono (by omega))).bind ?_
  refine (finds_count (hcount.mono (by omega))).bind ?_
  refine Finds.bind (a := site) rfl (finds_orCount fun available required hplan => ?_)
  have herror := ((Plan.best_arity _ (Nat.succ_pos _) hruns).error_iff _ _).mp hplan
  cases herror.2
  exact hcount

theorem finds_capacity (m : Merger) (p : π) (hwidth : 0 < FixedWidth.width τ)
    (hcount : site.Counts (m.formationSpace τ p + max 1 (FixedWidth.footprint τ).size)) :
    (m.capacity τ p).Finds site (Plan.capacity site.ledger.available (m.formationSpace τ p)
      (max 1 (FixedWidth.footprint τ).size)) := by
  have htape : Tape.memoryUsage τ m.blockSize ≤ m.tapeSpace τ := Nat.le_add_right _ _
  have htapes : 2 * m.tapeSpace τ ≤ m.formationSpace τ p := Nat.le_add_left _ _
  refine (finds_measure m.blockSize hwidth (hcount.mono (by omega))).bind ?_
  refine (finds_count (hcount.mono (by omega))).bind ?_
  refine Finds.bind (a := site) rfl (finds_orCount fun available required hplan => ?_)
  have herror := ((Plan.best_capacity _ (by omega)).error_iff _ _).mp hplan
  cases herror.2
  rwa [Nat.one_mul]

/-- The numbers of tapes that can be merged at once and of records that can be arranged at once
are the best there are, for any strategy and records of any width, whatever is in use. -/
theorem plans_are_best (m : Merger) (p : π) (hwidth : 0 < FixedWidth.width τ) (site : Site) :
    (∀ runs, 1 < runs → site.Counts (m.fixedSpace τ p + 2 * m.inputSpace τ p) →
      (m.arity τ p runs).PlansBest (fun k => m.fixedSpace τ p + k * m.inputSpace τ p) 2
        {k | k ≤ runs} site) ∧
    (site.Counts (m.formationSpace τ p + max 1 (FixedWidth.footprint τ).size) →
      (m.capacity τ p).PlansBest
        (fun k => m.formationSpace τ p + k * max 1 (FixedWidth.footprint τ).size) 1 Set.univ
        site) := by
  refine ⟨?_, ?_⟩
  · intro runs hruns hcount
    have hper : 0 < m.inputSpace τ p := Nat.succ_pos _
    exact (Plan.best_arity (m.fixedSpace τ p) hper hruns).plansBest fun ledger =>
      m.finds_arity p hwidth hruns hcount
  · intro hcount
    have hrecord : 0 < max 1 (FixedWidth.footprint τ).size := Nat.le_max_left 1 _
    exact (Plan.best_capacity (m.formationSpace τ p) hrecord).plansBest fun ledger =>
      m.finds_capacity p hwidth hcount

/-- Words in blocks of one word. With 546 bytes two runs of three can be merged at once; if more
than the limit is in use nothing is available, and 546 bytes are still what it takes. With 1400
bytes there is room for 129 words beside two tapes. -/
theorem plans_are_best_words :
    (arity Word { blockSize := 8 }
      ({ cmp := (Layout.scalar (.unsigned .w64)).compare } : Ordered Word) 3).Finds
      (.real { limit := 546, policy := .warn } .reliable) (.ok 2) ∧
    (arity Word { blockSize := 8 }
      ({ cmp := (Layout.scalar (.unsigned .w64)).compare } : Ordered Word) 3).Finds
      (.real { limit := 546, policy := .warn, used := 600 } .reliable)
      (.error (.insufficientMemory 0 546)) ∧
    (capacity Word { blockSize := 8 }
      ({ cmp := (Layout.scalar (.unsigned .w64)).compare } : Ordered Word)).Finds
      (.real { limit := 1400, policy := .warn } .reliable) (.ok 129) := by
  have hbest := plans_are_best (τ := Word) { blockSize := 8 }
    ({ cmp := (Layout.scalar (.unsigned .w64)).compare } : Ordered Word) (by decide)
  have hcounts {ledger : Ledger} {bytes : Nat} (h : bytes < 2 ^ 64) :
      (Site.real ledger .reliable).Counts bytes := by
    rintro _ ⟨⟩
    exact h
  refine ⟨?_, ?_, ?_⟩
  · refine (((hbest _).1 3 (by decide) (hcounts (by decide))).ok_iff 2).mpr
      ⟨Nat.le_refl 2, ⟨by decide, by decide⟩, ?_⟩
    rintro k ⟨-, hk⟩
    change 224 + k * 161 ≤ 546 at hk
    omega
  · exact (((hbest _).1 3 (by decide) (hcounts (by decide))).error_iff _).mpr ⟨by decide, rfl⟩
  · refine (((hbest _).2 (hcounts (by decide))).ok_iff 129).mpr
      ⟨by decide, ⟨trivial, by decide⟩, ?_⟩
    rintro k ⟨-, hk⟩
    change 368 + k * 8 ≤ 1400 at hk
    omega

/-- A record without width has no place on a tape: nothing is planned for such records, although
there is room for two inputs. -/
theorem plans_nothing_without_width :
    fixedSpace (Layout.array (.scalar (.unsigned .w8)) 0).Value { blockSize := 8 }
        ({ cmp := fun _ _ => .eq } : Ordered (Layout.array (.scalar (.unsigned .w8)) 0).Value) +
      2 * inputSpace (Layout.array (.scalar (.unsigned .w8)) 0).Value { blockSize := 8 }
        ({ cmp := fun _ _ => .eq } : Ordered (Layout.array (.scalar (.unsigned .w8)) 0).Value) ≤
      1000 ∧
    (arity (Layout.array (.scalar (.unsigned .w8)) 0).Value { blockSize := 8 }
        ({ cmp := fun _ _ => .eq } : Ordered (Layout.array (.scalar (.unsigned .w8)) 0).Value)
        2).Ensures (.real { limit := 1000, policy := .warn } .reliable) (fun _ _ => False)
      (fun halt _ => halt = .outOfRange) := by
  refine ⟨by decide, ?_⟩
  unfold arity Tape.measure
  exact ensures_bind.mpr (ensures_halt.mpr rfl)

end Merger

end BoundedMerge
