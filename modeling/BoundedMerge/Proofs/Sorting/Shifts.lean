import BoundedMerge.Proofs.Sorting.Quick
import Mathlib.Algebra.Group.Action.Defs
import Mathlib.Algebra.Order.BigOperators.Group.List
import Mathlib.Algebra.Order.Group.Nat
import Mathlib.Algebra.Ring.Nat

/-!
What the insertion pass costs. A record sinks past no more records than were greater and stood
before it, and after the splitting those stand in its own segment. So the cost of the pass is
linear in the length of the run, whatever the records and the pivots.
-/

namespace BoundedMerge.Sorting

variable {τ : Type} {less : τ → τ → Bool}

/-- How many places the record at `i` sinks when its turn comes. -/
def shifts (less : τ → τ → Bool) (data : Array τ) (i : Nat) : Option Nat :=
  (insertUpTo less data i).bind fun data => (sink less data i).map fun out => i - out.1

/-- A record sinks past no more records than were greater and before it. -/
theorem shifts_le (less : τ → τ → Bool) (data : Array τ) {i : Nat} (hi : i < data.size) :
    ∃ count, shifts less data i = some count ∧
      count ≤ (data.toList.take i).countP (less data[i]) := by
  obtain ⟨front, h⟩ := exists_inserted less data i (Nat.le_of_lt hi)
  obtain ⟨low, high, hfront, hsink, hhigh, -⟩ := h.sinks hi
  have hlength := h.length_eq (Nat.le_of_lt hi)
  rw [hfront, List.length_append] at hlength
  have hcount : high.countP (less data[i]) = high.length := List.countP_eq_length.mpr hhigh
  refine ⟨high.length, ?_, ?_⟩
  · simp only [shifts, h.run, Option.bind_some, hsink, Option.map_some, Option.some.injEq]
    omega
  · rw [← h.perm.countP_eq, hfront, List.countP_append, hcount]
    omega

/-- In a run of short segments few records are greater than a later one: those in its segment. -/
theorem Segmented.countP_take_le {limit : Nat} {run : List τ} (h : Segmented less limit run)
    {i : Nat} (hi : i < run.length) : (run.take i).countP (less run[i]) ≤ limit - 2 := by
  obtain ⟨segments, rfl, hshort, horder⟩ := h
  induction segments generalizing i with
  | nil => simp at hi
  | cons segment segments ih =>
    obtain ⟨hfirst, hrest⟩ := List.pairwise_cons.mp horder
    have hlength := hshort segment List.mem_cons_self
    simp only [List.flatten_cons, List.length_append] at hi ⊢
    by_cases hin : i < segment.length
    · calc ((segment ++ segments.flatten).take i).countP _
          ≤ ((segment ++ segments.flatten).take i).length := List.countP_le_length
        _ ≤ i := List.length_take_le _ _
        _ ≤ limit - 2 := by omega
    · have hi' : i - segment.length < segments.flatten.length := by omega
      -- No record of the first segment is greater than one of the segments behind it.
      have hnone : segment.countP (less segments.flatten[i - segment.length]) = 0 := by
        rw [List.countP_eq_zero]
        intro y hy
        obtain ⟨back, hback, hmem⟩ := List.mem_flatten.mp (List.getElem_mem hi')
        rw [hfirst back hback y hy _ hmem]
        exact Bool.false_ne_true
      rw [List.getElem_append_right (by omega), List.take_append, List.countP_append,
        List.take_of_length_le (by omega), hnone, Nat.zero_add]
      exact ih hi' (fun s hs => hshort s (List.mem_cons_of_mem _ hs)) hrest

/-- After the splitting the insertion pass moves each record by few places. -/
theorem Segmented.shifts_le {limit : Nat} {data : Array τ}
    (h : Segmented less limit data.toList) :
    ∃ counts, (List.range data.size).mapM (shifts less data) = some counts ∧
      counts.length = data.size ∧ (∀ count ∈ counts, count ≤ limit - 2) ∧
      counts.sum ≤ data.size * (limit - 2) := by
  have hcounts (n : Nat) (hn : n ≤ data.size) :
      ∃ counts, (List.range n).mapM (shifts less data) = some counts ∧ counts.length = n ∧
        ∀ count ∈ counts, count ≤ limit - 2 := by
    induction n with
    | zero => exact ⟨[], rfl, rfl, by simp⟩
    | succ n ih =>
      obtain ⟨counts, hrun, hlength, hle⟩ := ih (by omega)
      obtain ⟨count, hcount, hfew⟩ := Sorting.shifts_le less data (by omega : n < data.size)
      have hbound := h.countP_take_le (by rwa [Array.length_toList])
      rw [Array.getElem_toList] at hbound
      refine ⟨counts ++ [count], ?_, ?_, fun c hc => ?_⟩
      · rw [List.range_succ, List.mapM_append, hrun, List.mapM_cons, hcount, List.mapM_nil]
        rfl
      · rw [List.length_append, hlength, List.length_singleton]
      · rcases List.mem_append.mp hc with hc | hc
        · exact hle c hc
        · rw [List.mem_singleton.mp hc]
          exact Nat.le_trans hfew hbound
  obtain ⟨counts, hrun, hlength, hle⟩ := hcounts data.size (Nat.le_refl _)
  refine ⟨counts, hrun, hlength, hle, ?_⟩
  rw [← hlength, ← smul_eq_mul]
  exact List.sum_le_card_nsmul counts _ hle

/-- Splitting leaves short segments in order, whatever the records, the order and the pivots. So
the insertion pass that follows moves no record by more places than a segment has, less one. -/
theorem quickSort_leaves_few_shifts (cmp : τ → τ → Ordering) [Std.TransCmp cmp] (threshold : Nat)
    (pivots : PivotChoice) (data : Array τ) :
    ∃ split : Array τ, quickSort (lessBy cmp) (max 2 threshold) pivots [] data = some split ∧
      split.Perm data ∧
      (∃ segments : List (List τ), split.toList = segments.flatten ∧
        (∀ segment ∈ segments, segment.length < max 2 threshold) ∧
        segments.Pairwise fun front back => ∀ x ∈ front, ∀ y ∈ back, cmp x y ≠ .gt) ∧
      sortBy (lessBy cmp) threshold pivots data = insertionSort (lessBy cmp) split ∧
      ∃ counts, (List.range split.size).mapM (shifts (lessBy cmp) split) = some counts ∧
        counts.length = data.size ∧ (∀ count ∈ counts, count ≤ max 2 threshold - 2) ∧
        counts.sum ≤ data.size * (max 2 threshold - 2) := by
  obtain ⟨split, hsplit, hsegmented⟩ :=
    quickSort_segmented (consistent_of_cmp cmp) (Nat.le_max_left 2 threshold) pivots [] data
  have hperm := quickSort_perm hsplit
  have hcounts := hsegmented.shifts_le
  rw [hperm.size_eq] at hcounts
  obtain ⟨segments, hflatten, hshort, horder⟩ := hsegmented
  refine ⟨split, hsplit, hperm, ⟨segments, hflatten, hshort, ?_⟩, ?_, ?_⟩
  · refine horder.imp fun h x hx y hy => ?_
    have hle := (lessBy_eq_false cmp x y).mp (h x hx y hy)
    rwa [Ordering.isLE_iff_ne_gt] at hle
  · rw [sortBy, hsplit, Option.bind_some]
  · rw [hperm.size_eq]
    exact hcounts

/-- Seven records with duplicates, split down to segments of two at most. -/
theorem quickSort_leaves_few_shifts_numbers :
    ∃ split : Array Nat, quickSort (lessBy compare) (max 2 3) middlePivot []
        #[5, 3, 3, 1, 4, 1, 5] = some split ∧
      split.Perm #[5, 3, 3, 1, 4, 1, 5] ∧
      (∃ segments : List (List Nat), split.toList = segments.flatten ∧
        (∀ segment ∈ segments, segment.length < max 2 3) ∧
        segments.Pairwise fun front back => ∀ x ∈ front, ∀ y ∈ back, compare x y ≠ .gt) ∧
      sortBy (lessBy compare) 3 middlePivot #[5, 3, 3, 1, 4, 1, 5] =
        insertionSort (lessBy compare) split ∧
      ∃ counts, (List.range split.size).mapM (shifts (lessBy compare) split) = some counts ∧
        counts.length = 7 ∧ (∀ count ∈ counts, count ≤ max 2 3 - 2) ∧
        counts.sum ≤ 7 * (max 2 3 - 2) :=
  quickSort_leaves_few_shifts compare 3 middlePivot #[5, 3, 3, 1, 4, 1, 5]

end BoundedMerge.Sorting
