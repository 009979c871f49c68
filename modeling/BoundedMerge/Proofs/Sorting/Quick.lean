import BoundedMerge.Proofs.Sorting.Insertion
import BoundedMerge.Proofs.Sorting.Split
import BoundedMerge.Sorting.Basic

/-!
The sort of a run. Splitting never fails and only moves records, whichever pivots are chosen and
wherever splitting ends. It leaves segments that are too short to be split, with no record greater
than one of a later segment, and the insertion pass puts the whole run in order.
-/

namespace BoundedMerge.Sorting

variable {τ : Type} {less : τ → τ → Bool}

/-- The run consists of segments of fewer than `limit` records, and no record is greater than one
of a later segment. -/
def Segmented (less : τ → τ → Bool) (limit : Nat) (run : List τ) : Prop :=
  ∃ segments : List (List τ), run = segments.flatten ∧
    (∀ segment ∈ segments, segment.length < limit) ∧
    segments.Pairwise fun front back => ∀ x ∈ front, ∀ y ∈ back, less y x = false

theorem Segmented.append {limit : Nat} {low high : List τ} (hlow : Segmented less limit low)
    (hhigh : Segmented less limit high) (h : ∀ x ∈ low, ∀ y ∈ high, less y x = false) :
    Segmented less limit (low ++ high) := by
  obtain ⟨lows, rfl, hlows, hlowOrder⟩ := hlow
  obtain ⟨highs, rfl, hhighs, hhighOrder⟩ := hhigh
  refine ⟨lows ++ highs, List.flatten_append.symm, fun segment hsegment => ?_, ?_⟩
  · rcases List.mem_append.mp hsegment with hsegment | hsegment
    · exact hlows segment hsegment
    · exact hhighs segment hsegment
  · rw [List.pairwise_append]
    refine ⟨hlowOrder, hhighOrder, fun front hfront back hback x hx y hy => ?_⟩
    exact h x (List.mem_flatten_of_mem hfront hx) y (List.mem_flatten_of_mem hback hy)

/-- In any order splitting only moves records. -/
theorem quickSort_perm {threshold : Nat} {pivots : PivotChoice} {path : List Bool}
    {data data' : Array τ} (h : quickSort less threshold pivots path data = some data') :
    data'.Perm data := by
  induction hsize : data.size using Nat.strongRecOn generalizing path data data' with
  | ind size ih =>
    subst hsize
    rw [quickSort] at h
    split at h
    · rw [Option.some.injEq] at h
      rw [h]
    · split at h
      · contradiction
      · next last split hpartition =>
        simp only at h
        split at h
        · next hparts =>
          split at h
          · contradiction
          · next low hlow =>
            split at h
            · contradiction
            · next high hhigh =>
              rw [Option.some.injEq] at h
              rw [← h]
              have hboth := (ih _ hparts.1 hlow rfl).append (ih _ hparts.2 hhigh rfl)
              have hwhole : split.extract 0 (last + 1) ++ split.extract (last + 1) split.size =
                  split := by
                rw [Array.extract_append_extract, Nat.zero_min, Array.extract_eq_self_of_le]
                omega
              rw [hwhole] at hboth
              exact hboth.trans (partition_perm hpartition)
        · contradiction

/-- Around a pivot no record of the lower part is greater than one of the upper part. -/
theorem extract_parts (hc : Consistent less) {data : Array τ} {last : Nat} {pivot : τ}
    (hlow : ∀ i, i ≤ last → NotAbove less pivot data i)
    (hhigh : ∀ i, last < i → NotBelow less pivot data i) :
    ∀ x ∈ data.extract 0 (last + 1), ∀ y ∈ data.extract (last + 1) data.size,
      less y x = false := by
  intro x hx y hy
  obtain ⟨i, hi, hxi⟩ := Array.mem_extract_iff_getElem.mp hx
  obtain ⟨j, hj, hyj⟩ := Array.mem_extract_iff_getElem.mp hy
  have hx' : less pivot x = false := by
    refine hlow (0 + i) (by omega) x ?_
    rw [← hxi]
    exact Array.getElem?_eq_getElem _
  have hy' : less y pivot = false := by
    refine hhigh (last + 1 + j) (by omega) y ?_
    rw [← hyj]
    exact Array.getElem?_eq_getElem _
  exact hc.trans x pivot y hy' hx'

/-- Splitting comes to an end without a step off the run, and leaves it in short segments. -/
theorem quickSort_segmented (hc : Consistent less) {threshold : Nat} (hthreshold : 2 ≤ threshold)
    (pivots : PivotChoice) (path : List Bool) (data : Array τ) :
    ∃ data', quickSort less threshold pivots path data = some data' ∧
      Segmented less threshold data'.toList := by
  induction hsize : data.size using Nat.strongRecOn generalizing path data with
  | ind size ih =>
    subst hsize
    rw [quickSort]
    by_cases hshort : data.size < threshold
    · rw [if_pos hshort]
      refine ⟨data, rfl, [data.toList], by simp, fun segment hsegment => ?_,
        List.pairwise_singleton _ _⟩
      rwa [List.mem_singleton.mp hsegment, Array.length_toList]
    · rw [if_neg hshort]
      have hpivot : pivots path data.size % data.size < data.size := Nat.mod_lt _ (by omega)
      obtain ⟨last, data', pivot, hpartition, hlast, hbelow, habove⟩ :=
        partition_splits hc hpivot (by omega)
      have hparts := extract_parts hc hbelow habove
      have hsize := (partition_perm hpartition).size_eq
      have hlow : (data'.extract 0 (last + 1)).size < data.size := by
        rw [Array.size_extract]
        omega
      have hhigh : (data'.extract (last + 1) data'.size).size < data.size := by
        rw [Array.size_extract]
        omega
      obtain ⟨low, hlowSort, hlowSegs⟩ := ih _ hlow (false :: path) _ rfl
      obtain ⟨high, hhighSort, hhighSegs⟩ := ih _ hhigh (true :: path) _ rfl
      simp only [hpartition, dif_pos (And.intro hlow hhigh), hlowSort, hhighSort]
      refine ⟨low ++ high, rfl, ?_⟩
      rw [Array.toList_append]
      refine hlowSegs.append hhighSegs fun x hx y hy => ?_
      exact hparts x ((quickSort_perm hlowSort).mem_iff.mp (Array.mem_toList_iff.mp hx)) y
        ((quickSort_perm hhighSort).mem_iff.mp (Array.mem_toList_iff.mp hy))

/-- In any order the sort only moves records. -/
theorem sortBy_perm {threshold : Nat} {pivots : PivotChoice} {data data' : Array τ}
    (h : sortBy less threshold pivots data = some data') : data'.Perm data := by
  obtain ⟨split, hsplit, hinsert⟩ := Option.bind_eq_some_iff.mp h
  obtain ⟨inserted, hinserted, hperm, -⟩ := insertionSort_sorts less split
  rw [hinsert, Option.some.injEq] at hinserted
  rw [hinserted]
  exact hperm.trans (quickSort_perm hsplit)

theorem sortBy_pairwise (hc : Consistent less) (threshold : Nat) (pivots : PivotChoice)
    (data : Array τ) :
    ∃ data', sortBy less threshold pivots data = some data' ∧ data'.Perm data ∧
      data'.toList.Pairwise fun a b => less b a = false := by
  obtain ⟨split, hsplit, -⟩ := quickSort_segmented hc (Nat.le_max_left 2 threshold) pivots [] data
  obtain ⟨data', hinsert, hperm, horder⟩ := insertionSort_sorts less split
  refine ⟨data', ?_, hperm.trans (quickSort_perm hsplit), horder hc⟩
  rw [sortBy, hsplit, Option.bind_some, hinsert]

/-- The sort gives the records in order, whatever the pivots and the threshold. -/
theorem sortBy_sorts (cmp : τ → τ → Ordering) [Std.TransCmp cmp] (threshold : Nat)
    (pivots : PivotChoice) (data : Array τ) :
    ∃ data', sortBy (lessBy cmp) threshold pivots data = some data' ∧ data'.Perm data ∧
      Ascending cmp data'.toList := by
  obtain ⟨data', hsort, hperm, horder⟩ :=
    sortBy_pairwise (consistent_of_cmp cmp) threshold pivots data
  exact ⟨data', hsort, hperm, horder.imp fun h => (lessBy_eq_false cmp _ _).mp h⟩

/-- If only equal records compare equal, the records are in order in one way. -/
theorem sortBy_unique (cmp : τ → τ → Ordering) [Std.TransCmp cmp] [Std.LawfulEqCmp cmp]
    (threshold threshold' : Nat) (pivots pivots' : PivotChoice) (data : Array τ) :
    sortBy (lessBy cmp) threshold pivots data = sortBy (lessBy cmp) threshold' pivots' data := by
  obtain ⟨first, hfirst, hperm, horder⟩ := sortBy_sorts cmp threshold pivots data
  obtain ⟨second, hsecond, hperm', horder'⟩ := sortBy_sorts cmp threshold' pivots' data
  have hlists : first.toList = second.toList := by
    refine List.Perm.eq_of_pairwise (fun a b _ _ hab hba => ?_) horder horder'
      (hperm.trans hperm'.symm).toList
    exact Std.LawfulEqCmp.eq_of_compare (Std.OrientedCmp.isLE_antisymm hab hba)
  rw [hfirst, hsecond, Array.toList_inj.mp hlists]

/-- The natural order and the comparison that belongs to it sort alike. -/
theorem sort_eq_sortBy [Ord τ] [LT τ] [DecidableLT τ] (hlt : ∀ a b : τ, a < b ↔ compare a b = .lt)
    (threshold : Nat) (pivots : PivotChoice) (data : Array τ) :
    sort threshold pivots data = sortBy (lessBy compare) threshold pivots data := by
  have hless : (fun a b : τ => decide (a < b)) = lessBy compare := by
    funext a b
    simp only [hlt, lessBy, beq_eq_decide]
  rw [sort, hless]

/-- For every threshold and every choice of pivots the sort comes to an end, on no way off the
run, and leaves the records in order; so does the sort by the natural order. Where only equal
records compare equal, neither the pivots nor the threshold nor the flavour shows. -/
theorem sort_whatever_the_pivots :
    (∀ {τ : Type} (cmp : τ → τ → Ordering) [Std.TransCmp cmp] (threshold : Nat)
      (pivots : PivotChoice) (data : Array τ),
      ∃ sorted, sortBy (lessBy cmp) threshold pivots data = some sorted ∧ sorted.Perm data ∧
        sorted.toList.Pairwise fun a b => cmp b a ≠ .lt) ∧
    (∀ {τ : Type} [Ord τ] [Std.TransOrd τ] [LT τ] [DecidableLT τ],
      (∀ a b : τ, a < b ↔ compare a b = .lt) →
      ∀ (threshold : Nat) (pivots : PivotChoice) (data : Array τ),
        ∃ sorted, sort threshold pivots data = some sorted ∧ sorted.Perm data ∧
          sorted.toList.Pairwise fun a b => ¬b < a) ∧
    (∀ {τ : Type} (cmp : τ → τ → Ordering) [Std.TransCmp cmp] [Std.LawfulEqCmp cmp]
      (threshold threshold' : Nat) (pivots pivots' : PivotChoice) (data : Array τ),
      sortBy (lessBy cmp) threshold pivots data = sortBy (lessBy cmp) threshold' pivots' data) ∧
    (∀ {τ : Type} [Ord τ] [Std.TransOrd τ] [Std.LawfulEqOrd τ] [LT τ] [DecidableLT τ],
      (∀ a b : τ, a < b ↔ compare a b = .lt) →
      ∀ (threshold threshold' : Nat) (pivots pivots' : PivotChoice) (data : Array τ),
        sort threshold pivots data = sort threshold' pivots' data ∧
        sort threshold pivots data = sortBy (lessBy compare) threshold' pivots' data) := by
  refine ⟨?_, ?_, ?_, ?_⟩
  · intro τ cmp _ threshold pivots data
    obtain ⟨sorted, hsort, hperm, horder⟩ :=
      sortBy_pairwise (consistent_of_cmp cmp) threshold pivots data
    exact ⟨sorted, hsort, hperm, horder.imp fun h => by simpa [lessBy] using h⟩
  · intro τ _ _ _ _ hlt threshold pivots data
    obtain ⟨sorted, hsort, hperm, horder⟩ :=
      sortBy_pairwise (consistent_of_cmp (compare : τ → τ → Ordering)) threshold pivots data
    refine ⟨sorted, ?_, hperm, horder.imp fun h => ?_⟩
    · rw [sort_eq_sortBy hlt, hsort]
    · rw [hlt]
      simpa [lessBy] using h
  · intro τ cmp _ _ threshold threshold' pivots pivots' data
    exact sortBy_unique cmp threshold threshold' pivots pivots' data
  · intro τ _ _ _ _ _ hlt threshold threshold' pivots pivots' data
    rw [sort_eq_sortBy hlt, sort_eq_sortBy hlt]
    exact ⟨sortBy_unique compare threshold threshold' pivots pivots' data,
      sortBy_unique compare threshold threshold' pivots pivots' data⟩

/-- Numbers with duplicates, split down to the last pair, and pivots from either end. -/
theorem sort_whatever_the_pivots_numbers :
    (∃ sorted, sort 0 middlePivot #[5, 3, 3, 1, 4, 1] = some sorted ∧
      sorted.Perm #[5, 3, 3, 1, 4, 1] ∧ sorted.toList.Pairwise fun a b : Nat => ¬b < a) ∧
    sort 0 middlePivot #[5, 3, 3, 1, 4, 1] =
      sortBy (lessBy (compare : Nat → Nat → Ordering)) 10 (fun _ _ => 0) #[5, 3, 3, 1, 4, 1] := by
  have hlt (a b : Nat) : a < b ↔ compare a b = .lt := Nat.compare_eq_lt.symm
  exact ⟨sort_whatever_the_pivots.2.1 hlt 0 middlePivot _,
    (sort_whatever_the_pivots.2.2.2 hlt 0 10 middlePivot (fun _ _ => 0) _).2⟩

end BoundedMerge.Sorting
