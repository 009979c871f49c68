import BoundedMerge.Proofs.Order
import BoundedMerge.Sorting.Insertion
import Mathlib.Data.List.Induction

/-!
Insertion puts a run in order. The record that is inserted sinks past greater records only and
comes to rest behind one that is not greater; the records that were inserted before it are in
order, so it is in its place.
-/

namespace BoundedMerge.Sorting

variable {τ : Type} {less : τ → τ → Bool}

/-- A record sinks past greater records, to the first one that is not greater. -/
theorem sink_splits (less : τ → τ → Bool) (front : List τ) (x : τ) (rest : List τ) :
    ∃ low high, front = low ++ high ∧
      sink less (front ++ x :: rest).toArray front.length =
        some (low.length, (low ++ x :: (high ++ rest)).toArray) ∧
      (∀ y ∈ high, less x y = true) ∧ ∀ y, low.getLast? = some y → less x y = false := by
  induction front using List.reverseRecOn generalizing rest with
  | nil => exact ⟨[], [], rfl, rfl, by simp, by simp⟩
  | append_singleton front y ih =>
    have hin : front.length + 1 < (front ++ [y] ++ x :: rest).toArray.size := by simp
    have hx : (front ++ [y] ++ x :: rest).toArray[front.length + 1] = x := by simp
    have hy : (front ++ [y] ++ x :: rest).toArray[front.length] = y := by simp
    rw [List.length_append, List.length_singleton, sink, dif_pos hin, hx, hy]
    by_cases hless : less x y = true
    · have hswap : (front ++ [y] ++ x :: rest).toArray.swap (front.length + 1) front.length =
          (front ++ x :: (y :: rest)).toArray := by
        simp [List.swap_toArray]
      obtain ⟨low, high, hfront, hsink, hhigh, hlow⟩ := ih (y :: rest)
      refine ⟨low, high ++ [y], ?_, ?_, fun z hz => ?_, hlow⟩
      · rw [hfront, List.append_assoc]
      · rw [if_pos hless, hswap, hsink, List.append_assoc, List.singleton_append]
      · rcases List.mem_append.mp hz with hz | hz
        · exact hhigh z hz
        · rwa [List.mem_singleton.mp hz]
    · refine ⟨front ++ [y], [], (List.append_nil _).symm, ?_, by simp, fun z hz => ?_⟩
      · rw [if_neg hless, List.length_append, List.length_singleton, List.nil_append]
      · rw [List.getLast?_concat, Option.some.injEq] at hz
        rw [← hz]
        simpa using hless

/-- A record that sank past greater records only is in its place. -/
theorem pairwise_insert (hc : Consistent less) {low high : List τ} {x : τ}
    (horder : (low ++ high).Pairwise fun a b => less b a = false)
    (hhigh : ∀ y ∈ high, less x y = true)
    (hlow : ∀ y, low.getLast? = some y → less x y = false) :
    (low ++ x :: high).Pairwise fun a b => less b a = false := by
  obtain ⟨hlows, hhighs, hcross⟩ := List.pairwise_append.mp horder
  have hbelow (y : τ) (hy : y ∈ low) : less x y = false := by
    rcases List.eq_nil_or_concat low with rfl | ⟨before, last, rfl⟩
    · contradiction
    · rw [List.concat_eq_append] at hy hlows hlow
      have hlast := hlow last List.getLast?_concat
      rcases List.mem_append.mp hy with hy | hy
      · have hprev := (List.pairwise_append.mp hlows).2.2 y hy last (List.mem_singleton_self _)
        exact hc.trans y last x hlast hprev
      · rwa [List.mem_singleton.mp hy]
  rw [List.pairwise_append, List.pairwise_cons]
  refine ⟨hlows, ⟨fun y hy => hc.asymm _ _ (hhigh y hy), hhighs⟩, fun a ha b hb => ?_⟩
  rcases List.mem_cons.mp hb with rfl | hb
  · exact hbelow a ha
  · exact hcross a ha b hb

/-- The first `count` records of a run after they were inserted. -/
structure Inserted (less : τ → τ → Bool) (data : Array τ) (count : Nat) (front : List τ) :
    Prop where
  run : insertUpTo less data count = some (front ++ data.toList.drop count).toArray
  perm : front.Perm (data.toList.take count)
  ordered : Consistent less → front.Pairwise fun a b => less b a = false

theorem Inserted.length_eq {data : Array τ} {count : Nat} {front : List τ}
    (h : Inserted less data count front) (hcount : count ≤ data.size) : front.length = count := by
  rw [h.perm.length_eq, List.length_take, Array.length_toList, Nat.min_eq_left hcount]

/-- The next record to be inserted sinks to its place among those that were. -/
theorem Inserted.sinks {data : Array τ} {count : Nat} {front : List τ}
    (h : Inserted less data count front) (hcount : count < data.size) :
    ∃ low high, front = low ++ high ∧
      sink less (front ++ data.toList.drop count).toArray count =
        some (low.length, (low ++ data[count] :: (high ++ data.toList.drop (count + 1))).toArray) ∧
      (∀ y ∈ high, less data[count] y = true) ∧
      ∀ y, low.getLast? = some y → less data[count] y = false := by
  obtain ⟨low, high, hfront, hsink, hhigh, hlow⟩ :=
    sink_splits less front data[count] (data.toList.drop (count + 1))
  refine ⟨low, high, hfront, ?_, hhigh, hlow⟩
  rw [h.length_eq (Nat.le_of_lt hcount)] at hsink
  rw [List.drop_eq_getElem_cons (by rwa [Array.length_toList]), Array.getElem_toList]
  exact hsink

theorem exists_inserted (less : τ → τ → Bool) (data : Array τ) (count : Nat)
    (hcount : count ≤ data.size) : ∃ front, Inserted less data count front := by
  induction count with
  | zero => exact ⟨[], rfl, List.Perm.refl _, fun _ => List.Pairwise.nil⟩
  | succ count ih =>
    obtain ⟨front, h⟩ := ih (by omega)
    obtain ⟨low, high, hfront, hsink, hhigh, hlow⟩ := h.sinks hcount
    refine ⟨low ++ data[count] :: high, ?_, ?_, fun hc => ?_⟩
    · have hrun := h.run
      rw [insertUpTo] at hrun ⊢
      rw [List.range_succ, List.foldlM_append, hrun]
      simp only [Option.bind_eq_bind, Option.bind_some, List.foldlM_cons, List.foldlM_nil, hsink,
        Option.map_some, Option.pure_def, List.append_assoc, List.cons_append]
    · rw [List.take_add_one, List.getElem?_eq_getElem (by rwa [Array.length_toList]),
        Array.getElem_toList, Option.toList_some]
      have hperm := h.perm
      rw [hfront] at hperm
      exact List.perm_middle.trans ((hperm.cons _).trans (List.perm_append_singleton _ _).symm)
    · have horder := h.ordered hc
      rw [hfront] at horder
      exact pairwise_insert hc horder hhigh hlow

/-- In any order the pass only moves records, and comes to an end. -/
theorem insertionSort_sorts (less : τ → τ → Bool) (data : Array τ) :
    ∃ data', insertionSort less data = some data' ∧ data'.Perm data ∧
      (Consistent less → data'.toList.Pairwise fun a b => less b a = false) := by
  obtain ⟨front, h⟩ := exists_inserted less data data.size (Nat.le_refl _)
  have hrun := h.run
  have hperm := h.perm
  rw [← Array.length_toList, List.drop_length, List.append_nil] at hrun
  rw [← Array.length_toList, List.take_length] at hperm
  exact ⟨front.toArray, hrun, Array.perm_iff_toList_perm.mpr hperm, h.ordered⟩

end BoundedMerge.Sorting
