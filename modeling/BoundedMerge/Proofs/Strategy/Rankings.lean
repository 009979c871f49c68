import Mathlib.Data.List.Permutation
import Mathlib.Data.List.Lattice
import Mathlib.Data.Finset.Max
import Mathlib.Data.Nat.Factorial.Basic
import Mathlib.Algebra.BigOperators.Ring.List
import Mathlib.Algebra.Ring.Nat

/-!
Counting arrangements of words. In an arrangement some places are marked, and a marked word must be
greater than all words behind it. Of all arrangements of different words, each mark leaves one in
as many as there are words from it on, whatever the other marks are.
-/

namespace BoundedMerge.Rankings

open scoped Nat

/-- Where there is a mark, the word is greater than all words behind it. -/
def peaks : List Bool → List UInt32 → Bool
  | mark :: marks, word :: later => (!mark || later.all (· < word)) && peaks marks later
  | _, _ => true

/-- For each mark the number of words from it on, of so many, all multiplied. -/
def spread : List Bool → Nat → Nat
  | mark :: marks, count + 1 => (if mark then count + 1 else 1) * spread marks count
  | _, _ => 1

variable {words : List UInt32}

/-- An arrangement begins with some word, and what follows is an arrangement of the others. -/
theorem permutations_perm_flatMap (hnodup : words.Nodup) (hne : words ≠ []) :
    words.permutations.Perm
      (words.flatMap fun word => (words.erase word).permutations.map (word :: ·)) := by
  rw [List.perm_ext_iff_of_nodup (List.nodup_permutations words hnodup)]
  · intro arrangement
    simp only [List.mem_permutations, List.mem_flatMap, List.mem_map]
    cases arrangement with
    | nil => simp [hne]
    | cons word later =>
      rw [List.cons_perm_iff_perm_erase]
      simp
  · rw [List.nodup_flatMap]
    constructor
    · intro word _
      exact (List.nodup_permutations _ (hnodup.erase word)).map
        fun _ _ h => List.tail_eq_of_cons_eq h
    · refine hnodup.imp fun {a b} hab => ?_
      intro arrangement ha hb
      obtain ⟨_, -, rfl⟩ := List.mem_map.mp ha
      obtain ⟨_, -, h⟩ := List.mem_map.mp hb
      exact hab (List.head_eq_of_cons_eq h).symm

/-- Among different words one is greater than all others. -/
theorem exists_greatest (hne : words ≠ []) :
    ∃ greatest ∈ words, ∀ word ∈ words, word ≠ greatest → word < greatest := by
  obtain ⟨greatest, hmem, hle⟩ := words.toFinset.exists_max_image UInt32.toNat
    (by simpa [List.toFinset_nonempty_iff] using hne)
  refine ⟨greatest, List.mem_toFinset.mp hmem, fun word hword hother => ?_⟩
  have hlt := lt_of_le_of_ne (hle word (List.mem_toFinset.mpr hword))
    fun h => hother (UInt32.toNat_inj.mp h)
  exact UInt32.lt_iff_toNat_lt.mpr hlt

def beginning (mark : Bool) (marks : List Bool) (words : List UInt32) (word : UInt32) : Nat :=
  (words.erase word).permutations.countP fun later =>
    (!mark || later.all (· < word)) && peaks marks later

theorem countP_peaks_cons (mark : Bool) (marks : List Bool) (hnodup : words.Nodup)
    (hne : words ≠ []) :
    words.permutations.countP (peaks (mark :: marks)) =
      (words.map (beginning mark marks words)).sum := by
  rw [(permutations_perm_flatMap hnodup hne).countP_eq, List.countP_flatMap]
  congr 1
  refine List.map_congr_left fun word _ => ?_
  rw [Function.comp_apply, List.countP_map]
  rfl

/-- Any word can stand where there is no mark. -/
theorem beginning_unmarked (marks : List Bool) (word : UInt32) :
    beginning false marks words word = (words.erase word).permutations.countP (peaks marks) := by
  simp [beginning]

/-- The greatest word can stand at a mark. -/
theorem beginning_greatest (marks : List Bool) {greatest : UInt32} (hnodup : words.Nodup)
    (hgreatest : ∀ word ∈ words, word ≠ greatest → word < greatest) :
    beginning true marks words greatest =
      (words.erase greatest).permutations.countP (peaks marks) := by
  refine List.countP_congr fun later hlater => ?_
  have hall : later.all (· < greatest) = true := by
    rw [List.all_eq_true]
    intro word hword
    have hmem := (List.mem_permutations.mp hlater).mem_iff.mp hword
    rw [hnodup.mem_erase_iff] at hmem
    exact decide_eq_true (hgreatest word hmem.2 hmem.1)
  simp [hall]

/-- No other word can. -/
theorem beginning_other (marks : List Bool) {greatest word : UInt32} (hmem : greatest ∈ words)
    (hother : word ≠ greatest) (hlt : word < greatest) : beginning true marks words word = 0 := by
  rw [beginning, List.countP_eq_zero]
  intro later hlater hpeaks
  have hmem' : greatest ∈ later :=
    (List.mem_permutations.mp hlater).mem_iff.mpr ((List.mem_erase_of_ne hother.symm).mpr hmem)
  have hall : later.all (· < word) = true := by
    cases h : later.all (· < word) <;> simp_all
  have hgreater : greatest < word := of_decide_eq_true (List.all_eq_true.mp hall _ hmem')
  exact UInt32.lt_irrefl _ (UInt32.lt_trans hlt hgreater)

/-- Each mark leaves one arrangement in as many as there are words from it on. -/
theorem countP_peaks (marks : List Bool) (hnodup : words.Nodup) :
    words.permutations.countP (peaks marks) * spread marks words.length = words.length ! := by
  induction marks generalizing words with
  | nil =>
    have hall : words.permutations.countP (peaks []) = words.permutations.length :=
      List.countP_eq_length.mpr fun _ _ => rfl
    rw [hall, List.length_permutations, spread, Nat.mul_one]
    simp
  | cons mark marks ih =>
    by_cases hne : words = []
    · subst hne
      simp [peaks, spread]
    obtain ⟨count, hcount⟩ := Nat.exists_eq_add_one_of_ne_zero (List.length_pos_of_ne_nil hne).ne'
    have hrest (word : UInt32) (hword : word ∈ words) :
        (words.erase word).permutations.countP (peaks marks) * spread marks count = count ! := by
      have hlength : (words.erase word).length = count := by
        rw [List.length_erase_of_mem hword, hcount, Nat.add_sub_cancel]
      rw [← hlength]
      exact ih (hnodup.erase word)
    rw [countP_peaks_cons mark marks hnodup hne, hcount, spread, Nat.factorial_succ]
    cases mark with
    | false =>
      have heach (word : UInt32) (hword : word ∈ words) :
          beginning false marks words word * spread marks count = count ! := by
        rw [beginning_unmarked]
        exact hrest word hword
      rw [if_neg Bool.false_ne_true, Nat.one_mul]
      calc
        (words.map (beginning false marks words)).sum * spread marks count
          = (words.map fun word => beginning false marks words word * spread marks count).sum :=
            (List.sum_map_mul_right _ _ _).symm
        _ = (words.map fun _ => count !).sum := by rw [List.map_congr_left heach]
        _ = (count + 1) * count ! := by
            rw [List.map_const', List.sum_replicate_nat, hcount]
    | true =>
      obtain ⟨greatest, hmem, hgreatest⟩ := exists_greatest hne
      have hothers : ((words.erase greatest).map (beginning true marks words)).sum = 0 := by
        refine List.sum_eq_zero fun n hn => ?_
        obtain ⟨word, hword, rfl⟩ := List.mem_map.mp hn
        rw [hnodup.mem_erase_iff] at hword
        exact beginning_other marks hmem hword.1 (hgreatest word hword.2 hword.1)
      rw [if_pos rfl, ((List.perm_cons_erase hmem).map _).sum_eq, List.map_cons, List.sum_cons,
        hothers, Nat.add_zero, beginning_greatest marks hnodup hgreatest, ← hrest greatest hmem,
        Nat.mul_left_comm]

end BoundedMerge.Rankings
