import BoundedMerge.Proofs.Strategy.Weights
import Mathlib.Data.List.Sections

/-!
Pieces that are shuffled and then merged. What a merge writes says from which piece each record
came, so it says in which order the inputs were taken, and in which order each piece was. Whatever
permutation of all records is given, there is one arrangement of the pieces and one order of the
inputs that lead to it.
-/

namespace BoundedMerge.Interleave

variable {τ : Type} {origin : τ → Nat} {count i : Nat} {x : τ} {out : List τ}
  {runs pieces : List (List τ)} {order : List Nat} {words : List UInt32}

def parted (origin : τ → Nat) (count : Nat) (out : List τ) : List (List τ) :=
  (List.range count).map fun i => out.filter (origin · = i)

/-- Each record is of the run with the number that `origin` gives it. -/
def Stems (origin : τ → Nat) (runs : List (List τ)) : Prop :=
  ∀ i run, runs[i]? = some run → ∀ x ∈ run, origin x = i

theorem length_parted (origin : τ → Nat) (count : Nat) (out : List τ) :
    (parted origin count out).length = count := by
  rw [parted, List.length_map, List.length_range]

theorem getElem?_parted (h : i < count) (origin : τ → Nat) (out : List τ) :
    (parted origin count out)[i]? = some (out.filter (origin · = i)) := by
  rw [parted, List.getElem?_map, List.getElem?_range h, Option.map_some]

theorem parted_cons (origin : τ → Nat) (count : Nat) (x : τ) (out : List τ) :
    parted origin count (x :: out) = (parted origin count out).modify (origin x) (x :: ·) := by
  refine List.ext_getElem? fun i => ?_
  rw [List.getElem?_modify]
  by_cases hi : i < count
  · rw [getElem?_parted hi, getElem?_parted hi, List.filter_cons]
    by_cases hx : origin x = i <;> simp [hx]
  · rw [List.getElem?_eq_none (by rw [length_parted]; omega),
      List.getElem?_eq_none (by rw [length_parted]; omega)]
    rfl

theorem advanceOne_modify (runs : List (List τ)) (i : Nat) (x : τ) :
    Strategy.advanceOne (runs.modify i (x :: ·)) i = runs := by
  rw [advanceOne_eq_modify, List.modify_modify_eq]
  exact List.modify_id i runs

theorem modify_advanceOne {tail : List τ} (h : runs[i]? = some (x :: tail)) :
    (Strategy.advanceOne runs i).modify i (x :: ·) = runs := by
  obtain ⟨hi, hrun⟩ := List.getElem?_eq_some_iff.mp h
  rw [advanceOne_eq_modify, List.modify_modify_eq, List.modify_eq_set_getElem?, h]
  change runs.set i (x :: tail) = runs
  rw [← hrun, List.set_getElem_self]

/-- Dealing the parts of what came, in the order in which it came, gives it again. -/
theorem deal_parted (hout : ∀ x ∈ out, origin x < count) :
    deal (parted origin count out) (out.map origin) = out := by
  induction out with
  | nil => rfl
  | cons x out ih =>
    have hx : origin x < count := hout x List.mem_cons_self
    have hget : (parted origin count (x :: out))[origin x]? =
        some (x :: out.filter (origin · = origin x)) := by
      rw [getElem?_parted hx, List.filter_cons_of_pos (by simp)]
    rw [List.map_cons, deal_cons (x := x), parted_cons, advanceOne_modify,
      ih fun y hy => hout y (List.mem_cons_of_mem _ hy)]
    rw [List.getElem?_map, hget]
    rfl

theorem fits_nil (h : Fits (runs.map List.length) []) : ∀ run ∈ runs, run = [] :=
  fun _ hrun => List.eq_nil_of_length_eq_zero (fits_nil_iff.mp h _ (List.mem_map_of_mem hrun))

/-- The run that is first in the order has a record to give, and the rest of the order fits what is
left then. -/
theorem fits_cons (h : Fits (runs.map List.length) (i :: order)) :
    ∃ x tail, runs[i]? = some (x :: tail) ∧ (runs.map List.head?)[i]? = some (some x) ∧
      Fits ((Strategy.advanceOne runs i).map List.length) order := by
  obtain ⟨hpos, hrest⟩ := fits_cons_iff.mp h
  rw [← lengths_advanceOne] at hrest
  rw [List.getElem?_map] at hpos
  rcases hget : runs[i]? with _ | _ | ⟨x, tail⟩
  · simp [hget] at hpos
  · simp [hget] at hpos
  · refine ⟨x, tail, rfl, ?_, hrest⟩
    rw [List.getElem?_map, hget]
    rfl

theorem Stems.advanceOne (h : Stems origin runs) (i : Nat) :
    Stems origin (Strategy.advanceOne runs i) := by
  intro j run hrun x hx
  rw [advanceOne_eq_modify, List.getElem?_modify] at hrun
  obtain ⟨whole, hwhole, rfl⟩ := Option.map_eq_some_iff.mp hrun
  refine h j whole hwhole x ?_
  split at hx
  · exact List.mem_of_mem_tail hx
  · exact hx

/-- What is dealt tells the order and the runs. -/
theorem parted_deal (hstems : Stems origin runs) (hfits : Fits (runs.map List.length) order) :
    (deal runs order).map origin = order ∧ parted origin runs.length (deal runs order) = runs := by
  induction order generalizing runs with
  | nil =>
    refine ⟨rfl, ?_⟩
    rw [List.eq_replicate_of_mem (fits_nil hfits), List.length_replicate, deal, parted]
    simp [List.map_const']
  | cons i order ih =>
    obtain ⟨x, tail, hget, hhead, hrest⟩ := fits_cons hfits
    have hx : origin x = i := hstems i _ hget x List.mem_cons_self
    obtain ⟨horder, hparted⟩ := ih (hstems.advanceOne i) hrest
    rw [Strategy.length_advanceOne] at hparted
    rw [deal_cons _ hhead, List.map_cons, horder, hx, parted_cons, hparted, hx]
    exact ⟨rfl, modify_advanceOne hget⟩

theorem deal_perm (hfits : Fits (runs.map List.length) order) :
    (deal runs order).Perm runs.flatten := by
  induction order generalizing runs with
  | nil => rw [List.flatten_eq_nil_iff.mpr (fits_nil hfits), deal]
  | cons i order ih =>
    obtain ⟨x, tail, -, hhead, hrest⟩ := fits_cons hfits
    rw [deal_cons _ hhead]
    exact ((ih hrest).cons x).trans (Strategy.perm_advanceOne hhead)

/-- Records that are all different come from one piece each. -/
theorem exists_stems [DecidableEq τ] (hnodup : pieces.flatten.Nodup) :
    ∃ origin, Stems origin pieces := by
  induction pieces with
  | nil => exact ⟨fun _ => 0, fun i run hrun => by simp at hrun⟩
  | cons piece pieces ih =>
    rw [List.flatten_cons, List.nodup_append'] at hnodup
    obtain ⟨-, hpieces, hdisjoint⟩ := hnodup
    obtain ⟨origin, horigin⟩ := ih hpieces
    refine ⟨fun x => if x ∈ piece then 0 else origin x + 1, fun i run hrun x hx => ?_⟩
    cases i with
    | zero =>
      rw [List.getElem?_cons_zero, Option.some.injEq] at hrun
      exact if_pos (hrun ▸ hx)
    | succ i =>
      rw [List.getElem?_cons_succ] at hrun
      have hmem : x ∈ pieces.flatten := List.mem_flatten.mpr ⟨run, List.mem_of_getElem? hrun, hx⟩
      change (if x ∈ piece then 0 else origin x + 1) = i + 1
      rw [if_neg fun h => hdisjoint h hmem, horigin i run hrun x hx]

theorem Stems.of_perm (h : Stems origin pieces) (hperm : List.Forall₂ List.Perm runs pieces) :
    Stems origin runs := by
  intro i run hrun x hx
  obtain ⟨hi, rfl⟩ := List.getElem?_eq_some_iff.mp hrun
  have hi' : i < pieces.length := hperm.length_eq ▸ hi
  exact h i _ (List.getElem?_eq_getElem hi') x ((hperm.get hi hi').mem_iff.mp hx)

theorem filter_perm (hstems : Stems origin pieces) (hnodup : pieces.flatten.Nodup)
    (hout : out.Perm pieces.flatten) {piece : List τ} (hpiece : pieces[i]? = some piece) :
    (out.filter (origin · = i)).Perm piece := by
  have hmem := List.mem_of_getElem? hpiece
  rw [List.perm_ext_iff_of_nodup ((hout.nodup_iff.mpr hnodup).filter _)
    ((List.nodup_flatten.mp hnodup).1 piece hmem)]
  intro x
  rw [List.mem_filter, hout.mem_iff, List.mem_flatten, decide_eq_true_iff]
  constructor
  · intro h
    obtain ⟨⟨other, hother, hx⟩, horigin⟩ := h
    obtain ⟨j, hj⟩ := List.mem_iff_getElem?.mp hother
    obtain rfl : j = i := (hstems j other hj x hx).symm.trans horigin
    obtain rfl := Option.some.inj (hj.symm.trans hpiece)
    exact hx
  · exact fun hx => ⟨⟨piece, hmem, hx⟩, hstems i piece hpiece x hx⟩

/-- Every permutation of the records is dealt from some arrangement of the pieces. -/
theorem exists_deal (hstems : Stems origin pieces) (hnodup : pieces.flatten.Nodup)
    (hout : out.Perm pieces.flatten) :
    ∃ runs order, List.Forall₂ List.Perm runs pieces ∧ Fits (pieces.map List.length) order ∧
      deal runs order = out := by
  refine ⟨parted origin pieces.length out, out.map origin, ?_, fun i => ?_, deal_parted ?_⟩
  · rw [List.forall₂_iff_get]
    refine ⟨length_parted _ _ _, fun i hi hi' => ?_⟩
    have hpart := getElem?_parted hi' origin out
    obtain ⟨_, hget⟩ := List.getElem?_eq_some_iff.mp hpart
    rw [List.get_eq_getElem, hget]
    exact filter_perm hstems hnodup hout (List.getElem?_eq_getElem hi')
  · have hcount : (out.map origin).count i = (out.filter (origin · = i)).length := by
      rw [List.count_eq_countP, List.countP_map, List.countP_eq_length_filter]
      exact congrArg List.length (List.filter_congr fun x _ => beq_eq_decide (origin x) i)
    rw [hcount, List.getElem?_map]
    cases hpiece : pieces[i]? with
    | some piece => exact (filter_perm hstems hnodup hout hpiece).length_eq
    | none =>
      rw [Option.map_none, Option.getD_none, List.length_eq_zero_iff, List.filter_eq_nil_iff]
      intro x hx horigin
      obtain ⟨piece, hmem, hx⟩ := List.mem_flatten.mp (hout.mem_iff.mp hx)
      obtain ⟨j, hj⟩ := List.mem_iff_getElem?.mp hmem
      rw [← of_decide_eq_true horigin, hstems j piece hj x hx, hj] at hpiece
      cases hpiece
  · intro x hx
    obtain ⟨piece, hmem, hx⟩ := List.mem_flatten.mp (hout.mem_iff.mp hx)
    obtain ⟨j, hj⟩ := List.mem_iff_getElem?.mp hmem
    rw [hstems j piece hj x hx]
    exact (List.getElem?_eq_some_iff.mp hj).1

/-- What a merge of the runs writes if it draws these words. -/
def mergeBy (runs : List (List τ)) (words : List UInt32) : List τ :=
  deal runs (takes (runs.map List.length) words)

theorem mem_sections_permutations :
    runs ∈ (pieces.map List.permutations).sections ↔ List.Forall₂ List.Perm runs pieces := by
  rw [List.mem_sections, List.forall₂_map_right_iff]
  simp only [List.mem_permutations]

theorem nodup_sections {choices : List (List (List τ))} (h : ∀ choice ∈ choices, choice.Nodup) :
    choices.sections.Nodup := by
  induction choices with
  | nil => exact List.nodup_singleton _
  | cons choice choices ih =>
    have hchoice := h choice List.mem_cons_self
    have hrest := ih fun choice hmem => h choice (List.mem_cons_of_mem _ hmem)
    rw [List.sections, List.nodup_flatMap]
    refine ⟨fun runs _ => hchoice.map fun _ _ h => List.head_eq_of_cons_eq h, hrest.imp ?_⟩
    intro runs runs' hne both hmem hmem'
    obtain ⟨_, -, rfl⟩ := List.mem_map.mp hmem
    obtain ⟨_, -, h⟩ := List.mem_map.mp hmem'
    exact hne (List.tail_eq_of_cons_eq h).symm

theorem lengths_of_perm (h : List.Forall₂ List.Perm runs pieces) :
    runs.map List.length = pieces.map List.length := by
  induction h with
  | nil => rfl
  | cons hperm _ ih => rw [List.map_cons, List.map_cons, hperm.length_eq, ih]

theorem nodup_arrangements (hnodup : pieces.flatten.Nodup) :
    (pieces.map List.permutations).sections.Nodup := by
  refine nodup_sections fun choice hchoice => ?_
  obtain ⟨piece, hpiece, rfl⟩ := List.mem_map.mp hchoice
  exact List.nodup_permutations _ ((List.nodup_flatten.mp hnodup).1 piece hpiece)

/-- What is merged from an arrangement of the pieces tells the arrangement, and the order in which
the inputs were taken. -/
theorem told_of_mergeBy (hstems : Stems origin pieces) {runs' : List (List τ)}
    (hruns : List.Forall₂ List.Perm runs pieces) (hruns' : List.Forall₂ List.Perm runs' pieces)
    (hfits : Fits (pieces.map List.length) order)
    (hfits' : Fits (pieces.map List.length) (takes (pieces.map List.length) words))
    (h : mergeBy runs' words = deal runs order) :
    takes (pieces.map List.length) words = order ∧ runs' = runs := by
  rw [mergeBy, lengths_of_perm hruns'] at h
  rw [← lengths_of_perm hruns] at hfits
  rw [← lengths_of_perm hruns'] at hfits' h ⊢
  obtain ⟨horder, hparted⟩ := parted_deal (hstems.of_perm hruns) hfits
  obtain ⟨horder', hparted'⟩ := parted_deal (hstems.of_perm hruns') hfits'
  rw [h] at horder' hparted'
  rw [hruns'.length_eq, ← hruns.length_eq] at hparted'
  exact ⟨horder'.symm.trans horder, hparted'.symm.trans hparted⟩

variable [DecidableEq τ]

/-- How many arrangements of the pieces there are, each with how many rankings of the words, that
are merged into `out`. -/
def weight (pieces : List (List τ)) (words : List UInt32) (out : List τ) : Nat :=
  ((pieces.map List.permutations).sections.map fun runs =>
    words.permutations.countP (mergeBy runs · = out)).sum

/-- A permutation is merged from one arrangement of the pieces only, whenever the inputs are taken
in the one order that it tells. -/
theorem weight_deal (hnodup : pieces.flatten.Nodup) (hpending : ∀ piece ∈ pieces, piece ≠ [])
    (hlength : words.length = pieces.length + pieces.flatten.length)
    (hruns : List.Forall₂ List.Perm runs pieces) (hfits : Fits (pieces.map List.length) order) :
    weight pieces words (deal runs order) =
      words.permutations.countP (takes (pieces.map List.length) · = order) := by
  obtain ⟨origin, hstems⟩ := exists_stems hnodup
  have hpos : ∀ n ∈ pieces.map List.length, 0 < n := by
    intro n hn
    obtain ⟨piece, hpiece, rfl⟩ := List.mem_map.mp hn
    exact List.length_pos_of_ne_nil (hpending piece hpiece)
  have htold {runs' : List (List τ)} {ws : List UInt32} (hws : ws ∈ words.permutations)
      (hruns' : List.Forall₂ List.Perm runs' pieces) (h : mergeBy runs' ws = deal runs order) :
      takes (pieces.map List.length) ws = order ∧ runs' = runs := by
    refine told_of_mergeBy hstems hruns hruns' hfits (takes_fits hpos ?_) h
    rw [(List.mem_permutations.mp hws).length_eq, hlength, List.length_map, List.length_flatten]
  have hmem := mem_sections_permutations.mpr hruns
  -- No other arrangement contributes a ranking.
  have hothers : (((pieces.map List.permutations).sections.erase runs).map fun runs' =>
      words.permutations.countP (mergeBy runs' · = deal runs order)).sum = 0 := by
    refine List.sum_eq_zero fun n hn => ?_
    obtain ⟨runs', hruns', rfl⟩ := List.mem_map.mp hn
    rw [(nodup_arrangements hnodup).mem_erase_iff] at hruns'
    rw [List.countP_eq_zero]
    intro ws hws h
    exact hruns'.1 (htold hws (mem_sections_permutations.mp hruns'.2) (of_decide_eq_true h)).2
  rw [weight, ((List.perm_cons_erase hmem).map _).sum_eq, List.map_cons, List.sum_cons, hothers,
    Nat.add_zero]
  refine List.countP_congr fun ws hws => ?_
  rw [decide_eq_true_iff, decide_eq_true_iff]
  constructor
  · exact fun h => (htold hws hruns h).1
  · intro h
    rw [mergeBy, lengths_of_perm hruns, h]

end BoundedMerge.Interleave
