import BoundedMerge.Proofs.Order
import BoundedMerge.Selection

/-!
The heap of a selection. Sifting only moves nodes, so pushing and popping add and take one node
whatever the order is. If the order is consistent, sifting up repairs a heap that is broken above
one place and sifting down one that is broken below one place, and the first node of a heap
comes after no other.
-/

namespace BoundedMerge.Heap

variable {κ : Type}

def InOrder (before : κ → κ → Bool) (nodes : Array κ) : Prop :=
  ∀ i, 0 < i → Behind before nodes i ((i - 1) / 2)

/-- Only the node at `pos` may come before its parent, and no child of it does. -/
structure BrokenAbove (before : κ → κ → Bool) (nodes : Array κ) (pos : Nat) : Prop where
  others : ∀ i, 0 < i → i ≠ pos → Behind before nodes i ((i - 1) / 2)
  skipping : ∀ i, 0 < i → 0 < pos → (i - 1) / 2 = pos → Behind before nodes i ((pos - 1) / 2)

/-- Only children of the node at `pos` may come before it, and none comes before its parent. -/
structure BrokenBelow (before : κ → κ → Bool) (nodes : Array κ) (pos : Nat) : Prop where
  others : ∀ i, 0 < i → (i - 1) / 2 ≠ pos → Behind before nodes i ((i - 1) / 2)
  skipping : ∀ i, 0 < i → 0 < pos → (i - 1) / 2 = pos → Behind before nodes i ((pos - 1) / 2)

variable {before : κ → κ → Bool} {nodes : Array κ} {pos : Nat}

theorem siftUp_perm (before : κ → κ → Bool) (nodes : Array κ) (pos : Nat) :
    (siftUp before nodes pos).Perm nodes := by
  induction nodes, pos using siftUp.induct before with
  | case1 nodes pos h parent hparent hbefore ih =>
    rw [siftUp, dif_pos h, if_pos hbefore]
    exact ih.trans (Array.swap_perm h.2 hparent)
  | case2 nodes pos h parent hparent hbefore =>
    rw [siftUp, dif_pos h, if_neg hbefore]
  | case3 nodes pos h => rw [siftUp, dif_neg h]

theorem BrokenAbove.swap (hc : Consistent before) (h : BrokenAbove before nodes pos)
    (hpos : 0 < pos) (hlt : pos < nodes.size) (hparent : (pos - 1) / 2 < nodes.size)
    (hbefore : before nodes[pos] nodes[(pos - 1) / 2] = true) :
    BrokenAbove before (nodes.swap pos ((pos - 1) / 2)) ((pos - 1) / 2) := by
  have hup := behind_of_before hc hlt hparent hbefore
  constructor
  · intro i hi hne
    rw [behind_swap hlt hparent]
    by_cases hipos : i = pos
    · simpa [exchange, hipos, show (pos - 1) / 2 ≠ pos by omega] using hup
    · by_cases hchild : (i - 1) / 2 = pos
      · simpa [exchange, hipos, hne, hchild] using h.skipping i hi hpos hchild
      · have hi' := h.others i hi hipos
        by_cases hsibling : (i - 1) / 2 = (pos - 1) / 2
        · rw [hsibling] at hi'
          simpa [exchange, hipos, hne, hsibling, show (pos - 1) / 2 ≠ pos by omega] using
            hi'.trans hc hup hparent
        · simpa [exchange, hipos, hne, hchild, hsibling] using hi'
  · intro i hi hroot hchild
    rw [behind_swap hlt hparent]
    have hgrand := h.others ((pos - 1) / 2) hroot (by omega)
    have hself : exchange pos ((pos - 1) / 2) (((pos - 1) / 2 - 1) / 2) =
        ((pos - 1) / 2 - 1) / 2 := by
      rw [exchange, if_neg (by omega), if_neg (by omega)]
    rw [hself]
    by_cases hipos : i = pos
    · simpa [exchange, hipos] using hgrand
    · have hi' := h.others i hi hipos
      rw [hchild] at hi'
      simpa [exchange, hipos, show i ≠ (pos - 1) / 2 by omega] using hi'.trans hc hgrand hparent

theorem siftUp_inOrder (hc : Consistent before) (h : BrokenAbove before nodes pos) :
    InOrder before (siftUp before nodes pos) := by
  induction nodes, pos using siftUp.induct before with
  | case1 nodes pos hpos parent hparent hbefore ih =>
    rw [siftUp, dif_pos hpos, if_pos hbefore]
    exact ih (h.swap hc hpos.1 hpos.2 hparent hbefore)
  | case2 nodes pos hpos parent hparent hbefore =>
    rw [siftUp, dif_pos hpos, if_neg hbefore]
    intro i hi
    by_cases hipos : i = pos
    · intro a b ha hb
      rw [hipos, Array.getElem?_eq_getElem hpos.2, Option.some.injEq] at ha
      rw [hipos, Array.getElem?_eq_getElem hparent, Option.some.injEq] at hb
      rw [← ha, ← hb]
      simpa using hbefore
    · exact h.others i hi hipos
  | case3 nodes pos hpos =>
    rw [siftUp, dif_neg hpos]
    intro i hi
    by_cases hipos : i = pos
    · intro a b ha
      rw [hipos, Array.getElem?_eq_none (by omega)] at ha
      contradiction
    · exact h.others i hi hipos

theorem siftDown_perm (before : κ → κ → Bool) (nodes : Array κ) (pos : Nat) :
    (siftDown before nodes pos).Perm nodes := by
  induction nodes, pos using siftDown.induct before with
  | case1 nodes pos h least _ _ heq => rw [siftDown, dif_pos h, if_pos heq]
  | case2 nodes pos h least _ hleast hne ih =>
    rw [siftDown, dif_pos h, if_neg hne]
    exact ih.trans (Array.swap_perm h hleast)
  | case3 nodes pos h => rw [siftDown, dif_neg h]

theorem comesBefore_eq_false {i j : Nat} :
    leastOf.comesBefore before nodes i j = false ↔ Behind before nodes i j := by
  unfold leastOf.comesBefore Behind
  cases nodes[i]? <;> cases nodes[j]? <;> simp

theorem behind_of_comesBefore (hc : Consistent before) {i j : Nat}
    (h : leastOf.comesBefore before nodes i j = true) : Behind before nodes j i := by
  intro a b ha hb
  simp only [leastOf.comesBefore, ha, hb] at h
  exact hc.asymm _ _ h

/-- The least of a node and its children is the node itself or a child of it. -/
theorem leastOf_eq (before : κ → κ → Bool) (nodes : Array κ) (pos : Nat) :
    leastOf before nodes pos = pos ∨
      (leastOf before nodes pos - 1) / 2 = pos ∧ 0 < leastOf before nodes pos := by
  simp only [leastOf]
  split <;> split <;> omega

/-- Neither a node nor a child of it comes before the least of them. -/
theorem behind_leastOf (hc : Consistent before) (h : pos < nodes.size) :
    Behind before nodes pos (leastOf before nodes pos) ∧
      ∀ i, 0 < i → (i - 1) / 2 = pos → Behind before nodes i (leastOf before nodes pos) := by
  have hchildren (j : Nat) (hleft : Behind before nodes (2 * pos + 1) j)
      (hright : Behind before nodes (2 * pos + 1 + 1) j) :
      ∀ i, 0 < i → (i - 1) / 2 = pos → Behind before nodes i j := by
    intro i hi hchild
    have hcases : i = 2 * pos + 1 ∨ i = 2 * pos + 1 + 1 := by omega
    rcases hcases with rfl | rfl
    · exact hleft
    · exact hright
  simp only [leastOf]
  by_cases hleft : leastOf.comesBefore before nodes (2 * pos + 1) pos = true
  · rw [if_pos hleft]
    have hleft' := behind_of_comesBefore hc hleft
    by_cases hright : leastOf.comesBefore before nodes (2 * pos + 1 + 1) (2 * pos + 1) = true
    · rw [if_pos hright]
      have hright' := behind_of_comesBefore hc hright
      have hin : 2 * pos + 1 < nodes.size := by
        by_contra hout
        rw [leastOf.comesBefore, Array.getElem?_eq_none (by omega)] at hleft
        contradiction
      exact ⟨hleft'.trans hc hright' hin, hchildren _ hright' (Behind.refl hc _ _)⟩
    · rw [if_neg hright]
      rw [Bool.not_eq_true] at hright
      exact ⟨hleft', hchildren _ (Behind.refl hc _ _) (comesBefore_eq_false.mp hright)⟩
  · rw [if_neg hleft]
    rw [Bool.not_eq_true, comesBefore_eq_false] at hleft
    by_cases hright : leastOf.comesBefore before nodes (2 * pos + 1 + 1) pos = true
    · rw [if_pos hright]
      have hright' := behind_of_comesBefore hc hright
      exact ⟨hright', hchildren _ (hleft.trans hc hright' h) (Behind.refl hc _ _)⟩
    · rw [if_neg hright]
      rw [Bool.not_eq_true, comesBefore_eq_false] at hright
      exact ⟨Behind.refl hc _ _, hchildren _ hleft hright⟩

theorem BrokenBelow.swap (hc : Consistent before) (h : BrokenBelow before nodes pos)
    (hlt : pos < nodes.size) (hleast : leastOf before nodes pos < nodes.size)
    (hne : leastOf before nodes pos ≠ pos) :
    BrokenBelow before (nodes.swap pos (leastOf before nodes pos)) (leastOf before nodes pos) := by
  obtain ⟨hself, hchildren⟩ := behind_leastOf hc hlt
  obtain ⟨hparent, hpos⟩ := (leastOf_eq before nodes pos).resolve_left hne
  generalize leastOf before nodes pos = least at *
  constructor
  · intro i hi hi'
    rw [behind_swap hlt hleast]
    by_cases hipos : i = pos
    · have hgrand := h.skipping least hpos (by omega) hparent
      simpa [exchange, hipos, show (pos - 1) / 2 ≠ pos by omega,
        show (pos - 1) / 2 ≠ least by omega] using hgrand
    · by_cases hileast : i = least
      · simpa [exchange, hileast, hne, hparent] using hself
      · by_cases hchild : (i - 1) / 2 = pos
        · simpa [exchange, hipos, hileast, hchild] using hchildren i hi hchild
        · simpa [exchange, hipos, hileast, hchild, hi'] using h.others i hi hchild
  · intro i hi _ hchild
    rw [behind_swap hlt hleast, hparent]
    have hi' := h.others i hi (by omega)
    rw [hchild] at hi'
    simpa [exchange, show i ≠ pos by omega, show i ≠ least by omega] using hi'

theorem siftDown_inOrder (hc : Consistent before) (h : BrokenBelow before nodes pos) :
    InOrder before (siftDown before nodes pos) := by
  induction nodes, pos using siftDown.induct before with
  | case1 nodes pos hlt least _ _ heq =>
    rw [siftDown, dif_pos hlt, if_pos heq]
    intro i hi
    by_cases hchild : (i - 1) / 2 = pos
    · have hi' := (behind_leastOf hc hlt).2 i hi hchild
      rw [show leastOf before nodes pos = pos from heq] at hi'
      rwa [hchild]
    · exact h.others i hi hchild
  | case2 nodes pos hlt least _ hleast hne ih =>
    rw [siftDown, dif_pos hlt, if_neg hne]
    exact ih (h.swap hc hlt hleast hne)
  | case3 nodes pos hlt =>
    rw [siftDown, dif_neg hlt]
    intro i hi a b ha
    have hin : i < nodes.size := (Array.getElem?_eq_some_iff.mp ha).1
    exact h.others i hi (by omega) a b ha

theorem push_perm (before : κ → κ → Bool) (nodes : Array κ) (x : κ) :
    (push before nodes x).toList.Perm (x :: nodes.toList) := by
  have h := (siftUp_perm before (nodes.push x) nodes.size).toList
  rw [Array.toList_push] at h
  exact h.trans (List.perm_append_singleton _ _)

theorem push_inOrder (hc : Consistent before) (h : InOrder before nodes) (x : κ) :
    InOrder before (push before nodes x) := by
  have hold (i : Nat) (hi : i < nodes.size) : (nodes.push x)[i]? = nodes[i]? := by
    rw [Array.getElem?_push, if_neg (by omega)]
  have hend (i : Nat) (hi : nodes.size < i) : (nodes.push x)[i]? = none := by
    rw [Array.getElem?_eq_none]
    rw [Array.size_push]
    omega
  refine siftUp_inOrder hc ⟨fun i hi hne => ?_, fun i hi _ hchild => ?_⟩
  · intro a b ha hb
    rcases Nat.lt_or_gt_of_ne hne with hlt | hgt
    · rw [hold i hlt] at ha
      rw [hold _ (by omega)] at hb
      exact h i hi a b ha hb
    · rw [hend i hgt] at ha
      contradiction
  · intro a b ha
    rw [hend i (by omega)] at ha
    contradiction

/-- Popping takes the first node out and leaves the others. -/
theorem popLeast?_perm (before : κ → κ → Bool) {first : κ} (hfirst : nodes[0]? = some first) :
    ∃ rest, popLeast? before nodes = some (first, rest) ∧
      nodes.toList.Perm (first :: rest.toList) := by
  rcases nodes with ⟨_ | ⟨x, tail⟩⟩
  · contradiction
  · obtain rfl : x = first := by simpa using hfirst
    rcases List.eq_nil_or_concat tail with rfl | ⟨middle, last, rfl⟩
    · exact ⟨#[], rfl, List.Perm.refl _⟩
    · rw [List.concat_eq_append]
      have hrest : (Array.mk (x :: (middle ++ [last]))).pop = Array.mk (x :: middle) := by
        rw [← List.cons_append, List.pop_toArray, List.dropLast_concat]
      have hlast : (Array.mk (x :: (middle ++ [last]))).back? = some last := by
        rw [← List.cons_append, List.back?_toArray, List.getLast?_concat]
      refine ⟨siftDown before (Array.mk (last :: middle)) 0, ?_, ?_⟩
      · simp only [popLeast?, hrest, hlast, List.getElem?_toArray, List.getElem?_cons_zero]
        rfl
      · have hsift := (siftDown_perm before (Array.mk (last :: middle)) 0).toList
        exact ((List.perm_append_singleton last middle).trans hsift.symm).cons x

theorem popLeast?_inOrder (hc : Consistent before) (h : InOrder before nodes) {least : κ}
    {rest : Array κ} (hpop : popLeast? before nodes = some (least, rest)) :
    InOrder before rest := by
  unfold popLeast? at hpop
  split at hpop
  · next last _ _ =>
    have hget (i : Nat) (a : κ) (hi : 0 < i)
        (ha : (nodes.pop.setIfInBounds 0 last)[i]? = some a) : nodes[i]? = some a := by
      rw [Array.getElem?_setIfInBounds_ne (by omega), Array.getElem?_pop] at ha
      split at ha
      · exact ha
      · contradiction
    simp only [Option.some.injEq, Prod.mk.injEq] at hpop
    rw [← hpop.2]
    split
    · next hempty =>
      intro i _ a b ha
      rw [Array.isEmpty_iff.mp hempty] at ha
      simp at ha
    · refine siftDown_inOrder hc ⟨fun i hi hchild => ?_, fun _ _ hroot => ?_⟩
      · intro a b ha hb
        exact h i hi a b (hget i a hi ha) (hget _ b (by omega) hb)
      · omega
  · contradiction

/-- The first node of a heap comes after no other. -/
theorem InOrder.behind_first (hc : Consistent before) (h : InOrder before nodes) (i : Nat) :
    Behind before nodes i 0 := by
  induction i using Nat.strongRecOn with
  | ind i ih =>
    by_cases hi : 0 < i
    · by_cases hlt : i < nodes.size
      · exact (h i hi).trans hc (ih _ (by omega)) (by omega)
      · intro a b ha
        rw [Array.getElem?_eq_none (by omega)] at ha
        contradiction
    · rw [show i = 0 by omega]
      exact Behind.refl hc _ _

end BoundedMerge.Heap
