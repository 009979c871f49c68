import BoundedMerge.Proofs.Order

/-!
The stable sort of a list by a comparison. Its first record is the first of the least ones, and
the rest is the stable sort of what is left. It is the one ordered list in which the records of
each class of equal ones come as they did before, so a list may be cut and its pieces sorted first.
-/

namespace BoundedMerge

variable {τ : Type} {cmp : τ → τ → Ordering}

/-- Records that compare equal keep their order. -/
def stableSort (cmp : τ → τ → Ordering) (xs : List τ) : List τ :=
  xs.mergeSort fun a b => (cmp a b).isLE

theorem stableSort_perm (cmp : τ → τ → Ordering) (xs : List τ) : (stableSort cmp xs).Perm xs :=
  List.mergeSort_perm xs _

variable [Std.TransCmp cmp]

theorem isLE_total (a b : τ) : ((cmp a b).isLE || (cmp b a).isLE) = true := by
  rw [show cmp b a = (cmp a b).swap from Std.OrientedCmp.eq_swap]
  cases cmp a b <;> rfl

theorem stableSort_ascending (xs : List τ) : Ascending cmp (stableSort cmp xs) :=
  List.pairwise_mergeSort (fun _ _ _ => Std.TransCmp.isLE_trans) (fun _ _ => isLE_total _ _) xs

variable (cmp) in
/-- A record goes in front of the records that it does not come after, and behind the others. -/
theorem stableSort_cons (x : τ) (xs : List τ) :
    ∃ front back, stableSort cmp (x :: xs) = front ++ x :: back ∧
      stableSort cmp xs = front ++ back ∧ (∀ y ∈ front, (cmp x y).isLE = false) ∧
      ∀ y ∈ back, (cmp x y).isLE = true := by
  have htotal : ∀ a b : τ, ((cmp a b).isLE || (cmp b a).isLE) = true := isLE_total
  obtain ⟨front, back, hsort, hrest, hfront⟩ :=
    List.mergeSort_cons (fun _ _ _ => Std.TransCmp.isLE_trans) htotal x xs
  refine ⟨front, back, hsort, hrest, fun y hy => by simpa using hfront y hy, fun y hy => ?_⟩
  have horder : Ascending cmp (stableSort cmp (x :: xs)) := stableSort_ascending _
  rw [Ascending, stableSort, hsort, List.pairwise_append] at horder
  exact (List.pairwise_cons.mp horder.2.1).1 y hy

omit [Std.TransCmp cmp] in
/-- A list is cut in one way into a part without a property and a part with it. -/
theorem cut_unique (keep : τ → Bool) {front back front' back' : List τ}
    (heq : front ++ back = front' ++ back') (hfront : ∀ y ∈ front, keep y = false)
    (hback : ∀ y ∈ back, keep y = true) (hfront' : ∀ y ∈ front', keep y = false)
    (hback' : ∀ y ∈ back', keep y = true) : front = front' ∧ back = back' := by
  have hkeep (front back : List τ) (hfront : ∀ y ∈ front, keep y = false)
      (hback : ∀ y ∈ back, keep y = true) : (front ++ back).filter keep = back := by
    rw [List.filter_append, List.filter_eq_nil_iff.mpr fun y hy => by simp [hfront y hy],
      List.filter_eq_self.mpr hback, List.nil_append]
  have hsame : back = back' := by
    rw [← hkeep front back hfront hback, heq, hkeep front' back' hfront' hback']
  rw [hsame] at heq
  exact ⟨List.append_cancel_right heq, hsame⟩

/-- A record that comes before all in front of it and after none behind it is the first. -/
theorem stableSort_append_cons (above : List τ) (x : τ) (rest : List τ)
    (habove : ∀ y ∈ above, (cmp y x).isLE = false) (hrest : ∀ y ∈ rest, (cmp x y).isLE = true) :
    stableSort cmp (above ++ x :: rest) = x :: stableSort cmp (above ++ rest) := by
  induction above with
  | nil =>
    obtain ⟨front, back, hsort, hsort', hfront, -⟩ := stableSort_cons cmp x rest
    have hnil : front = [] := by
      rw [List.eq_nil_iff_forall_not_mem]
      intro y hy
      have hmem : y ∈ rest := (stableSort_perm cmp rest).mem_iff.mp (by simp [hsort', hy])
      have hlow := hfront y hy
      rw [hrest y hmem] at hlow
      contradiction
    rw [List.nil_append, List.nil_append, hsort, hsort', hnil]
    rfl
  | cons a above ih =>
    have hrec := ih fun y hy => habove y (List.mem_cons_of_mem _ hy)
    obtain ⟨front, back, hsort, hsplit, hfront, hback⟩ :=
      stableSort_cons cmp a (above ++ x :: rest)
    obtain ⟨front', back', hsort', hsplit', hfront', hback'⟩ :=
      stableSort_cons cmp a (above ++ rest)
    rw [hrec] at hsplit
    rw [List.cons_append, List.cons_append, hsort, hsort']
    cases front with
    | nil =>
      have hx := hback x (by rw [← List.nil_append back, ← hsplit]; exact List.mem_cons_self)
      rw [habove a List.mem_cons_self] at hx
      contradiction
    | cons y front =>
      -- Both ways to split the sorted rest cut it where the records stop to come before `a`.
      rw [List.cons_append, List.cons.injEq, hsplit'] at hsplit
      obtain ⟨hsame, hsame'⟩ := cut_unique (fun y => (cmp a y).isLE) hsplit.2 hfront' hback'
        (fun y hy => hfront y (List.mem_cons_of_mem _ hy)) hback
      rw [hsplit.1, hsame, hsame', List.cons_append]

omit [Std.TransCmp cmp] in
theorem stableSort_of_ascending {xs : List τ} (h : Ascending cmp xs) : stableSort cmp xs = xs :=
  List.mergeSort_of_pairwise h

/-- The records that compare equal to a given one, in the order of the list. -/
def likes (cmp : τ → τ → Ordering) (x : τ) (xs : List τ) : List τ :=
  xs.filter fun y => cmp x y == .eq

theorem likes_stableSort (x : τ) (xs : List τ) :
    likes cmp x (stableSort cmp xs) = likes cmp x xs := by
  induction xs with
  | nil => simp [stableSort]
  | cons y ys ih =>
    obtain ⟨front, back, hsort, hrest, hfront, -⟩ := stableSort_cons cmp y ys
    rw [hrest] at ih
    simp only [likes, List.filter_append] at ih ⊢
    rw [hsort, List.filter_append]
    by_cases hy : cmp x y = .eq
    · have hnone : front.filter (fun z => cmp x z == .eq) = [] := by
        rw [List.filter_eq_nil_iff]
        intro z hz heq
        have hlow := hfront z hz
        have hyx : cmp y x = .eq := Std.OrientedCmp.eq_symm hy
        rw [Std.TransCmp.eq_trans hyx (by simpa using heq)] at hlow
        contradiction
      rw [hnone, List.nil_append] at ih ⊢
      rw [List.filter_cons_of_pos (by simpa using hy), List.filter_cons_of_pos (by simpa using hy),
        ih]
    · rw [List.filter_cons_of_neg (by simpa using hy), List.filter_cons_of_neg (by simpa using hy),
        ih]

/-- Ordered lists are equal if each class of equal records comes in the same order in both. -/
theorem ascending_ext {xs ys : List τ} (hxs : Ascending cmp xs) (hys : Ascending cmp ys)
    (h : ∀ a, likes cmp a xs = likes cmp a ys) : xs = ys := by
  have hlike (a : τ) (zs : List τ) (ha : a ∈ zs) : a ∈ likes cmp a zs :=
    List.mem_filter.mpr ⟨ha, by simp [Std.ReflCmp.compare_self]⟩
  have hmem (a : τ) : a ∈ xs ↔ a ∈ ys := by
    constructor
    · exact fun ha => List.mem_of_mem_filter (h a ▸ hlike a xs ha)
    · exact fun ha => List.mem_of_mem_filter ((h a).symm ▸ hlike a ys ha)
  have hfirst (a b : τ) (zs : List τ) (hzs : Ascending cmp (a :: zs)) (hb : b ∈ a :: zs) :
      (cmp a b).isLE = true := by
    rcases List.mem_cons.mp hb with rfl | hb
    · exact Std.ReflCmp.isLE_rfl
    · exact (List.pairwise_cons.mp hzs).1 b hb
  induction xs generalizing ys with
  | nil =>
    exact (List.eq_nil_iff_forall_not_mem.mpr fun a ha => by simpa using (hmem a).mpr ha).symm
  | cons x xs ih =>
    cases ys with
    | nil => exact absurd ((hmem x).mp List.mem_cons_self) (by simp)
    | cons y ys =>
      have hxy := hfirst x y xs hxs ((hmem y).mpr List.mem_cons_self)
      have hyx := hfirst y x ys hys ((hmem x).mp List.mem_cons_self)
      have heq : cmp x y = .eq := Std.OrientedCmp.isLE_antisymm hxy hyx
      have hheads := h x
      rw [likes, likes, List.filter_cons_of_pos (by simp [Std.ReflCmp.compare_self]),
        List.filter_cons_of_pos (by simpa using heq), List.cons.injEq] at hheads
      obtain ⟨rfl, -⟩ := hheads
      have htails (a : τ) : likes cmp a xs = likes cmp a ys := by
        have ha := h a
        rw [likes, likes, List.filter_cons, List.filter_cons] at ha
        split at ha
        · exact (List.cons.inj ha).2
        · exact ha
      refine congrArg (x :: ·) (ih (List.pairwise_cons.mp hxs).2 (List.pairwise_cons.mp hys).2
        htails fun a => ?_)
      constructor
      · exact fun ha => List.mem_of_mem_filter (htails a ▸ hlike a xs ha)
      · exact fun ha => List.mem_of_mem_filter ((htails a).symm ▸ hlike a ys ha)

/-- The pieces of a list may be sorted before the whole is. -/
theorem stableSort_flatten_map (pieces : List (List τ)) :
    stableSort cmp (pieces.map (stableSort cmp)).flatten = stableSort cmp pieces.flatten := by
  refine ascending_ext (stableSort_ascending _) (stableSort_ascending _) fun a => ?_
  rw [likes_stableSort, likes_stableSort, likes, likes, List.filter_flatten, List.filter_flatten,
    List.map_map]
  exact congrArg List.flatten (List.map_congr_left fun piece _ => likes_stableSort a piece)

end BoundedMerge
