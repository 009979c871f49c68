import BoundedMerge.Proofs.Selection.Heap

/-!
What a selection holds. The entries of a merge are the pending records with the numbers of their
inputs. Entering a record adds its entry, and the entry that is extracted is the least of those
that are held if the order is consistent.
-/

namespace BoundedMerge

variable {κ : Type}

namespace Node

instance transCmp (cmp : κ → κ → Ordering) [Std.TransCmp cmp] :
    Std.TransCmp fun a b : Node κ => (cmp a.key b.key).then (compare a.source b.source) :=
  have : Std.TransCmp fun a b : Node κ => cmp a.key b.key :=
    { eq_swap := Std.OrientedCmp.eq_swap, isLE_trans := Std.TransCmp.isLE_trans }
  have : Std.TransCmp fun a b : Node κ => compare a.source b.source :=
    { eq_swap := Std.OrientedCmp.eq_swap, isLE_trans := Std.TransCmp.isLE_trans }
  inferInstanceAs (Std.TransCmp (compareLex (fun a b : Node κ => cmp a.key b.key)
    fun a b => compare a.source b.source))

theorem consistent (cmp : κ → κ → Ordering) [Std.TransCmp cmp] :
    Consistent (before cmp) :=
  consistent_of_cmp fun a b : Node κ => (cmp a.key b.key).then (compare a.source b.source)

end Node

namespace Selection

/-- The pending records with the numbers of their inputs, which are counted from `source`. -/
def entries (source : Nat) : List (Option κ) → List (Node κ)
  | [] => []
  | none :: inputs => entries (source + 1) inputs
  | some x :: inputs => ⟨x, source⟩ :: entries (source + 1) inputs

def entriesBut (source i : Nat) (inputs : List (Option κ)) : List (Node κ) :=
  (entries source inputs).filter (·.source ≠ source + i)

theorem length_entries_le (source : Nat) (inputs : List (Option κ)) :
    (entries source inputs).length ≤ inputs.length := by
  induction inputs generalizing source with
  | nil => exact Nat.le_refl 0
  | cons x inputs ih =>
    have hrest := ih (source + 1)
    cases x <;> simp only [entries, List.length_cons] <;> omega

theorem mem_entries (source : Nat) (inputs : List (Option κ)) (node : Node κ) :
    node ∈ entries source inputs ↔
      source ≤ node.source ∧ inputs[node.source - source]? = some (some node.key) := by
  rcases node with ⟨key, number⟩
  induction inputs generalizing source with
  | nil => simp [entries]
  | cons x inputs ih =>
    simp only at ih ⊢
    rcases Nat.lt_trichotomy source number with hlt | rfl | hgt
    · rw [show number - source = number - (source + 1) + 1 by omega, List.getElem?_cons_succ]
      cases x with
      | none => simp only [entries, ih, Nat.le_of_lt hlt, Nat.succ_le_of_lt hlt]
      | some y =>
        simp only [entries, List.mem_cons, Node.mk.injEq, ih, Nat.le_of_lt hlt,
          Nat.succ_le_of_lt hlt, show number ≠ source by omega, and_false, false_or]
    · have hbelow : ¬source + 1 ≤ source := Nat.not_succ_le_self source
      rw [Nat.sub_self, List.getElem?_cons_zero]
      cases x with
      | none =>
        simp only [entries, ih, hbelow, false_and, Option.some.injEq, reduceCtorEq, and_false]
      | some y =>
        simp only [entries, List.mem_cons, Node.mk.injEq, ih, hbelow, false_and, or_false,
          and_true, Nat.le_refl, true_and, Option.some.injEq, eq_comm]
    · cases x <;> simp [entries, ih, show ¬source ≤ number by omega,
        show ¬source + 1 ≤ number by omega, show number ≠ source by omega]

theorem entries_eq_nil (source : Nat) (inputs : List (Option κ)) :
    entries source inputs = [] ↔ inputs.all Option.isNone = true := by
  induction inputs generalizing source with
  | nil => simp [entries]
  | cons x inputs ih => cases x <;> simp [entries, ih]

/-- An input that is used up has no entry. -/
theorem entriesBut_of_none {source i : Nat} {inputs : List (Option κ)}
    (h : inputs[i]? = some none) : entriesBut source i inputs = entries source inputs := by
  rw [entriesBut, List.filter_eq_self]
  intro node hnode
  rw [mem_entries] at hnode
  have hne : node.source ≠ source + i := by
    intro heq
    rw [heq, Nat.add_sub_cancel_left, h] at hnode
    simp at hnode
  simpa using hne

theorem entriesBut_zero (source : Nat) (x : Option κ) (inputs : List (Option κ)) :
    entriesBut source 0 (x :: inputs) = entries (source + 1) inputs := by
  have hrest : (entries (source + 1) inputs).filter (·.source ≠ source) =
      entries (source + 1) inputs := by
    rw [List.filter_eq_self]
    intro node hnode
    rw [mem_entries] at hnode
    simp only [ne_eq, decide_eq_true_eq]
    omega
  cases x with
  | none => exact hrest
  | some x =>
    simp only [entriesBut, entries, Nat.add_zero]
    rw [List.filter_cons_of_neg (by simp), hrest]

theorem entriesBut_succ (source i : Nat) (x : Option κ) (inputs : List (Option κ)) :
    entriesBut source (i + 1) (x :: inputs) =
      (x.map fun x => ⟨x, source⟩).toList ++ entriesBut (source + 1) i inputs := by
  have hshift : source + 1 + i = source + (i + 1) := by omega
  cases x with
  | none => simp only [entriesBut, entries, hshift, Option.map_none, Option.toList_none,
      List.nil_append]
  | some x =>
    simp only [entriesBut, entries, hshift, Option.map_some, Option.toList_some,
      List.singleton_append]
    rw [List.filter_cons_of_pos (by simp)]

/-- An input with a pending record has one entry. -/
theorem entries_perm (source : Nat) {i : Nat} {inputs : List (Option κ)} {x : κ}
    (h : inputs[i]? = some (some x)) :
    (entries source inputs).Perm (⟨x, source + i⟩ :: entriesBut source i inputs) := by
  induction inputs generalizing source i with
  | nil => simp at h
  | cons y inputs ih =>
    cases i with
    | zero =>
      rw [List.getElem?_cons_zero, Option.some.injEq] at h
      rw [entriesBut_zero, h]
      exact List.Perm.refl _
    | succ i =>
      rw [List.getElem?_cons_succ] at h
      have hperm := ih (source + 1) h
      rw [show source + 1 + i = source + (i + 1) by omega] at hperm
      rw [entriesBut_succ]
      cases y with
      | none => exact hperm
      | some y => exact (hperm.cons _).trans (List.Perm.swap _ _ _)

/-- The entries of the other inputs do not change with one of them. -/
theorem entriesBut_set (source i : Nat) (inputs : List (Option κ)) (y : Option κ) :
    entriesBut source i (inputs.set i y) = entriesBut source i inputs := by
  induction inputs generalizing source i with
  | nil => rfl
  | cons x inputs ih =>
    cases i with
    | zero => rw [List.set_cons_zero, entriesBut_zero, entriesBut_zero]
    | succ i => rw [List.set_cons_succ, entriesBut_succ, entriesBut_succ, ih]

/-- Room for the record that comes next where one was taken. -/
theorem length_entriesBut_lt {i : Nat} {inputs : List (Option κ)} {x : κ} (source : Nat)
    (h : inputs[i]? = some (some x)) : (entriesBut source i inputs).length < inputs.length := by
  have hlen := (entries_perm source h).length_eq
  have hle := length_entries_le source inputs
  rw [List.length_cons] at hlen
  omega

variable {cmp : κ → κ → Ordering} {s : Selection κ}

theorem insert_eq (h : s.nodes.size < s.capacity) (key : κ) (source : Nat) :
    s.insert cmp key source =
      pure { s with nodes := Heap.push (Node.before cmp) s.nodes { key, source } } := by
  rw [insert, Site.assert, if_pos (by simpa using h)]
  rfl

theorem extract_eq_none (h : s.nodes.toList = []) : s.extract cmp = (none, s) := by
  have hnodes : s.nodes = #[] := Array.toList_eq_nil_iff.mp h
  rw [extract, hnodes]
  rfl

/-- A selection that holds something gives one of its nodes and keeps the others. In a heap of a
consistent order it is the least, and a heap is left. -/
theorem extract_eq_some (cmp : κ → κ → Ordering) (h : s.nodes.toList ≠ []) :
    ∃ node rest, s.extract cmp = (some node, { s with nodes := rest }) ∧
      s.nodes.toList.Perm (node :: rest.toList) ∧
      (Std.TransCmp cmp → Heap.InOrder (Node.before cmp) s.nodes →
        Heap.InOrder (Node.before cmp) rest ∧
          ∀ other ∈ s.nodes.toList, Node.before cmp other node = false) := by
  have hsize : 0 < s.nodes.size := by
    rw [← Array.length_toList]
    exact List.length_pos_of_ne_nil h
  have hfirst := Array.getElem?_eq_getElem hsize
  obtain ⟨rest, hpop, hperm⟩ := Heap.popLeast?_perm (Node.before cmp) hfirst
  refine ⟨_, rest, ?_, hperm, fun _ horder => ⟨?_, fun other hother => ?_⟩⟩
  · rw [extract, hpop]
  · exact Heap.popLeast?_inOrder (Node.consistent cmp) horder hpop
  · obtain ⟨i, hi, rfl⟩ := List.mem_iff_getElem.mp hother
    rw [Array.length_toList] at hi
    rw [Array.getElem_toList]
    exact horder.behind_first (Node.consistent cmp) i _ _ (Array.getElem?_eq_getElem hi) hfirst

end Selection

end BoundedMerge
