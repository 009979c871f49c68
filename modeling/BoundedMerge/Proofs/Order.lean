import BoundedMerge.Sorting.Basic
import Mathlib.Data.List.Perm.Basic

/-!
Strict orders that code asks for, and arrays whose places are compared by them. The order that
belongs to a comparison is consistent if the comparison is a total preorder. When two items of an
array change places, the places are compared as their items were before.
-/

namespace BoundedMerge

variable {κ : Type}

/-- The order is strict, and items neither of which comes before the other are alike. -/
structure Consistent (before : κ → κ → Bool) : Prop where
  asymm : ∀ a b, before a b = true → before b a = false
  trans : ∀ a b c, before c b = false → before b a = false → before c a = false

/-- The item at `i`, if there is one, does not come before the one at `j`. -/
def Behind (before : κ → κ → Bool) (items : Array κ) (i j : Nat) : Prop :=
  ∀ a b, items[i]? = some a → items[j]? = some b → before a b = false

/-- The place whose item is at `i` after the items at `p` and `q` changed places. -/
def exchange (p q i : Nat) : Nat := if i = p then q else if i = q then p else i

variable {before : κ → κ → Bool} {items : Array κ}

theorem Behind.refl (hc : Consistent before) (items : Array κ) (i : Nat) :
    Behind before items i i := by
  intro a b ha hb
  rw [ha, Option.some.injEq] at hb
  rw [← hb, ← Bool.not_eq_true]
  intro h
  rw [hc.asymm a a h] at h
  contradiction

theorem Behind.trans (hc : Consistent before) {i j k : Nat} (hij : Behind before items i j)
    (hjk : Behind before items j k) (hj : j < items.size) : Behind before items i k := by
  intro a c ha hc'
  have hb : items[j]? = some items[j] := Array.getElem?_eq_getElem hj
  exact hc.trans c _ a (hij a _ ha hb) (hjk _ c hb hc')

theorem getElem?_exchange {p q : Nat} (hp : p < items.size) (hq : q < items.size) (k : Nat) :
    (items.swap p q)[k]? = items[exchange p q k]? := by
  rw [Array.getElem?_swap, exchange]
  by_cases hkq : q = k
  · by_cases hkp : k = p
    · rw [if_pos hkq, if_pos hkp, Array.getElem?_eq_getElem hq]
      simp only [hkq, hkp]
    · rw [if_pos hkq, if_neg hkp, if_pos hkq.symm, Array.getElem?_eq_getElem hp]
  · by_cases hkp : p = k
    · rw [if_neg hkq, if_pos hkp, if_pos hkp.symm, Array.getElem?_eq_getElem hq]
    · rw [if_neg hkq, if_neg hkp, if_neg (Ne.symm hkp), if_neg (Ne.symm hkq)]

theorem behind_swap {p q : Nat} (hp : p < items.size) (hq : q < items.size) (i j : Nat) :
    Behind before (items.swap p q) i j ↔
      Behind before items (exchange p q i) (exchange p q j) := by
  unfold Behind
  rw [getElem?_exchange hp hq, getElem?_exchange hp hq]

theorem behind_of_before (hc : Consistent before) {i j : Nat} (hi : i < items.size)
    (hj : j < items.size) (h : before items[i] items[j] = true) : Behind before items j i := by
  intro a b ha hb
  rw [Array.getElem?_eq_getElem hj, Option.some.injEq] at ha
  rw [Array.getElem?_eq_getElem hi, Option.some.injEq] at hb
  rw [← ha, ← hb]
  exact hc.asymm _ _ h

def Ascending (cmp : κ → κ → Ordering) (xs : List κ) : Prop :=
  xs.Pairwise fun a b => (cmp a b).isLE

theorem lessBy_eq_false (cmp : κ → κ → Ordering) [Std.OrientedCmp cmp] (a b : κ) :
    Sorting.lessBy cmp b a = false ↔ (cmp a b).isLE := by
  rw [show cmp a b = (cmp b a).swap from Std.OrientedCmp.eq_swap, Sorting.lessBy]
  cases cmp b a <;> decide

theorem consistent_of_cmp (cmp : κ → κ → Ordering) [Std.TransCmp cmp] :
    Consistent (Sorting.lessBy cmp) := by
  constructor
  · intro a b h
    simp only [Sorting.lessBy, beq_iff_eq] at h
    simp [Sorting.lessBy, Std.OrientedCmp.gt_of_lt h]
  · intro a b c hcb hba
    have hge (x y : κ) : Sorting.lessBy cmp x y = false ↔ (cmp x y).isGE = true := by
      simp only [Sorting.lessBy]
      cases cmp x y <;> decide
    rw [hge] at *
    exact Std.TransCmp.isGE_trans hcb hba

end BoundedMerge
