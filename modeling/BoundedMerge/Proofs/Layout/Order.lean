import BoundedMerge.Layout.Order

/-!
The natural order of records is total, and records that compare equal are the same: scalars are
ordered by a rank that no two of them share, and compound records part by part.
-/

namespace BoundedMerge

namespace Scalar

/-- The sign, which is set, and the bits behind it. -/
theorem toNat_of_msb {n : Nat} {v : BitVec n} (h : v.msb = true) :
    v.toNat = (BitVec.intMin n).toNat + (v &&& BitVec.intMax n).toNat := by
  rw [BitVec.msb_eq_decide, decide_eq_true_eq] at h
  have hlt := v.isLt
  have hpos : 0 < n := by
    refine Nat.pos_of_ne_zero ?_
    rintro rfl
    simp at h hlt
    omega
  have hsign : (BitVec.intMin n).toNat = 2 ^ (n - 1) := by
    rw [BitVec.toNat_intMin, Nat.mod_eq_of_lt (Nat.pow_lt_pow_right Nat.one_lt_two (by omega))]
  have hdouble : 2 ^ n = 2 ^ (n - 1) + 2 ^ (n - 1) := by
    rw [← Nat.two_mul, ← Nat.pow_succ', Nat.succ_eq_add_one, Nat.sub_add_cancel hpos]
  have hmod : (v &&& BitVec.intMax n).toNat = v.toNat % 2 ^ (n - 1) := by
    rw [BitVec.toNat_and, BitVec.toNat_intMax, Nat.and_two_pow_sub_one_eq_mod]
  have hrest : v.toNat % 2 ^ (n - 1) = v.toNat - 2 ^ (n - 1) := by
    rw [Nat.mod_eq_sub_mod h, Nat.mod_eq_of_lt (by omega)]
  omega

theorem floatRank_injective {n : Nat} {a b : BitVec n}
    (h : rank.floatRank a = rank.floatRank b) : a = b := by
  unfold rank.floatRank at h
  apply BitVec.eq_of_toNat_eq
  cases ha : a.msb <;> cases hb : b.msb <;> rw [ha, hb] at h
  · simp only [Bool.false_eq_true, if_false] at h
    omega
  · simp only [Bool.false_eq_true, if_false, if_true] at h
    omega
  · simp only [Bool.false_eq_true, if_false, if_true] at h
    omega
  · have hsame : (a &&& BitVec.intMax n).toNat = (b &&& BitVec.intMax n).toNat := by
      simp only [if_true] at h
      omega
    rw [toNat_of_msb ha, toNat_of_msb hb, hsame]

theorem rank_injective (s : Scalar) {a b : s.Bits} (h : s.rank a = s.rank b) : a = b := by
  cases s with
  | unsigned w => exact BitVec.eq_of_toNat_eq (Int.ofNat_inj.mp h)
  | signed w => exact BitVec.eq_of_toInt_eq h
  | float32 => exact floatRank_injective h
  | float64 => exact floatRank_injective h

instance transCmp (s : Scalar) : Std.TransCmp s.compare :=
  inferInstanceAs (Std.TransCmp (compareOn s.rank))

instance lawfulEqCmp (s : Scalar) : Std.LawfulEqCmp s.compare where
  eq_of_compare h := s.rank_injective (Std.LawfulEqOrd.eq_of_compare h)

end Scalar

namespace Layout

theorem compare_array (item : Layout) (count : Nat) :
    (array item count).compare = Vector.compareLex (n := count) item.compare := by
  funext a b
  exact Vector.compareLex_eq_compareLex_toList.symm

theorem compare_pair (first second : Layout) :
    (pair first second).compare = compareLex
      (fun a b : first.Value × second.Value => first.compare a.1 b.1)
      fun a b => second.compare a.2 b.2 := rfl

instance transCmp (l : Layout) : Std.TransCmp l.compare := by
  induction l with
  | scalar s => exact s.transCmp
  | array item count ih =>
    rw [compare_array]
    exact inferInstanceAs (Std.TransCmp (Vector.compareLex (n := count) item.compare))
  | pair first second ih₁ ih₂ =>
    have : Std.TransCmp fun a b : first.Value × second.Value => first.compare a.1 b.1 :=
      { eq_swap := Std.OrientedCmp.eq_swap, isLE_trans := Std.TransCmp.isLE_trans }
    have : Std.TransCmp fun a b : first.Value × second.Value => second.compare a.2 b.2 :=
      { eq_swap := Std.OrientedCmp.eq_swap, isLE_trans := Std.TransCmp.isLE_trans }
    rw [compare_pair]
    exact inferInstanceAs (Std.TransCmp (compareLex
      (fun a b : first.Value × second.Value => first.compare a.1 b.1)
      fun a b => second.compare a.2 b.2))

theorem eq_of_compare (l : Layout) {a b : l.Value} (h : l.compare a b = .eq) : a = b := by
  induction l with
  | scalar s => exact s.lawfulEqCmp.eq_of_compare h
  | array item count ih =>
    have : Std.LawfulEqCmp item.compare :=
      { compare_self := Std.ReflCmp.compare_self, eq_of_compare := ih }
    have hitems : Std.LawfulEqCmp (Vector.compareLex (n := count) item.compare) := inferInstance
    rw [compare_array] at h
    exact hitems.eq_of_compare h
  | pair first second ih₁ ih₂ =>
    obtain ⟨h₁, h₂⟩ := Ordering.then_eq_eq.mp h
    exact Prod.ext (ih₁ h₁) (ih₂ h₂)

instance lawfulEqCmp (l : Layout) : Std.LawfulEqCmp l.compare where
  compare_self := Std.ReflCmp.compare_self
  eq_of_compare := l.eq_of_compare

end Layout

end BoundedMerge
