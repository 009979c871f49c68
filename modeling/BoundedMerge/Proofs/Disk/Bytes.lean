import BoundedMerge.SparseBytes
import Mathlib.Data.List.Basic

/-!
What sparse bytes hold after a write and after their length was set, byte by byte and range by
range. Bytes past the end are zero in every file that began empty, so a file that grows shows
zeros where nothing was written.
-/

namespace BoundedMerge.SparseBytes

theorem getD_overwrite (data : List UInt8) (bytes : Array UInt8) (offset i : Nat)
    (h : offset ≤ bytes.size) :
    (overwrite bytes offset data).getD i 0 =
      if offset ≤ i ∧ i < offset + data.length then data.getD (i - offset) 0
      else bytes.getD i 0 := by
  induction data generalizing bytes offset with
  | nil =>
    rw [overwrite, if_neg]
    simp only [List.length_nil]
    omega
  | cons x data ih =>
    have hsize : offset + 1 ≤
        (if offset < bytes.size then bytes.setIfInBounds offset x else bytes.push x).size := by
      split
      · rw [Array.size_setIfInBounds]
        omega
      · rw [Array.size_push]
        omega
    have hbyte : (if offset < bytes.size then bytes.setIfInBounds offset x
        else bytes.push x).getD i 0 = if i = offset then x else bytes.getD i 0 := by
      simp only [Array.getD_eq_getD_getElem?]
      by_cases hlt : offset < bytes.size
      · rw [if_pos hlt, Array.getElem?_setIfInBounds]
        by_cases hi : i = offset
        · rw [if_pos hi.symm, if_pos (hi ▸ hlt), if_pos hi, Option.getD_some]
        · rw [if_neg (Ne.symm hi), if_neg hi]
      · rw [if_neg hlt, Array.getElem?_push, show bytes.size = offset by omega]
        by_cases hi : i = offset
        · rw [if_pos hi, if_pos hi, Option.getD_some]
        · rw [if_neg hi, if_neg hi]
    rw [overwrite, ih _ _ hsize, hbyte]
    simp only [List.length_cons]
    by_cases hi : i = offset
    · subst hi
      rw [if_neg (by omega), if_pos rfl, if_pos (by omega), Nat.sub_self, List.getD_cons_zero]
    · rw [if_neg hi]
      by_cases hin : offset + 1 ≤ i ∧ i < offset + 1 + data.length
      · rw [if_pos hin, if_pos (by omega), show i - offset = i - (offset + 1) + 1 by omega,
          List.getD_cons_succ]
      · rw [if_neg hin, if_neg (by omega)]

theorem patched?_eq (i offset : Nat) (data : List UInt8) :
    patched? i (offset, data.toArray) =
      if offset ≤ i ∧ i < offset + data.length then some (data.getD (i - offset) 0)
      else none := by
  simp only [patched?, List.getElem?_toArray]
  by_cases hle : offset ≤ i
  · by_cases hlt : i < offset + data.length
    · rw [if_pos hle, if_pos ⟨hle, hlt⟩, List.getD_eq_getElem?_getD,
        List.getElem?_eq_getElem (by omega), Option.getD_some]
    · rw [if_pos hle, if_neg (by omega), List.getElem?_eq_none (by omega)]
  · rw [if_neg hle, if_neg (by omega)]

/-- A write changes the bytes it covers and no other. -/
theorem get_write (b : SparseBytes) (offset : Nat) (data : List UInt8) (i : Nat) :
    (b.write offset data).get i =
      if offset ≤ i ∧ i < offset + data.length then data.getD (i - offset) 0 else b.get i := by
  unfold write
  by_cases hempty : data.isEmpty = true
  · rw [if_pos hempty, if_neg]
    rw [List.isEmpty_iff] at hempty
    simp only [hempty, List.length_nil]
    omega
  · rw [if_neg hempty]
    by_cases hfront : b.patches.isEmpty = true ∧ offset ≤ b.front.size
    · have hpatches : b.patches = [] := List.isEmpty_iff.mp hfront.1
      rw [if_pos hfront]
      simp only [get, hpatches, List.findSome?_nil, Option.getD_none]
      exact getD_overwrite data b.front offset i hfront.2
    · rw [if_neg hfront]
      simp only [get, List.findSome?_cons, patched?_eq]
      by_cases hin : offset ≤ i ∧ i < offset + data.length
      · simp only [if_pos hin, Option.getD_some]
      · simp only [if_neg hin]

theorem size_write (b : SparseBytes) (offset : Nat) (data : List UInt8) :
    (b.write offset data).size =
      if data = [] then b.size else max b.size (offset + data.length) := by
  unfold write
  simp only [List.isEmpty_iff]
  split
  · rfl
  · split <;> rfl

theorem size_le_write (b : SparseBytes) (offset : Nat) (data : List UInt8) :
    b.size ≤ (b.write offset data).size := by
  rw [size_write]
  split
  · exact Nat.le_refl _
  · exact Nat.le_max_left _ _

/-- What is left of an array when it is cut off at `stop`, place by place. -/
theorem getElem?_cut (bytes : Array UInt8) (stop i : Nat) :
    (bytes.extract 0 stop)[i]? = if i < stop then bytes[i]? else none := by
  rw [Array.getElem?_extract, Nat.zero_add, Nat.sub_zero]
  by_cases hstop : i < stop
  · by_cases hsize : i < bytes.size
    · rw [if_pos (by omega), if_pos hstop]
    · rw [if_neg (by omega), if_pos hstop, Array.getElem?_eq_none (by omega)]
  · rw [if_neg (by omega), if_neg hstop]

theorem patched?_extract (i size : Nat) (patch : Nat × Array UInt8) :
    patched? i (patch.1, patch.2.extract 0 (size - patch.1)) =
      if i < size then patched? i patch else none := by
  simp only [patched?, getElem?_cut]
  by_cases hle : patch.1 ≤ i
  · rw [if_pos hle, if_pos hle]
    by_cases hi : i < size
    · rw [if_pos (by omega), if_pos hi]
    · rw [if_neg (by omega), if_neg hi]
  · rw [if_neg hle, if_neg hle, ite_self]

/-- Setting the length keeps the bytes in front of it and clears the others. -/
theorem get_resize (b : SparseBytes) (size i : Nat) :
    (b.resize size).get i = if i < size then b.get i else 0 := by
  have hfront : (b.front.extract 0 size).getD i 0 = if i < size then b.front.getD i 0 else 0 := by
    rw [Array.getD_eq_getD_getElem?, Array.getD_eq_getD_getElem?, getElem?_cut]
    by_cases hi : i < size
    · rw [if_pos hi, if_pos hi]
    · rw [if_neg hi, if_neg hi, Option.getD_none]
  have hpatches : ∀ patches : List (Nat × Array UInt8),
      ((patches.map fun p => (p.1, p.2.extract 0 (size - p.1))).filter
        (!·.2.isEmpty)).findSome? (patched? i) =
          if i < size then patches.findSome? (patched? i) else none := by
    intro patches
    induction patches with
    | nil => simp
    | cons p patches ih =>
      have hp := patched?_extract i size p
      rw [List.map_cons, List.filter_cons]
      by_cases hempty : p.2.extract 0 (size - p.1) = #[]
      · have hnone : patched? i (p.1, p.2.extract 0 (size - p.1)) = none := by
          simp [patched?, hempty]
        rw [if_neg (by simp [hempty]), ih, List.findSome?_cons]
        rw [hnone] at hp
        by_cases hi : i < size
        · rw [if_pos hi] at hp
          rw [if_pos hi, if_pos hi, ← hp]
        · rw [if_neg hi, if_neg hi]
      · rw [if_pos (by simpa using hempty), List.findSome?_cons, List.findSome?_cons, hp, ih]
        by_cases hi : i < size
        · simp only [if_pos hi]
        · simp only [if_neg hi]
  simp only [get, resize, hpatches, hfront]
  split <;> rfl

/-- No byte past the end is set. -/
def Trim (b : SparseBytes) : Prop := ∀ i, b.size ≤ i → b.get i = 0

theorem trim_empty : Trim {} := by
  intro i _
  simp [get]

theorem trim_ofList (bytes : List UInt8) : (ofList bytes).Trim := by
  intro i hi
  have hlen : bytes.length ≤ i := by simpa [ofList] using hi
  simp [ofList, get, Array.getD_eq_getD_getElem?, hlen]

theorem Trim.write (b : SparseBytes) (h : b.Trim) (offset : Nat) (data : List UInt8) :
    (b.write offset data).Trim := by
  intro i hi
  rw [size_write] at hi
  rw [get_write]
  by_cases hdata : data = []
  · rw [if_pos hdata] at hi
    rw [if_neg (by simp only [hdata, List.length_nil]; omega), h i hi]
  · rw [if_neg hdata] at hi
    rw [if_neg (by omega), h i (by omega)]

theorem trim_resize (b : SparseBytes) (size : Nat) : (b.resize size).Trim := by
  intro i hi
  have hsize : (b.resize size).size = size := rfl
  rw [get_resize, if_neg (by omega)]

/-- The `count` bytes from `offset` on, zeros where the file has none. -/
def slice (b : SparseBytes) (offset count : Nat) : List UInt8 :=
  (List.range count).map fun i => b.get (offset + i)

@[simp] theorem length_slice (b : SparseBytes) (offset count : Nat) :
    (b.slice offset count).length = count := by
  simp [slice]

theorem getElem_slice (b : SparseBytes) (offset count i : Nat)
    (h : i < (b.slice offset count).length) : (b.slice offset count)[i] = b.get (offset + i) := by
  simp [slice]

theorem toList_read (b : SparseBytes) (offset count : Nat) :
    (b.read offset count).toList = b.slice offset (min count (b.size - offset)) := by
  simp [read, slice, Array.toList_range]

theorem slice_congr (b c : SparseBytes) (offset count : Nat)
    (h : ∀ i, offset ≤ i → i < offset + count → b.get i = c.get i) :
    b.slice offset count = c.slice offset count := by
  apply List.map_congr_left
  intro i hi
  rw [List.mem_range] at hi
  exact h (offset + i) (by omega) (by omega)

/-- A range that the write does not touch. -/
theorem slice_write_of_disjoint (b : SparseBytes) (at_ : Nat) (data : List UInt8)
    (offset count : Nat) (h : offset + count ≤ at_ ∨ at_ + data.length ≤ offset) :
    (b.write at_ data).slice offset count = b.slice offset count := by
  apply slice_congr
  intro i hlow hhigh
  rw [get_write, if_neg (by omega)]

/-- A range inside the write. -/
theorem slice_write_of_inside (b : SparseBytes) (at_ : Nat) (data : List UInt8)
    (skip count : Nat) (h : skip + count ≤ data.length) :
    (b.write at_ data).slice (at_ + skip) count = (data.drop skip).take count := by
  apply List.ext_getElem
  · simp only [length_slice, List.length_take, List.length_drop]
    omega
  · intro i hi _
    rw [length_slice] at hi
    rw [getElem_slice, get_write, if_pos (by omega), List.getElem_take, List.getElem_drop,
      show at_ + skip + i - at_ = skip + i by omega, List.getD_eq_getElem?_getD,
      List.getElem?_eq_getElem (by omega), Option.getD_some]

theorem slice_ofList (bytes : List UInt8) (offset count : Nat)
    (h : offset + count ≤ bytes.length) :
    (ofList bytes).slice offset count = (bytes.drop offset).take count := by
  apply List.ext_getElem
  · simp only [length_slice, List.length_take, List.length_drop]
    omega
  · intro i hi _
    rw [length_slice] at hi
    rw [getElem_slice, List.getElem_take, List.getElem_drop]
    have hlt : offset + i < bytes.length := by omega
    simp [ofList, get, Array.getD_eq_getD_getElem?, hlt]

theorem slice_resize_of_le (b : SparseBytes) (size offset count : Nat)
    (h : offset + count ≤ size) :
    (b.resize size).slice offset count = b.slice offset count := by
  apply slice_congr
  intro i _ hhigh
  rw [get_resize, if_pos (by omega)]

/-- Past the end of the bytes there are zeros. -/
theorem Trim.slice (b : SparseBytes) (h : b.Trim) (offset count : Nat) (hoff : b.size ≤ offset) :
    b.slice offset count = List.replicate count 0 := by
  apply List.ext_getElem
  · simp
  · intro i hi _
    rw [getElem_slice, List.getElem_replicate]
    exact h (offset + i) (by omega)

end BoundedMerge.SparseBytes
