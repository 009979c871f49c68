import BoundedMerge.Disk
import BoundedMerge.FixedWidth
import BoundedMerge.Proofs.Disk.Bytes
import Mathlib.Tactic.Ring

/-!
Records on a disk. A record stands at its place for as long as no write covers it and the disk is
not cut off in front of its end, and records written side by side are read back one by one.
-/

namespace BoundedMerge

namespace FixedWidth

variable {τ : Type} [FixedWidth τ]

def zeroed : τ := decode (List.replicate (width τ) 0)

variable [LawfulFixedWidth τ]

theorem length_encodeAll (records : List τ) :
    (encodeAll records).length = records.length * width τ := by
  induction records with
  | nil => simp [encodeAll]
  | cons x records ih =>
    have hx := LawfulFixedWidth.length_encode x
    simp only [encodeAll] at ih
    simp only [encodeAll, List.flatMap_cons, List.length_append, ih, hx, List.length_cons]
    ring

/-- Record `k` of a run of records stands `k` widths in, and the records after it follow. -/
theorem drop_encodeAll (records : List τ) (k : Nat) (hk : k < records.length) :
    (encodeAll records).drop (k * width τ) =
      encode records[k] ++ encodeAll (records.drop (k + 1)) := by
  induction records generalizing k with
  | nil => simp at hk
  | cons x records ih =>
    have hx := LawfulFixedWidth.length_encode x
    simp only [encodeAll, List.flatMap_cons] at ih ⊢
    cases k with
    | zero =>
      rw [Nat.zero_mul, List.drop_zero, List.getElem_cons_zero, List.drop_succ_cons,
        List.drop_zero]
    | succ k =>
      rw [Nat.succ_mul, Nat.add_comm, ← List.drop_drop, ← hx, List.drop_left, hx,
        List.getElem_cons_succ, List.drop_succ_cons]
      exact ih k (by simpa using hk)

theorem encodeAll_slot (records : List τ) (k : Nat) (hk : k < records.length) :
    ((encodeAll records).drop (k * width τ)).take (width τ) = encode records[k] := by
  rw [drop_encodeAll records k hk, ← LawfulFixedWidth.length_encode records[k], List.take_left]

theorem decode_encode (x : τ) : decode (encode x) = x := by
  have h := LawfulFixedWidth.decode_append x []
  rwa [List.append_nil] at h

end FixedWidth

namespace SparseBytes

variable {τ : Type} [FixedWidth τ]

open FixedWidth

def record (τ : Type) [FixedWidth τ] (b : SparseBytes) (i : Nat) : τ :=
  decode (b.slice (i * width τ) (width τ))

theorem record_ofList [LawfulFixedWidth τ] (records : List τ) (i : Nat) (hi : i < records.length) :
    (ofList (encodeAll records)).record τ i = records[i] := by
  have hend : (i + 1) * width τ ≤ records.length * width τ := Nat.mul_le_mul_right _ hi
  rw [Nat.succ_mul] at hend
  rw [record, slice_ofList _ _ _ (by rwa [length_encodeAll]), encodeAll_slot _ _ hi,
    decode_encode]

theorem record_resize_of_lt (b : SparseBytes) (size i : Nat) (h : i < size) :
    (b.resize (size * width τ)).record τ i = b.record τ i := by
  have hend : (i + 1) * width τ ≤ size * width τ := Nat.mul_le_mul_right _ h
  rw [record, record, slice_resize_of_le]
  rw [← Nat.succ_mul]
  exact hend

/-- Where a file was never written its records are those that zeros stand for. -/
theorem Trim.record (b : SparseBytes) (h : b.Trim) (i : Nat) (hi : b.size ≤ i * width τ) :
    b.record τ i = zeroed := by
  rw [SparseBytes.record, h.slice b _ _ hi, zeroed]

variable [LawfulFixedWidth τ]

theorem record_write_of_inside (b : SparseBytes) (first k : Nat) (records : List τ)
    (hk : k < records.length) :
    (b.write (first * width τ) (encodeAll records)).record τ (first + k) = records[k] := by
  have hend : k * width τ + width τ ≤ (encodeAll records).length := by
    rw [length_encodeAll, ← Nat.succ_mul]
    exact Nat.mul_le_mul_right _ hk
  rw [record, Nat.add_mul, slice_write_of_inside _ _ _ _ _ hend, encodeAll_slot records k hk,
    decode_encode]

/-- A file with each record at its place, and no byte more, is the run of its records. -/
theorem toList_eq_encodeAll (b : SparseBytes) (records : List τ)
    (hsize : b.size = records.length * width τ)
    (hplaced : ∀ (i : Nat) (hi : i < records.length),
      b.slice (i * width τ) (width τ) = encode records[i]) : b.toList = encodeAll records := by
  have hlength : b.toList.length = b.size := by simp [toList]
  apply List.ext_getElem
  · rw [hlength, hsize, length_encodeAll]
  intro j hj hj'
  have hbound : j < records.length * width τ := by rw [← hsize, ← hlength]; exact hj
  have hwidth : 0 < width τ := Nat.pos_of_mul_pos_left (Nat.zero_lt_of_lt hbound)
  -- Byte `j` belongs to record `j / width`.
  have hi : j / width τ < records.length := (Nat.div_lt_iff_lt_mul hwidth).mpr hbound
  have hsplit : j / width τ * width τ + j % width τ = j := Nat.div_add_mod' j (width τ)
  have hrecord := hplaced _ hi
  rw [← encodeAll_slot records _ hi] at hrecord
  have hbyte := congrArg (fun bytes => bytes[j % width τ]?) hrecord
  have hmod := Nat.mod_lt j hwidth
  simp only [List.getElem?_take_of_lt hmod, List.getElem?_drop, hsplit] at hbyte
  rw [List.getElem?_eq_getElem (by rw [length_slice]; exact hmod), getElem_slice, hsplit,
    List.getElem?_eq_getElem hj'] at hbyte
  simp only [toList, List.getElem_map, List.getElem_range]
  exact Option.some.inj hbyte

omit [LawfulFixedWidth τ] in
/-- A record of a block that was read from its place on the disk. -/
theorem decodeAll_read (b : SparseBytes) (first count k : Nat) (hw : 0 < width τ)
    (hk : k < count) (hsize : (first + k + 1) * width τ ≤ b.size) :
    (decodeAll (b.read (first * width τ) (count * width τ)) : Array τ).getD k blank =
      b.record τ (first + k) := by
  have hlen : (b.read (first * width τ) (count * width τ)).size =
      min (count * width τ) (b.size - first * width τ) := by simp [read]
  have hend : (k + 1) * width τ ≤ min (count * width τ) (b.size - first * width τ) := by
    have hcount : (k + 1) * width τ ≤ count * width τ := Nat.mul_le_mul_right _ hk
    have hsplit : (first + k + 1) * width τ = first * width τ + (k + 1) * width τ := by ring
    omega
  have hfits : k < ((b.read (first * width τ) (count * width τ)).size + width τ - 1) / width τ := by
    rw [hlen]
    exact (Nat.le_div_iff_mul_le hw).mpr (hend.trans (by omega))
  rw [Array.getD_eq_getD_getElem?, decodeAll, Array.getElem?_ofFn, dif_pos hfits,
    Option.getD_some, record]
  congr 1
  rw [Array.toList_extract, List.extract_eq_take_drop, toList_read]
  apply List.ext_getElem
  · simp only [List.length_take, List.length_drop, length_slice]
    rw [Nat.succ_mul] at hend ⊢
    omega
  · intro i hi _
    simp only [List.getElem_take, List.getElem_drop, getElem_slice]
    congr 1
    ring

end SparseBytes

/-- Every read and every write is served in full. -/
structure Disk.Dependable (d : Disk) : Prop where
  unbounded : d.longest = none
  reads : ∀ n offset count, d.refuse n (.read offset count) = none
  writes : ∀ n offset count, d.refuse n (.write offset count) = none

namespace Disk.Dependable

variable {d : Disk}

/-- It matters neither what stands on the disk nor how much was asked of it. -/
theorem served (h : d.Dependable) (bytes : SparseBytes) (requests : Nat) :
    Dependable { d with bytes, requests } :=
  ⟨h.unbounded, h.reads, h.writes⟩

theorem read_eq (h : d.Dependable) (offset count : Nat) : d.read offset count =
    (.ok (d.bytes.read offset count), { d with requests := d.requests + 1 }) := by
  simp only [read, serve, h.unbounded, h.reads, Option.bind_none, Option.or_none]

theorem write_eq (h : d.Dependable) (offset : Nat) (data : List UInt8) : d.write offset data =
    (.ok (), { d with bytes := d.bytes.write offset data, requests := d.requests + 1 }) := by
  simp only [write, serve, fitting, h.unbounded, h.writes, Option.bind_none, Option.or_none,
    Nat.lt_irrefl, if_false]

theorem resize (h : d.Dependable) (size : Nat) : (d.resize size).2.Dependable := by
  unfold Disk.resize serve
  dsimp only
  split
  · exact h.served _ _
  · exact h.served _ _

end Disk.Dependable

namespace Disk

/-- A file that was just made, on a medium that refuses nothing. -/
structure Fresh (d : Disk) : Prop where
  reliable : d.Reliable
  trim : d.bytes.Trim
  size_eq : d.bytes.size = 0

theorem fresh_default : Fresh {} := ⟨⟨rfl, fun _ _ => rfl⟩, SparseBytes.trim_empty, rfl⟩

theorem Reliable.dependable {d : Disk} (h : d.Reliable) : d.Dependable :=
  ⟨h.1, fun n _ _ => h.2 n _, fun n _ _ => h.2 n _⟩

theorem resize_of_reliable (d : Disk) (h : d.Reliable) (size : Nat) :
    d.resize size = (.ok (), { d with
      bytes := d.bytes.resize size, requests := d.requests + 1 }) := by
  simp only [resize, serve, h.1, h.2, Option.bind_none, Option.or_none]

end Disk

end BoundedMerge
