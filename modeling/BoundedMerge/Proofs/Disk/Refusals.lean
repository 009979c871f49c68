import BoundedMerge.Proofs.Disk.Records

/-!
What a disk may do with a request, whatever it refuses. A read changes no byte and a refused
request changes none; a write that fails on the way has stored the front of its data. Writing to a
record what it is already changes nothing, however much of it is stored.
-/

namespace BoundedMerge

namespace Disk

variable (d : Disk)

theorem read_cases (offset count : Nat) :
    (d.read offset count).2.bytes = d.bytes ∧
      ∀ data, (d.read offset count).1 = .ok data → data = d.bytes.read offset count := by
  unfold read serve
  dsimp only
  split
  · refine ⟨rfl, ?_⟩
    intro data h
    contradiction
  · refine ⟨rfl, ?_⟩
    intro data h
    exact (Except.ok.inj h).symm

/-- The front of the data is stored, all of it if the write succeeds. -/
theorem write_cases (offset : Nat) (data : List UInt8) :
    ∃ count, (d.write offset data).2.bytes = d.bytes.write offset (data.take count) ∧
      ((d.write offset data).1 = .ok () → data.take count = data) := by
  have hnone : d.bytes.write offset (data.take 0) = d.bytes := rfl
  have hfitting : ∃ count, d.fitting offset data = data.take count := by
    unfold fitting
    split
    · exact ⟨data.length, List.take_length.symm⟩
    · exact ⟨_, rfl⟩
  unfold write serve
  dsimp only
  split
  · refine ⟨0, rfl, ?_⟩
    intro h
    contradiction
  · obtain ⟨count, hstored⟩ := hfitting
    refine ⟨count, by rw [hstored], ?_⟩
    intro h
    dsimp only at h
    split at h
    · contradiction
    · next hall =>
      rw [hstored, List.length_take] at hall
      rw [List.take_of_length_le (by omega)]

theorem resize_cases (size : Nat) :
    (∃ e, (d.resize size).1 = .error e ∧ (d.resize size).2.bytes = d.bytes) ∨
      (d.resize size).1 = .ok () ∧ (d.resize size).2.bytes = d.bytes.resize size := by
  unfold resize serve
  dsimp only
  split
  · exact .inl ⟨_, rfl, rfl⟩
  · exact .inr ⟨rfl, rfl⟩

def steady (d : Disk) : Disk := { d with longest := none, refuse := fun _ _ => none }

theorem reliable_steady : d.steady.Reliable := ⟨rfl, fun _ _ => rfl⟩

theorem read_steady {offset count : Nat} {data : Array UInt8}
    (h : (d.read offset count).1 = .ok data) :
    d.steady.read offset count = (.ok data, (d.read offset count).2.steady) := by
  rw [d.reliable_steady.dependable.read_eq]
  unfold read serve at h ⊢
  dsimp only at h ⊢
  split at h
  · contradiction
  · rw [← h]
    rfl

theorem write_steady {offset : Nat} {data : List UInt8} (h : (d.write offset data).1 = .ok ()) :
    d.steady.write offset data = (.ok (), (d.write offset data).2.steady) := by
  obtain ⟨count, hbytes, hall⟩ := d.write_cases offset data
  have hrequests : (d.write offset data).2.requests = d.requests + 1 := by
    unfold write serve
    dsimp only
    split <;> rfl
  rw [d.reliable_steady.dependable.write_eq]
  simp only [steady, hbytes, hall h, hrequests]

end Disk

namespace SparseBytes

variable {τ : Type} [FixedWidth τ]

open FixedWidth

/-- A range whose bytes are written over with the same bytes. -/
theorem slice_write_of_same (b : SparseBytes) (at_ : Nat) (data : List UInt8)
    (offset count : Nat) (h : ∀ i, offset ≤ i → i < offset + count → at_ ≤ i →
      i < at_ + data.length → data.getD (i - at_) 0 = b.get i) :
    (b.write at_ data).slice offset count = b.slice offset count := by
  apply slice_congr
  intro i hlow hhigh
  rw [get_write]
  split
  · next hin => exact h i hlow hhigh hin.1 hin.2
  · rfl

theorem record_write_take_of_outside [LawfulFixedWidth τ] (b : SparseBytes)
    (first i count : Nat) (records : List τ) (h : i < first ∨ first + records.length ≤ i) :
    (b.write (first * width τ) ((encodeAll records).take count)).record τ i = b.record τ i := by
  rw [record, record, slice_write_of_disjoint]
  rw [List.length_take, length_encodeAll, ← Nat.succ_mul]
  rcases h with h | h
  · exact Or.inl (Nat.mul_le_mul_right _ h)
  · have hend := Nat.mul_le_mul_right (width τ) h
    rw [Nat.add_mul] at hend
    right
    omega

variable [CanonicalFixedWidth τ]

/-- The bytes of a record. -/
theorem slice_record (b : SparseBytes) (i : Nat) :
    b.slice (i * width τ) (width τ) = encode (b.record τ i) := by
  rw [record, CanonicalFixedWidth.encode_decode _ (by rw [length_slice]),
    List.take_of_length_le (by rw [length_slice])]

/-- A record stays what it is if it is written over by itself, wherever the write breaks off. -/
theorem record_write_take_of_same (b : SparseBytes) (first k count : Nat) (records : List τ)
    (hk : k < records.length) (hsame : b.record τ (first + k) = records[k]) :
    (b.write (first * width τ) ((encodeAll records).take count)).record τ (first + k) =
      b.record τ (first + k) := by
  rw [record, record, slice_write_of_same]
  intro i hlow hhigh _ hin
  have hbytes := b.slice_record (τ := τ) (first + k)
  rw [hsame, ← encodeAll_slot records k hk] at hbytes
  have hplace : (first + k) * width τ = first * width τ + k * width τ := Nat.add_mul ..
  have hwithin : i - (first + k) * width τ < width τ := by omega
  have hget := congrArg (fun bytes => bytes.getD (i - (first + k) * width τ) 0) hbytes
  rw [List.length_take] at hin
  simp only [List.getD_eq_getElem?_getD] at hget ⊢
  rw [List.getElem?_take_of_lt (by omega)]
  rw [List.getElem?_take_of_lt hwithin, List.getElem?_drop,
    List.getElem?_eq_getElem (by rw [length_slice]; exact hwithin), getElem_slice,
    Option.getD_some] at hget
  rw [show i - first * width τ = k * width τ + (i - (first + k) * width τ) by omega, ← hget]
  congr 1
  omega

end SparseBytes

end BoundedMerge
