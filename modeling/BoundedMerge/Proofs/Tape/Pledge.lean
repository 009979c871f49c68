import BoundedMerge.Proofs.Disk.Refusals
import BoundedMerge.Tape.Basic

/-!
What a tape owes its user on a disk that may refuse anything. A pledge names, for each place, the
record that a read has to give, as far as the user can know it from the calls and their answers;
and it names the places written since they were last known to be saved, which may stand in the
cached block alone. A tape secures a pledge if every named record is on the disk, or is an unsaved
one of the changed block that the tape holds.
-/

namespace BoundedMerge

open FixedWidth

variable {τ : Type}

namespace Block

variable [FixedWidth τ]

@[simp] theorem length_image (b : Block τ) (count : Nat) : (b.image count).length = count := by
  simp [image]

@[simp] theorem getElem_image (b : Block τ) (count i : Nat) (h : i < (b.image count).length) :
    (b.image count)[i] = b.get i := by
  simp [image]

theorem get_set_self (b : Block τ) (slot : Nat) (x : τ) : (b.set slot x).get slot = x := by
  have hsize : slot < b.items.size + (slot + 1 - b.items.size) := by omega
  simp [Block.get, Block.set, Array.getD_eq_getD_getElem?, hsize]

theorem get_set_of_ne (b : Block τ) (slot i : Nat) (x : τ) (h : i ≠ slot) :
    (b.set slot x).get i = b.get i := by
  simp only [Block.get, Block.set, Array.getD_eq_getD_getElem?, Array.getElem?_setIfInBounds,
    if_neg (Ne.symm h), Array.getElem?_append]
  by_cases hi : i < b.items.size
  · rw [if_pos hi]
  · rw [if_neg hi, Array.getElem?_eq_none (by omega : b.items.size ≤ i), Array.getElem?_replicate]
    split <;> rfl

end Block

structure Pledge (τ : Type) where
  size : Nat
  offset : Nat
  /-- The record that a place has to give, if one is owed. -/
  record : Nat → Option τ
  /-- The places whose record need not be on the disk. -/
  unsaved : List Nat

namespace Pledge

def ofRecords (records : List τ) : Pledge τ where
  size := records.length
  offset := 0
  record i := records[i]?
  unsaved := []

/-- A block of `items` records is reached: what was unsaved in other blocks is saved. -/
def reach (items index : Nat) (p : Pledge τ) : Pledge τ :=
  { p with unsaved := p.unsaved.filter (· / items = index) }

/-- A block of `items` records could not be reached: what was unsaved in other blocks may be
lost. -/
def miss (items index : Nat) (p : Pledge τ) : Pledge τ :=
  { p with
    record := fun i => if i ∈ p.unsaved ∧ i / items ≠ index then none else p.record i
    unsaved := p.unsaved.filter (· / items = index) }

def saved (p : Pledge τ) : Pledge τ := { p with unsaved := [] }

def move (offset : Nat) (p : Pledge τ) : Pledge τ := { p with offset }

def put (x : τ) (p : Pledge τ) : Pledge τ where
  size := max p.size (p.offset + 1)
  offset := p.offset + 1
  record := fun i => if i = p.offset then some x else p.record i
  unsaved := p.offset :: p.unsaved

/-- The records in front of the new end are owed as before, and zeros behind the old one. -/
def truncate [FixedWidth τ] (size : Nat) (p : Pledge τ) : Pledge τ where
  size
  offset := min p.offset size
  record := fun i => if i < p.size then p.record i else some zeroed
  unsaved := []

/-- Nothing is forgotten if nothing was unsaved elsewhere. -/
theorem miss_eq_reach {items index : Nat} {p : Pledge τ}
    (h : ∀ i ∈ p.unsaved, i / items = index) : p.miss items index = p.reach items index := by
  rw [miss, reach, Pledge.mk.injEq]
  refine ⟨rfl, rfl, ?_, rfl⟩
  funext i
  rw [if_neg]
  intro hi
  exact hi.2 (h i hi.1)

end Pledge

namespace Tape

section Places

variable {items index i count : Nat}

/-- The place of a record that lies in a block. -/
theorem place_of_index (h : i / items = index) : i = index * items + i % items := by
  rw [← h, Nat.mul_comm]
  exact (Nat.div_add_mod i items).symm

theorem outside_of_index_ne (hpos : 0 < items) (h : i / items ≠ index) (hcount : count ≤ items) :
    i < index * items ∨ index * items + count ≤ i := by
  rcases Nat.lt_or_gt_of_ne h with hlt | hgt
  · exact Or.inl ((Nat.div_lt_iff_lt_mul hpos).mp hlt)
  · have hle : (index + 1) * items ≤ i := (Nat.le_div_iff_mul_le hpos).mp hgt
    rw [Nat.succ_mul] at hle
    exact Or.inr (by omega)

end Places

variable [FixedWidth τ]

/-- The disk of the tape and a block taken from it hold what is owed between them. -/
structure Secures (t : Tape τ) (block : Option (Block τ)) (p : Pledge τ) : Prop where
  width_pos : 0 < width τ
  items_pos : 0 < t.blockItems
  trim : t.disk.bytes.Trim
  size_eq : t.size = p.size
  offset_eq : t.offset = p.offset
  offset_le : p.offset ≤ p.size
  bounded : t.disk.bytes.size ≤ t.size * width τ
  stored : ∀ i < p.size, ∀ x, p.record i = some x →
    (∀ b ∈ block, b.dirty = true → i ∈ p.unsaved → i / t.blockItems ≠ b.index) →
    (i + 1) * width τ ≤ t.disk.bytes.size ∧ t.disk.bytes.record τ i = x
  cached : ∀ b ∈ block, ∀ i < p.size, ∀ x, p.record i = some x → i / t.blockItems = b.index →
    b.get (i % t.blockItems) = x

def Honours (t : Tape τ) (p : Pledge τ) : Prop := t.Secures t.block p

variable {t : Tape τ} {b : Block τ} {p : Pledge τ}

/-- What the tape holds in its cache makes no difference to what its disk and a block secure. -/
theorem Secures.recache {block : Option (Block τ)} (h : t.Secures block p)
    (cache : Option (Block τ)) : Secures { t with block := cache } block p :=
  ⟨h.width_pos, h.items_pos, h.trim, h.size_eq, h.offset_eq, h.offset_le, h.bounded, h.stored,
    h.cached⟩

/-- A disk with the same bytes is as good. -/
theorem Secures.redisk {block : Option (Block τ)} (h : t.Secures block p) {disk : Disk}
    (hbytes : disk.bytes = t.disk.bytes) : Secures { t with disk } block p := by
  refine ⟨h.width_pos, h.items_pos, ?_, h.size_eq, h.offset_eq, h.offset_le, ?_, ?_, h.cached⟩
  · rw [hbytes]
    exact h.trim
  · rw [hbytes]
    exact h.bounded
  · rw [hbytes]
    exact h.stored

theorem Secures.move {block : Option (Block τ)} (h : t.Secures block p) (offset : Nat)
    (hle : offset ≤ p.size) : Secures { t with offset } block (p.move offset) :=
  ⟨h.width_pos, h.items_pos, h.trim, h.size_eq, rfl, hle, h.bounded, h.stored, h.cached⟩

/-- Without a changed block everything that is owed is on the disk. -/
theorem Secures.on_disk {block : Option (Block τ)} (h : t.Secures block p)
    (hclean : ∀ b ∈ block, b.dirty = false) (i : Nat) (hi : i < p.size) (x : τ)
    (hx : p.record i = some x) :
    (i + 1) * width τ ≤ t.disk.bytes.size ∧ t.disk.bytes.record τ i = x := by
  apply h.stored i hi x hx
  intro b hb hdirty
  rw [hclean b hb] at hdirty
  contradiction

/-- If everything that is owed is on the disk, it does not matter which places are held to be
unsaved. -/
theorem Secures.settled {block : Option (Block τ)} (h : t.Secures block p)
    (hclean : ∀ b ∈ block, b.dirty = false) (unsaved : List Nat) :
    t.Secures block { p with unsaved } := by
  refine ⟨h.width_pos, h.items_pos, h.trim, h.size_eq, h.offset_eq, h.offset_le, h.bounded, ?_,
    h.cached⟩
  intro i hi x hx _
  exact h.on_disk hclean i hi x hx

/-- A block that was not changed need not be kept. -/
theorem Secures.forget {block : Option (Block τ)} (h : t.Secures block p)
    (hclean : ∀ b ∈ block, b.dirty = false) : t.Secures none p := by
  refine ⟨h.width_pos, h.items_pos, h.trim, h.size_eq, h.offset_eq, h.offset_le, h.bounded, ?_, ?_⟩
  · intro i hi x hx _
    exact h.on_disk hclean i hi x hx
  · intro b hb
    contradiction

/-- The changed block is lost: what was unsaved in it is no longer owed. -/
theorem Secures.lost {index : Nat} (h : t.Secures (some b) p) (hindex : b.index ≠ index) :
    t.Secures none (p.miss t.blockItems index) := by
  refine ⟨h.width_pos, h.items_pos, h.trim, h.size_eq, h.offset_eq, h.offset_le, h.bounded, ?_, ?_⟩
  · intro i hi x hx _
    simp only [Pledge.miss] at hx
    split at hx
    · contradiction
    · next hkept =>
      apply h.stored i hi x hx
      intro b' hb' _ hunsaved hin
      cases hb'
      apply hkept
      rw [hin]
      exact ⟨hunsaved, hindex⟩
  · intro b' hb'
    contradiction

/-- What is no longer owed need not be held, and more places may be unsaved. -/
theorem Secures.mono {block : Option (Block τ)} {q : Pledge τ} (h : t.Secures block p)
    (hsize : q.size = p.size) (hoffset : q.offset = p.offset)
    (hrecord : ∀ i < p.size, ∀ x, q.record i = some x → p.record i = some x)
    (hunsaved : ∀ i ∈ p.unsaved, i ∈ q.unsaved) : t.Secures block q := by
  refine ⟨h.width_pos, h.items_pos, h.trim, ?_, ?_, ?_, h.bounded, ?_, ?_⟩
  · rw [hsize, h.size_eq]
  · rw [hoffset, h.offset_eq]
  · rw [hsize, hoffset]
    exact h.offset_le
  · intro i hi x hx hother
    rw [hsize] at hi
    apply h.stored i hi x (hrecord i hi x hx)
    intro b hb hdirty hmem
    exact hother b hb hdirty (hunsaved i hmem)
  · intro b hb i hi x hx hin
    rw [hsize] at hi
    exact h.cached b hb i hi x (hrecord i hi x hx) hin

/-- What may be lost is no longer owed. -/
theorem Secures.missed {block : Option (Block τ)} {items index : Nat}
    (h : t.Secures block (p.reach items index)) : t.Secures block (p.miss items index) := by
  apply h.mono
  · rfl
  · rfl
  · intro i _ x hx
    simp only [Pledge.miss] at hx
    split at hx
    · contradiction
    · exact hx
  · intro i hi
    exact hi

/-- What is unsaved in a block that the tape does not hold has been saved. -/
theorem Secures.reached {block : Option (Block τ)} {index : Nat} (h : t.Secures block p)
    (hindex : ∀ b ∈ block, b.index = index) : t.Secures block (p.reach t.blockItems index) := by
  refine ⟨h.width_pos, h.items_pos, h.trim, h.size_eq, h.offset_eq, h.offset_le, h.bounded, ?_,
    h.cached⟩
  intro i hi x hx hother
  apply h.stored i hi x hx
  intro b hb hdirty hunsaved hin
  apply hother b hb hdirty ?_ hin
  have hmatches : i / t.blockItems = index := by
    rw [hin]
    exact hindex b hb
  exact List.mem_filter.mpr ⟨hunsaved, by simpa using hmatches⟩

def spill (t : Tape τ) (b : Block τ) : List UInt8 :=
  encodeAll (b.image (min t.blockItems (t.size - b.index * t.blockItems)))

section Image

variable [LawfulFixedWidth τ]

/-- A write of the block does not reach past the end of the tape, wherever it breaks off. -/
theorem Secures.bounded_spill (h : t.Secures (some b) p) (count : Nat) :
    (t.disk.bytes.write (b.index * t.blockItems * width τ) ((t.spill b).take count)).size ≤
      t.size * width τ := by
  have hold := h.bounded
  rw [SparseBytes.size_write]
  split
  · exact hold
  · next hdata =>
    generalize himage : b.image (min t.blockItems (t.size - b.index * t.blockItems)) = image
    have hspill : t.spill b = encodeAll image := by rw [spill, himage]
    have hlength : image.length = min t.blockItems (t.size - b.index * t.blockItems) := by
      rw [← himage, Block.length_image]
    have hsome : 0 < image.length := by
      apply List.length_pos_of_ne_nil
      intro hnil
      apply hdata
      rw [hspill, hnil]
      exact List.take_nil
    have hend : ((t.spill b).take count).length ≤ image.length * width τ := by
      rw [hspill, List.length_take, length_encodeAll]
      exact Nat.min_le_right _ _
    have hlast : (b.index * t.blockItems + image.length) * width τ ≤ t.size * width τ :=
      Nat.mul_le_mul_right _ (by omega)
    rw [Nat.add_mul] at hlast
    omega

/-- A write of the block leaves the records of the others where they are. -/
theorem Secures.stored_beside (h : t.Secures (some b) p) (count : Nat) {i : Nat} {x : τ}
    (hi : i < p.size) (hx : p.record i = some x) (hout : i / t.blockItems ≠ b.index) :
    let bytes := t.disk.bytes.write (b.index * t.blockItems * width τ) ((t.spill b).take count)
    (i + 1) * width τ ≤ bytes.size ∧ bytes.record τ i = x := by
  have hother : ∀ b' ∈ some b, b'.dirty = true → i ∈ p.unsaved → i / t.blockItems ≠ b'.index := by
    intro b' hb' _ _
    cases hb'
    exact hout
  obtain ⟨hend, hrecord⟩ := h.stored i hi x hx hother
  have hplace : i < b.index * t.blockItems ∨ b.index * t.blockItems +
      (b.image (min t.blockItems (t.size - b.index * t.blockItems))).length ≤ i := by
    apply outside_of_index_ne h.items_pos hout
    rw [Block.length_image]
    exact Nat.min_le_left _ _
  refine ⟨hend.trans (SparseBytes.size_le_write ..), ?_⟩
  rw [spill, SparseBytes.record_write_take_of_outside _ _ _ _ _ hplace, hrecord]

/-- Once the whole block is written it counts as unchanged, and nothing is unsaved. -/
theorem Secures.saved (h : t.Secures (some b) p) :
    Secures { t with disk := { t.disk with
      bytes := t.disk.bytes.write (b.index * t.blockItems * width τ) (t.spill b) } }
      (some { b with dirty := false }) p.saved := by
  have hwhole : (t.spill b).take (t.spill b).length = t.spill b := List.take_length
  have hbounded := h.bounded_spill (t.spill b).length
  rw [hwhole] at hbounded
  refine ⟨h.width_pos, h.items_pos, h.trim.write _ _ _, h.size_eq, h.offset_eq, h.offset_le,
    hbounded, ?_, ?_⟩
  · intro i hi x hx _
    change p.record i = some x at hx
    by_cases hin : i / t.blockItems = b.index
    · have hplace := place_of_index hin
      have hslot := Nat.mod_lt i h.items_pos
      have hlt : i < t.size := by rw [h.size_eq]; exact hi
      have hk : i % t.blockItems <
          (b.image (min t.blockItems (t.size - b.index * t.blockItems))).length := by
        rw [Block.length_image]
        omega
      have hdata : t.spill b ≠ [] := by
        rw [← List.length_pos_iff, spill, length_encodeAll]
        exact Nat.mul_pos (by omega) h.width_pos
      have hend : (i + 1) * width τ ≤ b.index * t.blockItems * width τ + (t.spill b).length := by
        rw [spill, length_encodeAll, ← Nat.add_mul]
        exact Nat.mul_le_mul_right _ (by omega)
      constructor
      · rw [SparseBytes.size_write, if_neg hdata]
        exact hend.trans (Nat.le_max_right _ _)
      · conv_lhs => rw [hplace]
        rw [spill, SparseBytes.record_write_of_inside _ _ _ _ hk, Block.getElem_image]
        exact h.cached b rfl i hi x hx hin
    · have hbeside := h.stored_beside (t.spill b).length hi hx hin
      rw [hwhole] at hbeside
      exact hbeside
  · intro b' hb' i hi x hx hin
    cases hb'
    exact h.cached b rfl i hi x hx hin

end Image

/-- Where a write of the block breaks off makes no difference to what is on the disk already. -/
theorem Secures.spilled [CanonicalFixedWidth τ] (h : t.Secures (some b) p) (count : Nat) :
    Secures { t with disk := { t.disk with
      bytes := t.disk.bytes.write (b.index * t.blockItems * width τ)
        ((t.spill b).take count) } } (some b) p := by
  refine ⟨h.width_pos, h.items_pos, h.trim.write _ _ _, h.size_eq, h.offset_eq, h.offset_le,
    h.bounded_spill count, ?_, h.cached⟩
  intro i hi x hx hother
  by_cases hin : i / t.blockItems = b.index
  · obtain ⟨hend, hrecord⟩ := h.stored i hi x hx hother
    refine ⟨hend.trans (SparseBytes.size_le_write ..), ?_⟩
    have hplace := place_of_index hin
    have hslot := Nat.mod_lt i h.items_pos
    have hlt : i < t.size := by rw [h.size_eq]; exact hi
    have hk : i % t.blockItems <
        (b.image (min t.blockItems (t.size - b.index * t.blockItems))).length := by
      rw [Block.length_image]
      omega
    have hsame : t.disk.bytes.record τ (b.index * t.blockItems + i % t.blockItems) =
        (b.image (min t.blockItems (t.size - b.index * t.blockItems)))[i % t.blockItems] := by
      rw [← hplace, hrecord, Block.getElem_image]
      exact (h.cached b rfl i hi x hx hin).symm
    conv_lhs => rw [hplace]
    rw [spill, SparseBytes.record_write_take_of_same _ _ _ _ _ hk hsame, ← hplace, hrecord]
  · exact h.stored_beside count hi hx hin

/-- A block read from the disk has what is owed. -/
theorem Secures.fetched (h : t.Secures none p) (index : Nat) (lease : Lease) :
    t.Secures (some {
      index
      items := decodeAll (t.disk.bytes.read (index * t.blockSize) t.blockSize)
      dirty := false
      lease }) p := by
  have hdisk := h.on_disk (by intro b hb; contradiction)
  refine ⟨h.width_pos, h.items_pos, h.trim, h.size_eq, h.offset_eq, h.offset_le, h.bounded, ?_, ?_⟩
  · intro i hi x hx _
    exact hdisk i hi x hx
  · intro b hb i hi x hx hin
    cases hb
    have hplace := place_of_index hin
    obtain ⟨hend, hrecord⟩ := hdisk i hi x hx
    simp only [Block.get, blockSize, ← Nat.mul_assoc]
    rw [SparseBytes.decodeAll_read _ _ _ _ h.width_pos (Nat.mod_lt i h.items_pos), ← hplace,
      hrecord]
    rwa [← hplace]

/-- A record that is set in the block at the cursor. -/
theorem Secures.written (h : t.Secures (some b) p) (hindex : b.index = t.offset / t.blockItems)
    (x : τ) :
    Secures { t with offset := t.offset + 1, size := max t.size (t.offset + 1) }
      (some (b.set (t.offset % t.blockItems) x)) (p.put x) := by
  have hoffset := h.offset_eq
  have hle := h.offset_le
  refine ⟨h.width_pos, h.items_pos, h.trim, ?_, ?_, ?_, ?_, ?_, ?_⟩
  · simp only [Pledge.put, h.size_eq, hoffset]
  · simp only [Pledge.put, hoffset]
  · exact Nat.le_max_right _ _
  · exact Nat.le_trans h.bounded (Nat.mul_le_mul_right _ (Nat.le_max_left _ _))
  · intro i hi y hy hother
    have hhere := hother _ rfl rfl
    simp only [Pledge.put] at hi hy hhere
    have hcursor : i ≠ p.offset := by
      intro heq
      apply hhere (by rw [heq]; exact List.mem_cons_self)
      rw [heq, ← hoffset]
      exact hindex.symm
    rw [if_neg hcursor] at hy
    apply h.stored i (by omega) y hy
    intro b' hb' _ hunsaved
    cases hb'
    exact hhere (List.mem_cons_of_mem _ hunsaved)
  · intro b' hb' i hi y hy hin
    cases hb'
    change i / t.blockItems = b.index at hin
    simp only [Pledge.put] at hi hy
    by_cases hcursor : i = p.offset
    · rw [if_pos hcursor] at hy
      rw [hcursor, hoffset, Block.get_set_self]
      exact Option.some.inj hy
    · rw [if_neg hcursor] at hy
      rw [Block.get_set_of_ne]
      · exact h.cached b rfl i (by omega) y hy hin
      · -- Two places of one block with the same slot are the same place.
        intro hslot
        have hplace := place_of_index hin
        have hplace' := place_of_index hindex.symm
        rw [hslot, ← hplace', hoffset] at hplace
        exact hcursor hplace

theorem Secures.truncated (h : t.Secures none p) (size : Nat) :
    Secures { t with
      disk := { t.disk with bytes := t.disk.bytes.resize (size * width τ) }
      size, offset := min t.offset size } none (p.truncate size) := by
  have hdisk := h.on_disk (by intro b hb; contradiction)
  refine ⟨h.width_pos, h.items_pos, t.disk.bytes.trim_resize _, rfl, ?_, ?_, ?_, ?_, ?_⟩
  · exact congrArg (min · size) h.offset_eq
  · exact Nat.min_le_right _ _
  · exact Nat.le_refl _
  · intro i hi x hx _
    change i < size at hi
    refine ⟨Nat.mul_le_mul_right _ hi, ?_⟩
    rw [SparseBytes.record_resize_of_lt _ _ _ hi]
    simp only [Pledge.truncate] at hx
    by_cases hlt : i < p.size
    · rw [if_pos hlt] at hx
      exact (hdisk i hlt x hx).2
    · rw [if_neg hlt] at hx
      have hend : t.disk.bytes.size ≤ i * width τ :=
        Nat.le_trans h.bounded (Nat.mul_le_mul_right _ (by rw [h.size_eq]; omega))
      rw [h.trim.record _ _ hend]
      exact Option.some.inj hx
  · intro b hb
    contradiction

/-- A tape in front of a file with these records, whatever its disk will refuse. -/
theorem honours_ofDisk [LawfulFixedWidth τ] (hwidth : 0 < width τ) (disk : Disk) (records : List τ)
    (path : Option String) (blockSize : Nat) :
    (ofDisk { disk with bytes := .ofList (encodeAll records) } path blockSize : Tape τ).Honours
      (.ofRecords records) := by
  have hsize : (SparseBytes.ofList (encodeAll records)).size = records.length * width τ := by
    rw [← length_encodeAll]
    exact List.size_toArray
  have hcount : (SparseBytes.ofList (encodeAll records)).size / width τ = records.length := by
    rw [hsize, Nat.mul_div_cancel _ hwidth]
  refine ⟨hwidth, Nat.le_max_left _ _, SparseBytes.trim_ofList _, hcount, rfl, Nat.zero_le _, ?_,
    ?_, fun _ hb => by contradiction⟩
  · exact (Nat.le_of_eq hsize).trans (Nat.le_of_eq (by rw [← hcount]; rfl))
  · intro i hi x hx _
    obtain ⟨hi', rfl⟩ := List.getElem?_eq_some_iff.mp hx
    refine ⟨?_, SparseBytes.record_ofList records i hi'⟩
    exact (Nat.mul_le_mul_right _ hi').trans (Nat.le_of_eq hsize.symm)

end Tape

end BoundedMerge
