import BoundedMerge.Proofs.Tape.Pledge
import BoundedMerge.Proofs.Tape.Reel

/-!
A tape on a disk that refuses nothing keeps the records of a reel. Every record stands at its
place on the disk, apart from those of a changed block, which stand in that block. That is to
secure a pledge that owes every record, and so what is done to the disk and to the block is known
already: the block is saved, another one is fetched, a record is set in it, and the tape is cut to
a new length while no block is cached.
-/

namespace BoundedMerge

open FixedWidth

variable {τ : Type}

/-- What the reel owes is every record, and none of them need be on the disk. -/
def Reel.pledge (r : Reel τ) : Pledge τ :=
  { Pledge.ofRecords r.records with offset := r.offset, unsaved := List.range r.records.length }

namespace Tape

variable [FixedWidth τ]

/-- The disk of the tape and a block taken from it hold the records of the reel between them. -/
structure Keeps (t : Tape τ) (block : Option (Block τ)) (r : Reel τ) : Prop where
  width_pos : 0 < width τ
  items_pos : 0 < t.blockItems
  reliable : t.disk.Reliable
  trim : t.disk.bytes.Trim
  size_eq : t.size = r.records.length
  offset_eq : t.offset = r.offset
  bounded : t.disk.bytes.size ≤ t.size * width τ
  stored : ∀ i x, r.records[i]? = some x →
    (∀ b ∈ block, b.dirty = true → i / t.blockItems ≠ b.index) →
    (i + 1) * width τ ≤ t.disk.bytes.size ∧ t.disk.bytes.record τ i = x
  cached : ∀ b ∈ block, ∀ i x, r.records[i]? = some x → i / t.blockItems = b.index →
    b.get (i % t.blockItems) = x

/-- The tape holds the records of the reel, and its cursor stands where that of the reel does. -/
def Shows (t : Tape τ) (r : Reel τ) : Prop := t.Keeps t.block r

variable {t : Tape τ} {b : Block τ} {block : Option (Block τ)} {r : Reel τ}

theorem Keeps.secures (h : t.Keeps block r) : t.Secures block r.pledge := by
  refine ⟨h.width_pos, h.items_pos, h.trim, h.size_eq, h.offset_eq, r.offset_le, h.bounded, ?_, ?_⟩
  · intro i hi x hx hother
    apply h.stored i x hx
    intro b hb hdirty
    exact hother b hb hdirty (List.mem_range.mpr hi)
  · intro b hb i _ x hx hin
    exact h.cached b hb i x hx hin

theorem Secures.keeps (h : t.Secures block r.pledge) (hreliable : t.disk.Reliable) :
    t.Keeps block r := by
  refine ⟨h.width_pos, h.items_pos, hreliable, h.trim, h.size_eq, h.offset_eq, h.bounded, ?_, ?_⟩
  · intro i x hx hother
    obtain ⟨hi, -⟩ := List.getElem?_eq_some_iff.mp hx
    apply h.stored i hi x hx
    intro b hb hdirty _
    exact hother b hb hdirty
  · intro b hb i x hx hin
    obtain ⟨hi, -⟩ := List.getElem?_eq_some_iff.mp hx
    exact h.cached b hb i hi x hx hin

/-- A block that was not changed need not be kept. -/
theorem Keeps.forget (h : t.Keeps (some b) r) (hclean : b.dirty = false) : t.Keeps none r := by
  apply (h.secures.forget ?_).keeps h.reliable
  intro b' hb'
  cases hb'
  exact hclean

/-- What the tape keeps in its cache makes no difference to what its disk and a block keep. -/
theorem Keeps.recache (h : t.Keeps block r) (cache : Option (Block τ)) :
    Keeps { t with block := cache } block r :=
  (h.secures.recache cache).keeps h.reliable

theorem Keeps.served (h : t.Keeps block r) (requests : Nat) :
    Keeps { t with disk := { t.disk with requests } } block r := by
  apply Secures.keeps
  · exact h.secures.redisk rfl
  · exact h.reliable

/-- Once the records of a block are written to their place the block counts as unchanged. -/
theorem Keeps.saved [LawfulFixedWidth τ] (h : t.Keeps (some b) r) :
    Keeps { t with disk := { t.disk with
      bytes := t.disk.bytes.write (b.index * t.blockItems * width τ)
        (encodeAll (b.image (min t.blockItems (t.size - b.index * t.blockItems)))) } }
      (some { b with dirty := false }) r := by
  have hsaved := h.secures.saved.settled
    (by intro b' hb'; cases hb'; rfl) (List.range r.records.length)
  exact Secures.keeps hsaved h.reliable

/-- A block read from the disk has the records of the reel. -/
theorem Keeps.fetched (h : t.Keeps none r) (index : Nat) (lease : Lease) :
    t.Keeps (some {
      index
      items := decodeAll (t.disk.bytes.read (index * t.blockSize) t.blockSize)
      dirty := false
      lease }) r :=
  (h.secures.fetched index lease).keeps h.reliable

/-- A record that is set in the block at the cursor. -/
theorem Keeps.written (h : t.Keeps (some b) r) (hindex : b.index = t.offset / t.blockItems)
    (x : τ) :
    Keeps { t with offset := t.offset + 1, size := max t.size (t.offset + 1) }
      (some (b.set (t.offset % t.blockItems) x)) (r.write x) := by
  have hlength : (r.write x).records.length = max r.records.length (r.offset + 1) :=
    Reel.length_writeArray [x] r
  apply Secures.keeps
  case hreliable => exact h.reliable
  apply (h.secures.written hindex x).mono
  · exact hlength
  · exact Reel.write_offset x r
  · intro i _ y hy
    rw [← hy]
    exact (Reel.getElem?_write x r i).symm
  · intro i hi
    have hplace : i = r.offset ∨ i ∈ List.range r.records.length := List.mem_cons.mp hi
    rw [List.mem_range] at hplace
    apply List.mem_range.mpr
    omega

theorem Keeps.truncated (h : t.Keeps none r) (size : Nat) :
    Keeps { t with
      disk := { t.disk with bytes := t.disk.bytes.resize (size * width τ) }
      size, offset := min t.offset size } none (r.truncate size) := by
  apply Secures.keeps
  case hreliable => exact h.reliable
  apply (h.secures.truncated size).mono
  · exact Reel.length_truncate size r
  · rfl
  · intro i hi x hx
    have hget := Reel.getElem?_truncate size r i hi
    have hrecord : (r.truncate size).records[i]? = some x := hx
    rw [hget, List.getD_eq_getElem?_getD] at hrecord
    change (if i < r.records.length then r.records[i]? else some zeroed) = some x
    rw [← hrecord]
    split
    · next hlt => rw [List.getElem?_eq_getElem hlt, Option.getD_some]
    · next hge => rw [List.getElem?_eq_none (by omega), Option.getD_none]
  · intro i hi
    contradiction

/-- A file that was written elsewhere shows its records when it is opened. -/
theorem shows_ofDisk [LawfulFixedWidth τ] (hwidth : 0 < width τ) (records : List τ)
    (path : Option String) (blockSize : Nat) :
    (ofDisk (Disk.ofBytes (encodeAll records)) path blockSize).Shows { records } := by
  have hsecures := honours_ofDisk hwidth (Disk.ofBytes []) records path blockSize
  apply Secures.keeps
  case hreliable => exact ⟨rfl, fun _ _ => rfl⟩
  apply hsecures.mono
  · rfl
  · rfl
  · intro i _ x hx
    exact hx
  · intro i hi
    contradiction

end Tape

end BoundedMerge
