import BoundedMerge.Proofs.Disk.Records
import BoundedMerge.Tape.Error

/-!
A reel is what a tape is meant to be: a list of records and a cursor, without blocks or a disk.
Its operations are those of a tape, and it has nothing to flush or to release. Records that a
growing truncation adds are the ones that zeros stand for.
-/

namespace BoundedMerge

variable {τ : Type}

@[ext] structure Reel (τ : Type) where
  records : List τ
  /-- The cursor, the number of records before it. -/
  offset : Nat := 0
  offset_le : offset ≤ records.length := by omega

namespace Reel

def empty : Reel τ where
  records := []

def rest (r : Reel τ) : List τ := r.records.drop r.offset

def skip (r : Reel τ) (count : Nat) (h : r.offset + count ≤ r.records.length) : Reel τ where
  records := r.records
  offset := r.offset + count
  offset_le := h

def read (r : Reel τ) : Except TapeError τ × Reel τ :=
  if h : r.offset < r.records.length then (.ok r.records[r.offset], r.skip 1 h)
  else (.error .endOfTape, r)

def next? (r : Reel τ) : Except TapeError (Option τ) × Reel τ :=
  if h : r.offset < r.records.length then (.ok (some r.records[r.offset]), r.skip 1 h)
  else (.ok none, r)

def readBack (r : Reel τ) : Except TapeError τ × Reel τ :=
  have := r.offset_le
  if h : 0 < r.offset then
    (.ok r.records[r.offset - 1], { records := r.records, offset := r.offset - 1 })
  else (.error .beforeStart, r)

def readArray (count : Nat) (r : Reel τ) : Except TapeError (List τ) × Reel τ :=
  if h : r.offset + count ≤ r.records.length then (.ok (r.rest.take count), r.skip count h)
  else (.error .endOfTape, r)

def writeArray (xs : List τ) (r : Reel τ) : Reel τ where
  records := r.records.take r.offset ++ xs ++ r.records.drop (r.offset + xs.length)
  offset := r.offset + xs.length
  offset_le := by
    have := r.offset_le
    simp only [List.length_append, List.length_take, List.length_drop]
    omega

def write (x : τ) (r : Reel τ) : Reel τ := r.writeArray [x]

def seek (index : Nat) (r : Reel τ) : Except TapeError Unit × Reel τ :=
  if h : index ≤ r.records.length then (.ok (), { records := r.records, offset := index })
  else (.error (.seekOutOfRange index r.records.length), r)

def truncate [FixedWidth τ] (size : Nat) (r : Reel τ) : Reel τ where
  records := r.records.take size ++
    List.replicate (size - r.records.length) FixedWidth.zeroed
  offset := min r.offset size
  offset_le := by
    have := r.offset_le
    simp only [List.length_append, List.length_take, List.length_replicate]
    omega

@[simp] theorem skip_records (r : Reel τ) (count : Nat)
    (h : r.offset + count ≤ r.records.length) : (r.skip count h).records = r.records := rfl

@[simp] theorem skip_offset (r : Reel τ) (count : Nat)
    (h : r.offset + count ≤ r.records.length) : (r.skip count h).offset = r.offset + count := rfl

@[simp] theorem writeArray_nil (r : Reel τ) : r.writeArray [] = r := by
  ext1 <;> simp [writeArray]

@[simp] theorem write_offset (x : τ) (r : Reel τ) : (r.write x).offset = r.offset + 1 := rfl

theorem length_writeArray (xs : List τ) (r : Reel τ) :
    (r.writeArray xs).records.length = max r.records.length (r.offset + xs.length) := by
  have := r.offset_le
  simp only [writeArray, List.length_append, List.length_take, List.length_drop]
  omega

theorem length_truncate [FixedWidth τ] (size : Nat) (r : Reel τ) :
    (r.truncate size).records.length = size := by
  simp only [truncate, List.length_append, List.length_take, List.length_replicate]
  omega

/-- A truncation keeps the records in front of the new end and adds zeroed ones. -/
theorem getElem?_truncate [FixedWidth τ] (size : Nat) (r : Reel τ) (i : Nat) (hi : i < size) :
    (r.truncate size).records[i]? = some (r.records.getD i FixedWidth.zeroed) := by
  simp only [truncate]
  by_cases hlt : i < r.records.length
  · rw [List.getElem?_append_left (by rw [List.length_take]; omega), List.getElem?_take_of_lt hi,
      List.getD_eq_getElem?_getD, List.getElem?_eq_getElem hlt, Option.getD_some]
  · rw [List.getElem?_append_right (by rw [List.length_take]; omega), List.getElem?_replicate,
      if_pos (by rw [List.length_take]; omega), List.getD_eq_getElem?_getD,
      List.getElem?_eq_none (by omega), Option.getD_none]

/-- A write changes the record at the cursor and no other. -/
theorem getElem?_write (x : τ) (r : Reel τ) (i : Nat) :
    (r.write x).records[i]? = if i = r.offset then some x else r.records[i]? := by
  have hoff := r.offset_le
  have htake : (r.records.take r.offset).length = r.offset := List.length_take_of_le hoff
  simp only [write, writeArray, List.append_assoc, List.singleton_append, List.length_singleton]
  rcases Nat.lt_trichotomy i r.offset with hi | hi | hi
  · rw [if_neg (by omega), List.getElem?_append_left (by omega), List.getElem?_take_of_lt hi]
  · rw [if_pos hi, List.getElem?_append_right (by omega), htake, hi, Nat.sub_self,
      List.getElem?_cons_zero]
  · rw [if_neg (by omega), List.getElem?_append_right (by omega), htake,
      show i - r.offset = (i - (r.offset + 1)) + 1 by omega, List.getElem?_cons_succ,
      List.getElem?_drop]
    congr 1
    omega

theorem write_writeArray (x : τ) (xs : List τ) (r : Reel τ) :
    (r.write x).writeArray xs = r.writeArray (x :: xs) := by
  have hfront : (r.records.take r.offset ++ [x]).length = r.offset + 1 := by
    rw [List.length_append, List.length_take_of_le r.offset_le, List.length_singleton]
  ext1
  · simp only [write, writeArray, List.length_cons, List.length_nil, Nat.zero_add]
    rw [List.take_left' hfront, ← hfront, ← List.drop_drop, List.drop_left, List.drop_drop, hfront]
    simp only [List.append_assoc, List.cons_append, List.nil_append]
    rw [show r.offset + 1 + xs.length = r.offset + (xs.length + 1) by omega]
  · simp only [write, writeArray, List.length_cons, List.length_nil]
    omega

theorem writeArray_append (r : Reel τ) (xs ys : List τ) :
    (r.writeArray xs).writeArray ys = r.writeArray (xs ++ ys) := by
  induction xs generalizing r with
  | nil => rw [writeArray_nil, List.nil_append]
  | cons x xs ih => rw [← write_writeArray, ih, write_writeArray, List.cons_append]

theorem records_writeArray_empty (xs : List τ) : (empty.writeArray xs).records = xs := by
  simp [writeArray, empty]

/-- What was written on an empty reel can be read from its start. -/
theorem rest_seek_writeArray (xs : List τ) : ((empty.writeArray xs).seek 0).2.rest = xs := by
  rw [seek, dif_pos (Nat.zero_le _), rest, List.drop_zero, records_writeArray_empty]

end Reel

end BoundedMerge
