import BoundedMerge.Proofs.Layout.Lawful

/-!
Records in buffers. Where no array has items of no bytes, a record goes into every buffer that is
as long as the record: it takes the front and is read back from there, and what is read from the
front of a buffer is written as it stood there. Every part of a record, however deep it lies, stands
at the place its layout gives it.
-/

namespace BoundedMerge.Layout

variable {l : Layout}

/-- No array has items of no bytes. -/
def Solid : Layout → Prop
  | scalar _ => True
  | array item _ => 0 < item.width ∧ item.Solid
  | pair first second => first.Solid ∧ second.Solid

theorem length_encode (v : l.Value) : (l.encode v).length = l.width :=
  LawfulFixedWidth.length_encode v

theorem decode_append (v : l.Value) (rest : List UInt8) : l.decode (l.encode v ++ rest) = v :=
  LawfulFixedWidth.decode_append v rest

theorem encode_decode {bytes : List UInt8} (h : l.width ≤ bytes.length) :
    l.encode (l.decode bytes) = bytes.take l.width :=
  (canonical l).encode_decode bytes h

theorem encode_pair {first second : Layout} (v : first.Value × second.Value) :
    (pair first second).encode v = first.encode v.1 ++ second.encode v.2 := rfl

theorem decode_take {bytes : List UInt8} (h : l.width ≤ bytes.length) :
    l.decode (bytes.take l.width) = l.decode bytes := by
  rw [← encode_decode h]
  have hback := decode_append (l.decode bytes) []
  rwa [List.append_nil] at hback

/-- Items that are each put at the front of their place fill their places from the front on. -/
theorem putItems_eq {α : Type} {put : α → List UInt8 → Option (List UInt8)} {width : Nat}
    {encode : α → List UInt8}
    (hput : ∀ x buffer, width ≤ buffer.length → put x buffer = some (encode x ++ buffer.drop width))
    (items : List α) {buffer : List UInt8} (h : width * items.length ≤ buffer.length) :
    putItems put width items buffer =
      some (items.flatMap encode ++ buffer.drop (width * items.length)) := by
  induction items generalizing buffer with
  | nil => rfl
  | cons x items ih =>
    rw [List.length_cons, Nat.mul_succ] at h ⊢
    have hfits : width ≤ buffer.length := by omega
    have hplace : (buffer.take width).length = width := List.length_take_of_le hfits
    have hhead : put x (buffer.take width) = some (encode x) := by
      rw [hput x _ hplace.ge, List.drop_eq_nil_of_le hplace.le, List.append_nil]
    have htail := @ih (buffer.drop width) (by rw [List.length_drop]; omega)
    rw [putItems, if_neg (Nat.not_lt.mpr hfits), hhead, htail, List.drop_drop, List.flatMap_cons,
      List.append_assoc, Nat.add_comm width]
    rfl

/-- A record takes the front of a buffer. -/
theorem encodeInto?_eq (hl : l.Solid) (v : l.Value) {buffer : List UInt8}
    (h : l.width ≤ buffer.length) :
    l.encodeInto? v buffer = some (l.encode v ++ buffer.drop l.width) := by
  induction l generalizing buffer with
  | scalar s => exact if_neg (Nat.not_lt.mpr h)
  | array item count ih =>
    obtain ⟨hitem, hsolid⟩ := hl
    have hcount : (Vector.toList v).length = count := Vector.length_toList
    rw [width, ← hcount] at h
    rw [encodeInto?, if_neg hitem.ne', putItems_eq (fun x _ => ih hsolid x) _ h, hcount]
    rfl
  | pair first second ihFirst ihSecond =>
    obtain ⟨hfirst, hsecond⟩ := hl
    rw [width] at h ⊢
    have hfront : (buffer.take first.width).length = first.width :=
      List.length_take_of_le (by omega)
    have hback : ((buffer.drop first.width).take second.width).length = second.width :=
      List.length_take_of_le (by rw [List.length_drop]; omega)
    have hhead : first.encodeInto? v.1 (buffer.take first.width) = some (first.encode v.1) := by
      rw [ihFirst hfirst v.1 hfront.ge, List.drop_eq_nil_of_le hfront.le, List.append_nil]
    have hmiddle : second.encodeInto? v.2 ((buffer.drop first.width).take second.width) =
        some (second.encode v.2) := by
      rw [ihSecond hsecond v.2 hback.ge, List.drop_eq_nil_of_le hback.le, List.append_nil]
    rw [encodeInto?, if_neg (Nat.not_lt.mpr h), hhead]
    simp only [Option.bind_eq_bind, Option.bind_some, hmiddle, List.drop_drop]
    rfl

theorem mapM_ofFn_some {α : Type} {count : Nat} (f : Fin count → α) :
    (Vector.ofFn fun i => some (f i)).mapM id = some (Vector.ofFn f) := by
  have hmap : (Vector.ofFn fun i => some (f i)) = (Vector.ofFn f).map some :=
    Vector.map_ofFn.symm
  rw [hmap, Vector.mapM_map]
  exact (Vector.mapM_pure id).trans (congrArg some (Vector.map_id _))

/-- What is read from a buffer is what its front stands for. -/
theorem decode?_eq {buffer : List UInt8} (h : l.width ≤ buffer.length) :
    l.decode? buffer = some (l.decode buffer) := by
  induction l generalizing buffer with
  | scalar s => exact if_neg (Nat.not_lt.mpr h)
  | array item count ih =>
    rw [width] at h
    have hitem (i : Fin count) : item.decode? (buffer.drop (i * item.width)) =
        some (item.decode (buffer.drop (i * item.width))) := by
      apply ih
      have hplace : (i + 1) * item.width ≤ count * item.width := Nat.mul_le_mul_right _ i.isLt
      rw [Nat.succ_mul, Nat.mul_comm count] at hplace
      rw [List.length_drop]
      omega
    change (Vector.ofFn fun i : Fin count => item.decode? (buffer.drop (i * item.width))).mapM id =
      some ((array item count).decode buffer)
    simp only [hitem]
    exact mapM_ofFn_some _
  | pair first second ihFirst ihSecond =>
    rw [width] at h
    have hfront : first.width ≤ buffer.length := by omega
    have hback : second.width ≤ (buffer.drop first.width).length := by
      rw [List.length_drop]
      omega
    have hhead : first.decode? (buffer.take first.width) = some (first.decode buffer) := by
      rw [ihFirst (List.length_take_of_le hfront).ge, decode_take hfront]
    have hmiddle : second.decode? ((buffer.drop first.width).take second.width) =
        some (second.decode (buffer.drop first.width)) := by
      rw [ihSecond (List.length_take_of_le hback).ge, decode_take hback]
    refine (if_neg (Nat.not_lt.mpr h)).trans ?_
    rw [hhead, hmiddle]
    rfl

/-- A part of a record: its layout, and how far into the record it stands. -/
inductive Piece : (l : Layout) → l.Value → Nat → (m : Layout) → m.Value → Prop
  | whole (l : Layout) (v : l.Value) : Piece l v 0 l v
  | item {item m : Layout} {count i offset : Nat} {v : Vector item.Value count} {x : m.Value}
    (hi : i < count) (h : Piece item v[i] offset m x) :
    Piece (array item count) v (i * item.width + offset) m x
  | first {first second m : Layout} {offset : Nat} {v : first.Value × second.Value} {x : m.Value}
    (h : Piece first v.1 offset m x) : Piece (pair first second) v offset m x
  | second {first second m : Layout} {offset : Nat} {v : first.Value × second.Value} {x : m.Value}
    (h : Piece second v.2 offset m x) : Piece (pair first second) v (first.width + offset) m x

variable {m : Layout} {v : l.Value} {x : m.Value} {offset : Nat}

/-- The bytes of a part stand in those of the record, at the place of the part. -/
theorem Piece.split (h : Piece l v offset m x) :
    ∃ before after, l.encode v = before ++ (m.encode x ++ after) ∧ before.length = offset := by
  induction h with
  | whole l v => exact ⟨[], [], by rw [List.append_nil, List.nil_append], rfl⟩
  | @item item m count i offset v x hi _ ih =>
    obtain ⟨before, after, hbytes, hoffset⟩ := ih
    have hlength : i < v.toList.length := by rwa [Vector.length_toList]
    have hfront : (FixedWidth.encodeAll (v.toList.take i)).length = i * item.width := by
      rw [FixedWidth.length_encodeAll, List.length_take_of_le hlength.le]
      rfl
    refine ⟨FixedWidth.encodeAll (v.toList.take i) ++ before,
      after ++ FixedWidth.encodeAll (v.toList.drop (i + 1)), ?_, ?_⟩
    · have hsplit : v.toList = v.toList.take i ++ v[i] :: v.toList.drop (i + 1) := by
        rw [← Vector.getElem_toList hlength, List.getElem_cons_drop hlength,
          List.take_append_drop]
      have hall : (array item count).encode v = FixedWidth.encodeAll (v.toList.take i) ++
          (item.encode v[i] ++ FixedWidth.encodeAll (v.toList.drop (i + 1))) := by
        refine (congrArg FixedWidth.encodeAll hsplit).trans ?_
        simp only [FixedWidth.encodeAll, List.flatMap_append, List.flatMap_cons]
        rfl
      rw [hall, hbytes]
      simp only [List.append_assoc]
    · rw [List.length_append, hfront, hoffset]
  | @first first second m offset v x _ ih =>
    obtain ⟨before, after, hbytes, hoffset⟩ := ih
    refine ⟨before, after ++ second.encode v.2, ?_, hoffset⟩
    rw [encode_pair, hbytes]
    simp only [List.append_assoc]
  | @second first second m offset v x _ ih =>
    obtain ⟨before, after, hbytes, hoffset⟩ := ih
    refine ⟨first.encode v.1 ++ before, after, ?_, ?_⟩
    · rw [encode_pair, hbytes, List.append_assoc]
    · rw [List.length_append, length_encode, hoffset]

/-- What a buffer has become when a record was written to its front. -/
structure Written (l : Layout) (v : l.Value) (buffer written : List UInt8) : Prop where
  length_eq : written.length = buffer.length
  behind : written.drop l.width = buffer.drop l.width
  back : l.decode? written = some v
  part {m : Layout} {x : m.Value} {offset : Nat} (h : Piece l v offset m x) :
    (written.drop offset).take m.width = m.encode x ∧ m.decode? (written.drop offset) = some x

theorem written_append (v : l.Value) {buffer : List UInt8} (h : l.width ≤ buffer.length) :
    Written l v buffer (l.encode v ++ buffer.drop l.width) := by
  have hlength : (l.encode v).length = l.width := length_encode v
  have hpart {m : Layout} {x : m.Value} {offset : Nat} (hx : Piece l v offset m x) :
      ((l.encode v ++ buffer.drop l.width).drop offset).take m.width = m.encode x ∧
        m.decode? ((l.encode v ++ buffer.drop l.width).drop offset) = some x := by
    obtain ⟨before, after, hbytes, hoffset⟩ := hx.split
    rw [hbytes, List.append_assoc, List.drop_left' hoffset, List.append_assoc]
    refine ⟨List.take_left' (length_encode x), ?_⟩
    rw [decode?_eq, decode_append]
    rw [List.length_append, length_encode]
    omega
  refine ⟨?_, List.drop_left' hlength, (hpart (.whole l v)).2, hpart⟩
  rw [List.length_append, hlength, List.length_drop]
  omega

/-- Records and the fronts of buffers determine each other. A record goes into every buffer that is
long enough, and is read back with all its parts at their places. What is read from a buffer that is
long enough is written, wherever it is written, as it stood at the front of the buffer. -/
theorem record_front_bijective (hl : l.Solid) (buffer : List UInt8) (h : l.width ≤ buffer.length) :
    (∀ v : l.Value, ∃ written,
      l.encodeInto? v buffer = some written ∧ Written l v buffer written) ∧
    ∃ v : l.Value, l.decode? buffer = some v ∧
      ∀ target : List UInt8, l.width ≤ target.length →
        l.encodeInto? v target = some (buffer.take l.width ++ target.drop l.width) := by
  constructor
  · intro v
    exact ⟨_, encodeInto?_eq hl v h, written_append v h⟩
  · refine ⟨l.decode buffer, decode?_eq h, ?_⟩
    intro target htarget
    rw [encodeInto?_eq hl _ htarget, encode_decode h]

/-- Pairs of one byte and two, so that no item but the first stands at an even place. -/
def oddPairs : Layout := array (pair (scalar (.unsigned .w8)) (scalar (.unsigned .w16))) 2

def twoOddPairs : oddPairs.Value :=
  (#v[((1 : BitVec 8), (0x0203 : BitVec 16)), (4, 0x0506)] : Vector (BitVec 8 × BitVec 16) 2)

/-- Two pairs in a buffer with one byte to spare. -/
theorem record_front_bijective_pairs :
    oddPairs.Solid ∧
      Written oddPairs twoOddPairs (List.replicate 7 0xFF) [1, 3, 2, 4, 6, 5, 0xFF] := by
  have hsolid : oddPairs.Solid := ⟨by decide, trivial, trivial⟩
  obtain ⟨hwrite, _⟩ := record_front_bijective hsolid (List.replicate 7 0xFF) (by decide)
  obtain ⟨written, hwritten, hback⟩ := hwrite twoOddPairs
  have hbytes : oddPairs.encodeInto? twoOddPairs (List.replicate 7 0xFF) =
      some [1, 3, 2, 4, 6, 5, 0xFF] := rfl
  rw [hbytes] at hwritten
  injection hwritten with hwritten
  rw [← hwritten] at hback
  exact ⟨hsolid, hback⟩

end BoundedMerge.Layout
