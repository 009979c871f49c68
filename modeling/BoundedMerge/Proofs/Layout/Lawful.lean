import BoundedMerge.Layout.Basic
import BoundedMerge.LittleEndian.Lemmas
import BoundedMerge.Proofs.Disk.Records

/-!
The records of every layout are lawful: writing and reading are inverse to each other. Scalars
are numbers in bytes, and arrays and pairs are as lawful as their parts.
-/

namespace BoundedMerge

open FixedWidth

namespace Scalar

theorem length_encode {s : Scalar} (v : s.Bits) : (encode v).length = s.bytes := by
  rw [encode, LittleEndian.length_encode]

theorem decode_append {s : Scalar} (v : s.Bits) (rest : List UInt8) :
    s.decode (encode v ++ rest) = v := by
  have hlt : v.toNat < 256 ^ s.bytes := by
    have h := v.isLt
    rwa [Nat.pow_mul] at h
  rw [decode, List.take_left' (length_encode v), encode, LittleEndian.decode_encode,
    Nat.mod_eq_of_lt hlt, BitVec.ofNat_toNat, BitVec.setWidth_eq]

theorem encode_decode {s : Scalar} (bytes : List UInt8) (h : s.bytes ≤ bytes.length) :
    encode (s.decode bytes) = bytes.take s.bytes := by
  have hlen : (bytes.take s.bytes).length = s.bytes := List.length_take_of_le h
  have hlt : LittleEndian.decode (bytes.take s.bytes) < 2 ^ (8 * s.bytes) := by
    have hlt := LittleEndian.decode_lt (bytes.take s.bytes)
    rw [hlen] at hlt
    rwa [Nat.pow_mul]
  have hrun := LittleEndian.encode_decode (bytes.take s.bytes)
  rw [hlen] at hrun
  rw [encode, decode, BitVec.toNat_ofNat, Nat.mod_eq_of_lt hlt, hrun]

end Scalar

namespace Layout

theorem encode_array {item : Layout} {count : Nat} (v : Vector item.Value count) :
    (array item count).encode v = encodeAll v.toList := rfl

section Array

variable {item : Layout} [LawfulFixedWidth item.Value] {count : Nat}

theorem length_encode_array (v : Vector item.Value count) :
    ((array item count).encode v).length = item.width * count := by
  rw [encode_array, length_encodeAll, Vector.length_toList, Nat.mul_comm]
  rfl

theorem decode_append_array (v : Vector item.Value count) (rest : List UInt8) :
    (array item count).decode ((array item count).encode v ++ rest) = v := by
  rw [encode_array]
  apply Vector.ext
  intro i hi
  have hlen : i < v.toList.length := by rwa [Vector.length_toList]
  have hle : i * item.width ≤ (encodeAll v.toList).length := by
    rw [length_encodeAll]
    exact Nat.mul_le_mul_right _ hlen.le
  have hdrop := drop_encodeAll v.toList i hlen
  simp only [decode, Vector.getElem_ofFn]
  rw [List.drop_append_of_le_length hle]
  change FixedWidth.decode (List.drop (i * FixedWidth.width item.Value) _ ++ rest) = _
  rw [hdrop, List.append_assoc, LawfulFixedWidth.decode_append, Vector.getElem_toList]

end Array

instance lawful (l : Layout) : LawfulFixedWidth l.Value := by
  induction l with
  | scalar s => exact ⟨Scalar.length_encode, Scalar.decode_append⟩
  | array item count ih => exact ⟨length_encode_array, decode_append_array⟩
  | pair first second ihFirst ihSecond =>
    have hfirst (v : first.Value) : (first.encode v).length = first.width :=
      LawfulFixedWidth.length_encode v
    have hsecond (v : second.Value) : (second.encode v).length = second.width :=
      LawfulFixedWidth.length_encode v
    refine ⟨fun v => ?_, fun v rest => ?_⟩
    · exact (List.length_append ..).trans (congrArg₂ _ (hfirst v.1) (hsecond v.2))
    · have hv : (first.encode v.1 ++ second.encode v.2) ++ rest =
          first.encode v.1 ++ (second.encode v.2 ++ rest) := List.append_assoc ..
      change (first.decode ((first.encode v.1 ++ second.encode v.2) ++ rest),
        second.decode (((first.encode v.1 ++ second.encode v.2) ++ rest).drop first.width)) = v
      rw [hv, List.drop_left' (hfirst v.1)]
      exact Prod.ext (LawfulFixedWidth.decode_append v.1 _) (LawfulFixedWidth.decode_append v.2 _)

section Array

variable {item : Layout} [CanonicalFixedWidth item.Value] {count : Nat}

/-- Records read side by side and written side by side. -/
theorem encodeAll_ofFn (count : Nat) (bytes : List UInt8)
    (h : item.width * count ≤ bytes.length) :
    encodeAll (List.ofFn fun i : Fin count => item.decode (bytes.drop (i * item.width))) =
      bytes.take (item.width * count) := by
  induction count generalizing bytes with
  | zero => simp [encodeAll]
  | succ count ih =>
    rw [Nat.mul_succ] at h
    have hhead : FixedWidth.encode (item.decode bytes) = bytes.take item.width :=
      CanonicalFixedWidth.encode_decode bytes (le_trans (Nat.le_add_left _ _) h)
    have htail := ih (bytes.drop item.width) (by rw [List.length_drop]; omega)
    simp only [encodeAll, List.drop_drop] at htail
    simp only [encodeAll, List.ofFn_succ, List.flatMap_cons, Fin.val_zero, Fin.val_succ,
      Nat.zero_mul, List.drop_zero, Nat.succ_mul, Nat.add_comm _ item.width, htail, hhead]
    rw [Nat.mul_succ, Nat.add_comm, List.take_add]

theorem encode_decode_array (bytes : List UInt8) (h : item.width * count ≤ bytes.length) :
    (array item count).encode ((array item count).decode bytes) =
      bytes.take (item.width * count) := by
  rw [← encodeAll_ofFn count bytes h, ← Vector.toList_ofFn]
  rfl

end Array

instance canonical (l : Layout) : CanonicalFixedWidth l.Value := by
  induction l with
  | scalar s => exact ⟨Scalar.encode_decode⟩
  | array item count ih => exact ⟨encode_decode_array⟩
  | pair first second ihFirst ihSecond =>
    refine ⟨fun bytes h => ?_⟩
    change first.width + second.width ≤ bytes.length at h
    change first.encode (first.decode bytes) ++ second.encode (second.decode
      (bytes.drop first.width)) = bytes.take (first.width + second.width)
    have hhead : first.encode (first.decode bytes) = bytes.take first.width :=
      ihFirst.encode_decode bytes (le_trans (Nat.le_add_right _ _) h)
    have htail : second.encode (second.decode (bytes.drop first.width)) =
        (bytes.drop first.width).take second.width := by
      refine ihSecond.encode_decode (bytes.drop first.width) ?_
      rw [List.length_drop]
      exact Nat.le_sub_of_add_le' h
    rw [hhead, htail, List.take_add]

end Layout

abbrev Byte : Type := (Layout.scalar (.unsigned .w8)).Value

instance : DecidableEq Byte := inferInstanceAs (DecidableEq (BitVec 8))

theorem width_byte_pos : 0 < FixedWidth.width Byte := Nat.one_pos

abbrev Word : Type := (Layout.scalar (.unsigned .w64)).Value

theorem width_word_pos : 0 < FixedWidth.width Word := Nat.succ_pos 7

end BoundedMerge
