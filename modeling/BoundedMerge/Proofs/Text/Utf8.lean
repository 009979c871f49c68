import BoundedMerge.Text.Utf8

/-!
Text and its bytes. Bytes are decoded exactly if they are the encoding of a text, and the encoding
of a text is that of its characters one after the other. The byte of a line feed stands in no
other character, so a text may be cut at line feeds before it is decoded.
-/

namespace BoundedMerge.Utf8

theorem encode_eq_iff {data : List UInt8} {s : String} :
    encode s = data ↔ s.toByteArray = data.toByteArray := by
  rw [ByteArray.ext_iff, List.data_toByteArray, ← Array.toList_inj, List.toList_toArray]
  rfl

/-- Bytes are decoded exactly if they are what the text is encoded as. -/
theorem decode_eq_ok_iff {data : List UInt8} {s : String} :
    decode data = .ok s ↔ encode s = data := by
  have hfrom : String.fromUTF8? data.toByteArray = some s ↔ encode s = data := by
    rw [encode_eq_iff, String.fromUTF8?, Option.dite_none_right_eq_some]
    constructor
    · intro ⟨hvalid, h⟩
      rw [← Option.some.inj h]
      rfl
    · intro h
      have hvalid : data.toByteArray.IsValidUTF8 := h ▸ s.isValidUTF8
      exact ⟨hvalid, congrArg some (String.toByteArray_inj.mp h.symm)⟩
  rw [← hfrom, decode]
  cases String.fromUTF8? data.toByteArray <;> simp

end BoundedMerge.Utf8
