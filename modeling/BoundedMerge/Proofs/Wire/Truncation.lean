import BoundedMerge.Proofs.Wire.RoundTrip

/-!
Bytes that end too early. A read goes through its bytes from front to back and never looks ahead,
so on the first of some bytes it runs out of them or does what it does on all. The bytes of a datum
are used up to the last one when it is read, so the datum cannot be read from fewer, and
wherever they are cut off the read tells that they are missing.
-/

namespace BoundedMerge.Wire

variable {α β : Type}

/-- The work runs out of bytes, or it would do the same if more bytes followed, and leave these. -/
def Sequential (work : ReadM α) : Prop :=
  ∀ bytes more : List UInt8,
    (work.run { bytes } : Except WireError α × Source) = (.error .outOfBytes, { bytes := [] }) ∨
    ∃ out rest, (work.run { bytes } : Except WireError α × Source) = (out, { bytes := rest }) ∧
      (work.run { bytes := bytes ++ more } : Except WireError α × Source) =
        (out, { bytes := rest ++ more })

namespace Sequential

theorem pure (a : α) : Sequential (pure a : ReadM α) :=
  fun bytes _ => .inr ⟨.ok a, bytes, rfl, rfl⟩

theorem throw (e : WireError) : Sequential (throw e : ReadM α) :=
  fun bytes _ => .inr ⟨.error e, bytes, rfl, rfl⟩

theorem bind {work : ReadM α} {next : α → ReadM β} (hwork : Sequential work)
    (hnext : ∀ a, Sequential (next a)) : Sequential (work >>= next) := by
  intro bytes more
  rw [run_bind, run_bind]
  rcases hwork bytes more with hshort | ⟨out, rest, hrun, hmore⟩
  · rw [hshort]
    exact .inl rfl
  · rw [hrun, hmore]
    cases out with
    | error e => exact .inr ⟨.error e, rest, rfl, rfl⟩
    | ok a => exact hnext a rest more

theorem ite {c : Prop} [Decidable c] {work work' : ReadM α} (h : Sequential work)
    (h' : Sequential work') : Sequential (if c then work else work') := by
  split
  · exact h
  · exact h'

theorem take (count : Nat) : Sequential (take count) := by
  intro bytes more
  rw [run_take, run_take]
  by_cases hshort : bytes.length < count
  · left
    rw [List.take_of_length_le (by omega), if_pos hshort, List.drop_of_length_le (by omega)]
  · right
    have htake : (bytes ++ more).take count = bytes.take count :=
      List.take_append_of_le_length (by omega)
    have hdrop : (bytes ++ more).drop count = bytes.drop count ++ more :=
      List.drop_append_of_le_length (by omega)
    have hlength : ¬(bytes.take count).length < count := by
      rw [List.length_take]
      omega
    rw [htake, hdrop, if_neg hlength, if_neg hlength]
    exact ⟨_, _, rfl, rfl⟩

theorem takeNumber (count : Nat) : Sequential (takeNumber count) :=
  (take count).bind fun _ => pure _

theorem readBool : Sequential readBool := by
  apply (takeNumber 1).bind
  intro byte
  split
  · exact pure _
  · exact pure _
  · exact throw _

theorem readOptionFlag : Sequential readOptionFlag := by
  apply (takeNumber 1).bind
  intro byte
  split
  · exact pure _
  · exact pure _
  · exact throw _

theorem readChar : Sequential readChar :=
  (takeNumber 4).bind fun _ => ite (pure _) (throw _)

theorem readCounted : Sequential readCounted := (takeNumber 2).bind take

theorem readText : Sequential readText := by
  apply readCounted.bind
  intro data
  cases Utf8.decode data with
  | ok s => exact pure s
  | error fault => exact throw _

theorem readItems {item : ReadM α} (hitem : Sequential item) (count : Nat) (items : List α) :
    Sequential (readItems item count items) := by
  induction count generalizing items with
  | zero => exact pure _
  | succ count ih => exact hitem.bind fun x => ih (x :: items)

variable {tagged : Bool}

theorem expect (tag : Token.Tag) : Sequential (expect tagged tag) := by
  apply ite
  · exact (takeNumber 1).bind fun _ => ite (throw _) (pure _)
  · exact pure _

theorem readAll {kinds : List Kind} (h : ∀ k ∈ kinds, Sequential (read tagged k)) :
    Sequential (readAll tagged kinds) := by
  induction kinds with
  | nil => exact pure _
  | cons k kinds ih =>
    obtain ⟨hhead, htail⟩ := List.forall_mem_cons.mp h
    exact hhead.bind fun _ => (ih htail).bind fun _ => pure _

/-- No read of a datum looks ahead. -/
theorem read (k : Kind) : Sequential (read tagged k) := by
  induction k using Kind.inductParts with
  | bool => exact (expect _).bind fun _ => readBool.bind fun _ => pure _
  | scalar s => exact (expect _).bind fun _ => (take _).bind fun _ => pure _
  | char => exact (expect _).bind fun _ => readChar.bind fun _ => pure _
  | text => exact (expect _).bind fun _ => readText.bind fun _ => pure _
  | bytes => exact (expect _).bind fun _ => readCounted.bind fun _ => pure _
  | unit => exact (expect _).bind fun _ => pure _
  | option k ih =>
    apply (expect _).bind
    intro _
    apply readOptionFlag.bind
    intro present
    exact ite (ih.bind fun _ => pure _) (pure _)
  | wrapper k ih => exact ih
  | seq item ih =>
    apply (expect _).bind
    intro _
    apply (takeNumber 2).bind
    intro count
    exact (ih.readItems count []).bind fun _ => pure _
  | tuple fields ih => exact (expect _).bind fun _ => (readAll ih).bind fun _ => pure _
  | map key value ihKey ihValue =>
    have hentry : Sequential (do
        let k ← Wire.read tagged key
        let v ← Wire.read tagged value
        return (k, v)) := ihKey.bind fun _ => ihValue.bind fun _ => pure _
    apply (expect _).bind
    intro _
    apply (takeNumber 2).bind
    intro count
    exact (hentry.readItems count []).bind fun _ => pure _
  | struct fields ih => exact (expect _).bind fun _ => (readAll ih).bind fun _ => pure _
  | enum variants ih =>
    apply (expect _).bind
    intro _
    apply (takeNumber 4).bind
    intro index
    by_cases hindex : index < variants.length
    · have hget : variants[index]? = some variants[index] := List.getElem?_eq_getElem hindex
      rw [if_pos hindex, readVariant_eq hget]
      exact (readAll (ih _ (List.getElem_mem hindex))).bind fun _ => pure _
    · rw [if_neg hindex]
      exact throw _
  | any => exact throw _
  | refusing message => exact throw _

end Sequential

/-- A read that goes through its bytes without looking ahead and uses up all the bytes of what it
gives cannot do with fewer. -/
theorem Spells.truncated {work : ReadM α} {spelling : α → List UInt8 → Prop}
    (h : Spells work spelling) (hwork : Sequential work) {a : α} {front back : List UInt8}
    (ha : spelling a (front ++ back)) (hback : back ≠ []) :
    (work.run { bytes := front } : Except WireError α × Source) =
      (.error .outOfBytes, { bytes := [] }) := by
  have hwhole : (work.run { bytes := front ++ back } : Except WireError α × Source) =
      (.ok a, { bytes := [] }) :=
    (h _ _ _).mpr ⟨front ++ back, ha, by rw [List.append_nil]⟩
  rcases hwork front back with hshort | ⟨out, rest, -, hmore⟩
  · exact hshort
  · rw [hwhole] at hmore
    have hrest : [] = rest ++ back := congrArg (fun run => run.2.bytes) hmore
    exact absurd (List.append_eq_nil_iff.mp hrest.symm).2 hback

/-- Fewer bytes than a header has are a bad header. -/
theorem readHeader_of_short {bytes : List UInt8} (h : bytes.length < 28) :
    ∃ after, (readHeader.run { bytes } : Except WireError Bool × Source) =
      (.error .badHeader, after) := by
  cases hrun : (readHeader.run { bytes } : Except WireError Bool × Source) with
  | mk out after =>
    cases out with
    | error e => exact ⟨after, by rw [error_readHeader hrun]⟩
    | ok tagged =>
      obtain ⟨_, rfl, hsrc⟩ := (spells_readHeader _ _ _).mp hrun
      have hbytes : bytes = header tagged ++ after.bytes := congrArg Source.bytes hsrc
      rw [hbytes, List.length_append, length_header] at h
      omega

/-- Wherever the bytes of a datum are cut off, reading the datum from what is left fails: the header
is bad if the cut is in it, and bytes are missing if it is behind it. -/
theorem truncation_detected {tagged : Bool} {k : Kind} {d : Datum} {bytes front : List UInt8}
    (hd : k.Holds d) (hbytes : toBytes tagged d = .ok bytes) (hfront : front <+: bytes)
    (hcut : front ≠ bytes) :
    ofBytes k front = .error (if front.length < 28 then .badHeader else .outOfBytes) := by
  obtain ⟨body, hbody, rfl⟩ := (toBytes_eq_ok_iff hd).mp hbytes
  obtain ⟨back, hback⟩ := hfront
  have hmissing : back ≠ [] := by
    intro hnone
    rw [hnone, List.append_nil] at hback
    exact hcut hback
  rw [ofBytes, run_bind]
  by_cases hshort : front.length < 28
  · obtain ⟨after, hrun⟩ := readHeader_of_short hshort
    rw [hrun, if_pos hshort]
  · obtain ⟨rest, rfl⟩ : header tagged <+: front := by
      apply List.prefix_of_prefix_length_le (List.prefix_append _ body)
      · exact ⟨back, hback⟩
      · rw [length_header]
        omega
    rw [List.append_assoc] at hback
    have hsplit : rest ++ back = body := List.append_cancel_left hback
    have hheader : (readHeader.run { bytes := header tagged ++ rest } :
        Except WireError Bool × Source) = (.ok tagged, { bytes := rest }) :=
      (spells_readHeader _ _ _).mpr ⟨_, rfl, rfl⟩
    have hsequential : Sequential (read tagged k) := Sequential.read k
    have hspelled : Spelled tagged k d (rest ++ back) := ⟨hd, hsplit ▸ hbody⟩
    have hread := (spells_read k).truncated hsequential hspelled hmissing
    rw [hheader, if_neg hshort]
    exact congrArg Prod.fst hread

/-- A map of one entry, with a character of two bytes in its key. -/
def entryOfTwoBytes : Datum := .map [(.text "é", .absent)]

def bytesOfEntry : List UInt8 := [21, 1, 0, 15, 2, 0, 0xC3, 0xA9, 17, 0]

/-- A cut between the two bytes of the character, and one before the last byte of the header. -/
theorem truncation_detected_map :
    (Kind.map .text (.option .char)).Holds entryOfTwoBytes ∧
      toBytes true entryOfTwoBytes = .ok (header true ++ bytesOfEntry) ∧
      ofBytes (.map .text (.option .char)) (header true ++ bytesOfEntry.take 7) =
        .error .outOfBytes ∧
      ofBytes (.map .text (.option .char)) ((header true).take 27) = .error .badHeader := by
  have hd : (Kind.map .text (.option .char)).Holds entryOfTwoBytes :=
    .map (by simpa using Kind.Holds.text "é") (by simpa using Kind.Holds.absent)
  have hbytes : toBytes true entryOfTwoBytes = .ok (header true ++ bytesOfEntry) :=
    (toBytes_eq_ok_iff hd).mpr ⟨_, rfl, rfl⟩
  have hlength : (header true).length = 28 := length_header true
  refine ⟨hd, hbytes, ?_, ?_⟩
  · have hfront : header true ++ bytesOfEntry.take 7 <+: header true ++ bytesOfEntry :=
      (List.prefix_append_right_inj _).mpr (List.take_prefix 7 _)
    have hcut : header true ++ bytesOfEntry.take 7 ≠ header true ++ bytesOfEntry := by
      simp [bytesOfEntry]
    have h := truncation_detected hd hbytes hfront hcut
    rwa [List.length_append, hlength, if_neg (by omega)] at h
  · have hfront : (header true).take 27 <+: header true ++ bytesOfEntry :=
      (List.take_prefix 27 _).trans (List.prefix_append _ _)
    have hshort : ((header true).take 27).length < 28 := by
      rw [List.length_take]
      omega
    have hcut : (header true).take 27 ≠ header true ++ bytesOfEntry := by
      intro hsame
      rw [hsame, List.length_append] at hshort
      omega
    have h := truncation_detected hd hbytes hfront hcut
    rwa [if_pos hshort] at h

end BoundedMerge.Wire
