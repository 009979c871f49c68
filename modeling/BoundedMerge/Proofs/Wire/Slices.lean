import BoundedMerge.Proofs.Wire.Reading
import BoundedMerge.Wire.Buffer

/-!
Items without a list around them. Items are written as the sequence of them is, and a sequence is
read into a buffer as it is read otherwise, with the items in the first places of the buffer. The
two differ only where a buffer has too few places for the items that a sequence declares.
-/

namespace BoundedMerge.Wire

variable {α β : Type} {tagged : Bool}

theorem forM_write (items : List Datum) : items.forM (write tagged) = writeAll tagged items := by
  induction items with
  | nil => rfl
  | cons d items ih =>
    change (do write tagged d; items.forM (write tagged)) = writeAll tagged (d :: items)
    rw [ih, writeAll]

theorem writeSlice_eq (items : List Datum) :
    writeSlice tagged items = write tagged (.seq items) := by
  rw [writeSlice, forM_write, write]

/-- What work on a buffer comes to: its outcome and the buffer, and what is left of the source. -/
def fill (work : BufferM α) (buffer : Array Datum) (src : Source) :
    (Except WireError α × Array Datum) × Source :=
  (work.run.run buffer).run src

section Fill

variable (buffer : Array Datum) (src : Source)

theorem fill_pure (a : α) : fill (pure a) buffer src = ((.ok a, buffer), src) := rfl

theorem fill_throw (e : WireError) :
    fill (throw e : BufferM α) buffer src = ((.error e, buffer), src) := rfl

theorem fill_get : fill get buffer src = ((.ok buffer, buffer), src) := rfl

theorem fill_modify (f : Array Datum → Array Datum) :
    fill (modify f) buffer src = ((.ok ⟨⟩, f buffer), src) := rfl

theorem fill_bind (work : BufferM α) (next : α → BufferM β) :
    fill (work >>= next) buffer src = match fill work buffer src with
      | ((.ok a, buffer), src) => fill (next a) buffer src
      | ((.error e, buffer), src) => ((.error e, buffer), src) := by
  change (match fill work buffer src with
    | ((out, buffer), src) => ((ExceptT.bindCont next out).run buffer).run src) = _
  rcases fill work buffer src with ⟨⟨_ | _, _⟩, _⟩ <;> rfl

theorem fill_reading (work : ReadM α) : fill (reading work) buffer src =
    (((work.run src : Except WireError α × Source).1, buffer), (work.run src).2) := by
  have hrun : fill (liftM (work.run : StateM Source (Except WireError α)) : BufferM _) buffer src =
      ((.ok (work.run src : Except WireError α × Source).1, buffer), (work.run src).2) := rfl
  unfold reading
  rw [fill_bind, hrun]
  cases (work.run src : Except WireError α × Source).1 with
  | ok a => rfl
  | error e => rfl

end Fill

/-- A place of the buffer that is written lies between those in front and those behind. -/
theorem toList_setIfInBounds {buffer : Array Datum} {place : Nat} (h : place < buffer.size)
    (d : Datum) (count : Nat) :
    (buffer.setIfInBounds place d).toList.take (place + 1) = buffer.toList.take place ++ [d] ∧
      (buffer.setIfInBounds place d).toList.drop (place + 1 + count) =
        buffer.toList.drop (place + 1 + count) := by
  have hlength : place < buffer.toList.length := by rwa [Array.length_toList]
  rw [Array.toList_setIfInBounds]
  constructor
  · rw [List.take_set, List.take_succ_eq_append_getElem hlength]
    rw [List.set_append_right _ _ (by rw [List.length_take]; omega), List.length_take,
      Nat.min_eq_left (by omega), Nat.sub_self, List.set_cons_zero]
  · exact List.drop_set_of_lt (by omega)

/-- The items are read into the buffer as they are read otherwise: both fail in the same way, or
they come to stand in the places from `place` on. -/
theorem fill_readFrom (tagged : Bool) (k : Kind) {place count : Nat} {buffer : Array Datum}
    (hroom : place + count ≤ buffer.size) (before : List Datum) (src : Source) :
    (∃ e after left, left.size = buffer.size ∧
      (readItems (read tagged k) count before).run src = (.error e, after) ∧
      fill (readFrom tagged k place count) buffer src = ((.error e, left), after)) ∨
    ∃ items after left, items.length = count ∧
      left.toList = buffer.toList.take place ++ (items ++ buffer.toList.drop (place + count)) ∧
      (readItems (read tagged k) count before).run src = (.ok (before.reverse ++ items), after) ∧
      fill (readFrom tagged k place count) buffer src = ((.ok ⟨⟩, left), after) := by
  induction count generalizing place buffer before src with
  | zero =>
    right
    refine ⟨[], src, buffer, List.length_nil, ?_, ?_, fill_pure buffer src _⟩
    · rw [List.nil_append, Nat.add_zero, List.take_append_drop]
    · rw [List.append_nil]
      rfl
  | succ count ih =>
    rw [readItems, run_bind, readFrom, fill_bind, fill_reading]
    cases hread : ((read tagged k).run src : Except WireError Datum × Source) with
    | mk out behind =>
      cases out with
      | error e => exact .inl ⟨e, behind, buffer, rfl, rfl, rfl⟩
      | ok d =>
        simp only [fill_bind, fill_modify]
        have hsize : (buffer.setIfInBounds place d).size = buffer.size :=
          Array.size_setIfInBounds
        have hplace : place < buffer.size := by omega
        have hroom' : place + 1 + count ≤ (buffer.setIfInBounds place d).size := by omega
        obtain ⟨e, after, left, hleft, hitems, hfill⟩ |
          ⟨items, after, left, hlength, hleft, hitems, hfill⟩ := ih hroom' (d :: before) behind
        · exact .inl ⟨e, after, left, hleft.trans hsize, hitems, hfill⟩
        · right
          refine ⟨d :: items, after, left, by rw [List.length_cons, hlength], ?_, ?_, hfill⟩
          · obtain ⟨hfront, hback⟩ := toList_setIfInBounds hplace d count
            rw [hleft, hfront, hback, List.append_assoc, List.singleton_append,
              List.cons_append, Nat.add_assoc, Nat.add_comm 1]
          · rw [hitems, List.reverse_cons, List.append_assoc, List.singleton_append]

/-- Reads what stands in front of the items of a sequence and gives their declared number. -/
def readDeclared (tagged : Bool) : ReadM Nat := do
  expect tagged .seq
  readCount

/-- The number that is declared is the one that the token of a sequence tells. -/
theorem spells_readDeclared :
    Spells (readDeclared tagged) fun count data => (Token.seq count).spell tagged = .ok data := by
  have hcount : Spells readCount fun n bytes => (Token.seq n).payload = .ok bytes :=
    spells_readCount fun _ => rfl
  apply ((spells_expect Token.Tag.seq).bind fun _ _ _ => hcount).congr
  intro count data
  rw [Token.spell_eq_ok_iff]
  constructor
  · intro h
    obtain ⟨_, head, tail, rfl, htail, rfl⟩ := h
    exact ⟨tail, htail, rfl⟩
  · intro h
    obtain ⟨payload, hpayload, rfl⟩ := h
    exact ⟨⟨⟩, _, payload, rfl, hpayload, rfl⟩

theorem read_seq (k : Kind) : read tagged (.seq k) = do
    let count ← readDeclared tagged
    return .seq (← readItems (read tagged k) count []) := by
  rw [read, readDeclared, bind_assoc]

theorem readInto_eq (k : Kind) : readInto tagged k = do
    let count ← reading (readDeclared tagged)
    let buffer ← get
    if buffer.size < count then throw (.arrayTooShort count buffer.size)
    readFrom tagged k 0 count
    return count := rfl

/-- Filling a buffer comes to the same as reading a sequence: the same failure, or the same items in
the first places of the buffer, with the others as they were. -/
inductive Fills (buffer : Array Datum) :
    Except WireError Datum × Source → (Except WireError Nat × Array Datum) × Source → Prop
  | failed {e : WireError} {after : Source} {left : Array Datum}
    (hsize : left.size = buffer.size) : Fills buffer (.error e, after) ((.error e, left), after)
  | filled {items : List Datum} {after : Source} {left : Array Datum}
    (hroom : items.length ≤ buffer.size)
    (hleft : left.toList = items ++ buffer.toList.drop items.length) :
    Fills buffer (.ok (.seq items), after) ((.ok items.length, left), after)

theorem fill_readInto_of_short (k : Kind) {count : Nat} {buffer : Array Datum} {src after : Source}
    (h : (readDeclared tagged).run src = (.ok count, after)) (hshort : buffer.size < count) :
    fill (readInto tagged k) buffer src =
      ((.error (.arrayTooShort count buffer.size), buffer), after) := by
  simp only [readInto_eq, fill_bind, fill_reading, h, fill_get, if_pos hshort, fill_throw]

theorem fills_readInto {k : Kind} {buffer : Array Datum} {src : Source}
    (hroom : ∀ count after, (readDeclared tagged).run src = (.ok count, after) →
      count ≤ buffer.size) :
    Fills buffer ((read tagged (.seq k)).run src) (fill (readInto tagged k) buffer src) := by
  simp only [readInto_eq, read_seq, run_bind, fill_bind, fill_reading]
  cases hdeclared : ((readDeclared tagged).run src : Except WireError Nat × Source) with
  | mk out behind =>
    cases out with
    | error e => exact .failed rfl
    | ok count =>
      have hfits := hroom count behind hdeclared
      have hcount : 0 + count ≤ buffer.size := by omega
      simp only [fill_get, if_neg (Nat.not_lt.mpr hfits), fill_bind]
      obtain ⟨e, after, left, hleft, hitems, hfill⟩ |
        ⟨items, after, left, rfl, hleft, hitems, hfill⟩ :=
          fill_readFrom tagged k hcount [] behind
      · simp only [hitems, hfill]
        exact .failed hleft
      · simp only [hitems, hfill, List.reverse_nil, List.nil_append]
        rw [List.take_zero, List.nil_append, Nat.zero_add] at hleft
        exact .filled hfits hleft

/-- Items and the sequence of them are the same to write and to read. Writing items does what
writing the sequence does. Reading a sequence into a buffer is refused, and leaves the buffer alone,
if the sequence declares more items than the buffer has places; otherwise it comes to what reading
the sequence comes to. -/
theorem slices_agree (tagged : Bool) (k : Kind) :
    (∀ items, writeSlice tagged items = write tagged (.seq items)) ∧
    (∀ (buffer : Array Datum) (src : Source) (count : Nat) (declared rest : List UInt8),
      (Token.seq count).spell tagged = .ok declared → src.bytes = declared ++ rest →
      buffer.size < count → fill (readInto tagged k) buffer src =
        ((.error (.arrayTooShort count buffer.size), buffer), { src with bytes := rest })) ∧
    ∀ (buffer : Array Datum) (src : Source),
      (∀ count declared, (Token.seq count).spell tagged = .ok declared → declared <+: src.bytes →
        count ≤ buffer.size) →
      Fills buffer ((read tagged (.seq k)).run src) (fill (readInto tagged k) buffer src) := by
  refine ⟨writeSlice_eq, ?_, ?_⟩
  · intro buffer src count declared rest hdeclared hsrc hshort
    apply fill_readInto_of_short k _ hshort
    apply (spells_readDeclared _ _ _).mpr
    exact ⟨declared, hdeclared, by rw [← hsrc]⟩
  · intro buffer src hroom
    apply fills_readInto
    intro count after hrun
    obtain ⟨declared, hdeclared, hsrc⟩ := (spells_readDeclared _ _ _).mp hrun
    rw [hsrc] at hroom
    exact hroom count declared hdeclared (List.prefix_append _ _)

def word (n : BitVec 16) : Datum := .scalar (.unsigned .w16) n

/-- The words 7 and 9, in data without tags, and a byte behind them. -/
def twoWords : Source := { bytes := [2, 0, 7, 0, 9, 0, 5] }

/-- The two words do not go into a buffer of one place; they go into one of three places, where the
last keeps what it held. -/
theorem slices_agree_words :
    fill (readInto false (.scalar (.unsigned .w16))) #[.unit] twoWords =
      ((.error (.arrayTooShort 2 1), #[.unit]), { bytes := [7, 0, 9, 0, 5] }) ∧
    fill (readInto false (.scalar (.unsigned .w16))) #[.absent, .absent, .unit] twoWords =
      ((.ok 2, #[word 7, word 9, .unit]), { bytes := [5] }) := by
  obtain ⟨_, hshort, hfills⟩ := slices_agree false (.scalar (.unsigned .w16))
  constructor
  · exact hshort #[.unit] twoWords 2 [2, 0] [7, 0, 9, 0, 5] rfl rfl (by decide)
  · have hroom : ∀ count declared, (Token.seq count).spell false = .ok declared →
        declared <+: twoWords.bytes → count ≤ 3 := by
      intro count declared hdeclared hfront
      obtain ⟨rest, hrest⟩ := hfront
      have hrun : (readDeclared false).run twoWords = (.ok count, { bytes := rest }) :=
        (spells_readDeclared _ _ _).mpr ⟨declared, hdeclared, by rw [hrest]; rfl⟩
      have hcount : (.ok 2 : Except WireError Nat) = .ok count := congrArg Prod.fst hrun
      injection hcount with hcount
      omega
    have hread : ((read false (.seq (.scalar (.unsigned .w16)))).run twoWords :
        Except WireError Datum × Source) = (.ok (.seq [word 7, word 9]), { bytes := [5] }) := rfl
    have h := hfills #[.absent, .absent, .unit] twoWords hroom
    rw [hread] at h
    generalize fill _ _ twoWords = result at h ⊢
    cases h with
    | @filled _ _ left hfits hleft =>
      have hbuffer : left = #[word 7, word 9, .unit] := Array.toList_inj.mp hleft
      rw [hbuffer]
      rfl

end BoundedMerge.Wire
