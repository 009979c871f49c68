import BoundedMerge.LittleEndian.Lemmas
import BoundedMerge.Proofs.Layout.Lawful
import BoundedMerge.Proofs.Text.Utf8
import BoundedMerge.Proofs.Wire.Spelling

/-!
What a read accepts. A read gives a value exactly if the bytes begin with the one spelling of that
value, and it leaves what stands behind the spelling. Every part of the reader is of this form, so
it neither takes two spellings for one value nor stops anywhere but at the end of a value.
-/

namespace BoundedMerge

namespace Wire

/-- The work gives exactly the values that are spelled at the front of the bytes, and uses up
their spelling. -/
def Spells {α : Type} (work : ReadM α) (spelling : α → List UInt8 → Prop) : Prop :=
  ∀ src a after, work.run src = (.ok a, after) ↔
    ∃ data, spelling a data ∧ src = { after with bytes := data ++ after.bytes }

variable {α β : Type}

theorem Spells.congr {work : ReadM α} {spelling spelling' : α → List UInt8 → Prop}
    (h : Spells work spelling) (hiff : ∀ a data, spelling a data ↔ spelling' a data) :
    Spells work spelling' := by
  intro src a after
  simp only [h src a after, hiff]

theorem spells_pure (a : α) : Spells (pure a) fun b data => b = a ∧ data = [] := by
  intro src b after
  change (Except.ok a, src) = (Except.ok b, after) ↔ _
  constructor
  · intro h
    cases h
    exact ⟨[], ⟨rfl, rfl⟩, rfl⟩
  · rintro ⟨data, ⟨rfl, rfl⟩, rfl⟩
    rfl

theorem spells_throw (e : WireError) : Spells (throw e : ReadM α) fun _ _ => False := by
  intro src b after
  change (Except.error e, src) = (Except.ok b, after) ↔ _
  constructor
  · intro h
    cases h
  · rintro ⟨_, h, _⟩
    exact h.elim

theorem Spells.bind {work : ReadM α} {next : α → ReadM β} {spelling : α → List UInt8 → Prop}
    {spelling' : α → β → List UInt8 → Prop} (h : Spells work spelling)
    (hnext : ∀ a head, spelling a head → Spells (next a) (spelling' a)) :
    Spells (work >>= next) fun b data =>
      ∃ a head tail, spelling a head ∧ spelling' a b tail ∧ data = head ++ tail := by
  intro src b after
  rw [run_bind]
  constructor
  · intro hrun
    cases hwork : (work.run src : Except WireError α × Source) with
    | mk out between =>
      rw [hwork] at hrun
      cases out with
      | error e => cases hrun
      | ok a =>
        obtain ⟨head, hhead, rfl⟩ := (h _ _ _).mp hwork
        obtain ⟨tail, htail, rfl⟩ := (hnext a head hhead _ _ _).mp hrun
        exact ⟨head ++ tail, ⟨a, head, tail, hhead, htail, rfl⟩, by rw [List.append_assoc]⟩
  · rintro ⟨_, ⟨a, head, tail, hhead, htail, rfl⟩, rfl⟩
    have hwork := (h { after with bytes := head ++ tail ++ after.bytes } a
      { after with bytes := tail ++ after.bytes }).mpr
      ⟨head, hhead, by rw [List.append_assoc]⟩
    rw [hwork]
    exact (hnext a head hhead _ b after).mpr ⟨tail, htail, rfl⟩

/-- What a read is turned into afterwards is spelled as the read is. -/
theorem Spells.map {work : ReadM α} {spelling : α → List UInt8 → Prop} (h : Spells work spelling)
    (f : α → β) : Spells (do return f (← work)) fun b data => ∃ a, b = f a ∧ spelling a data := by
  refine (h.bind fun a _ _ => spells_pure (f a)).congr fun b data => ?_
  constructor
  · rintro ⟨a, head, tail, hhead, ⟨rfl, rfl⟩, rfl⟩
    exact ⟨a, rfl, by rwa [List.append_nil]⟩
  · rintro ⟨a, rfl, ha⟩
    exact ⟨a, data, [], ha, ⟨rfl, rfl⟩, (List.append_nil data).symm⟩

theorem Spells.ite {c : Prop} [Decidable c] {work work' : ReadM α}
    {spelling spelling' : α → List UInt8 → Prop} (h : c → Spells work spelling)
    (h' : ¬ c → Spells work' spelling') :
    Spells (if c then work else work') fun a data =>
      (c ∧ spelling a data) ∨ (¬ c ∧ spelling' a data) := by
  split
  · next hc => exact (h hc).congr fun a data => by simp [hc]
  · next hc => exact (h' hc).congr fun a data => by simp [hc]

/-- Work that goes on unless something is wrong. -/
theorem Spells.unless {c : Prop} [Decidable c] {work : ReadM α}
    {spelling : α → List UInt8 → Prop} (e : WireError) (h : Spells work spelling) :
    Spells (do
      if c then throw e
      work) fun a data => ¬ c ∧ spelling a data := by
  by_cases hc : c
  · simp only [hc, if_true, not_true, false_and]
    exact spells_throw e
  · simp only [hc, if_false, not_false_eq_true, true_and]
    exact h

theorem run_take (count : Nat) (bytes : List UInt8) (fault : Option String) :
    ((take count).run { bytes, fault } : Except WireError (List UInt8) × Source) =
      if (bytes.take count).length < count then
        (.error (match fault with | some message => .source message | none => .outOfBytes),
          { bytes := bytes.drop count, fault })
      else (.ok (bytes.take count), { bytes := bytes.drop count, fault }) := by
  simp only [take, List.splitAt_eq]
  change ((do
    if (bytes.take count).length < count then
      match fault with
      | some message => throw (.source message)
      | none => throw .outOfBytes
    return bytes.take count : ReadM (List UInt8)).run { bytes := bytes.drop count, fault } :
      Except WireError (List UInt8) × Source) = _
  split
  · cases fault <;> rfl
  · rfl

theorem spells_take (count : Nat) :
    Spells (take count) fun data bytes => data = bytes ∧ bytes.length = count := by
  intro src data after
  obtain ⟨bytes, fault⟩ := src
  obtain ⟨rest, fault'⟩ := after
  rw [run_take]
  constructor
  · intro h
    split at h
    · cases h
    · next hlen =>
      cases h
      have hlen : (bytes.take count).length = count := by
        rw [List.length_take] at hlen ⊢
        omega
      exact ⟨bytes.take count, ⟨rfl, hlen⟩, by rw [List.take_append_drop]⟩
  · rintro ⟨_, ⟨rfl, rfl⟩, h⟩
    cases h
    rw [List.take_left, List.drop_left, if_neg (Nat.lt_irrefl _)]

theorem spells_takeNumber (count : Nat) :
    Spells (takeNumber count) fun n data =>
      n < 256 ^ count ∧ data = LittleEndian.encode count n := by
  refine ((spells_take count).map LittleEndian.decode).congr fun n data => ?_
  constructor
  · rintro ⟨bytes, rfl, rfl, rfl⟩
    exact ⟨LittleEndian.decode_lt bytes, (LittleEndian.encode_decode bytes).symm⟩
  · rintro ⟨hn, rfl⟩
    refine ⟨_, ?_, rfl, LittleEndian.length_encode ..⟩
    rw [LittleEndian.decode_encode, Nat.mod_eq_of_lt hn]

/-- A byte that tells one of two things. -/
theorem spells_flag (fail : Nat → WireError) :
    Spells (do
      match ← takeNumber 1 with
      | 0 => return false
      | 1 => return true
      | byte => throw (fail byte)) fun b data => data = [if b then 1 else 0] := by
  have hbyte (n : Nat) : Spells (match n with
      | 0 => pure false
      | 1 => pure true
      | byte => throw (fail byte)) fun b data => n = cond b 1 0 ∧ data = [] := by
    match n with
    | 0 => exact (spells_pure false).congr fun b data => by cases b <;> simp
    | 1 => exact (spells_pure true).congr fun b data => by cases b <;> simp
    | n + 2 => exact (spells_throw _).congr fun b data => by cases b <;> simp
  refine ((spells_takeNumber 1).bind fun n _ _ => hbyte n).congr fun b data => ?_
  constructor
  · rintro ⟨_, _, _, ⟨_, rfl⟩, ⟨rfl, rfl⟩, rfl⟩
    cases b <;> rfl
  · rintro rfl
    refine ⟨cond b 1 0, _, [], ⟨?_, rfl⟩, ⟨rfl, rfl⟩, ?_⟩
    · cases b <;> decide
    · cases b <;> rfl

theorem spells_readBool : Spells readBool fun b data => (Token.bool b).payload = .ok data :=
  (spells_flag fun byte => .invalidValue (.bool byte)).congr fun b data => by
    rw [Token.payload, Except.ok.injEq, eq_comm]

theorem spells_readOptionFlag :
    Spells readOptionFlag fun b data => (Token.option b).payload = .ok data :=
  (spells_flag fun byte => .invalidValue (.optionFlag byte)).congr fun b data => by
    rw [Token.payload, Except.ok.injEq, eq_comm]

theorem spells_readScalar (s : Scalar) :
    Spells (do return s.decode (← take s.bytes)) fun v data =>
      (Token.scalar s v).payload = .ok data := by
  refine ((spells_take s.bytes).map s.decode).congr fun v data => ?_
  rw [Token.payload, Except.ok.injEq]
  constructor
  · rintro ⟨data, rfl, rfl, hlen⟩
    rw [Scalar.encode_decode data hlen.ge, List.take_of_length_le hlen.le]
  · rintro rfl
    refine ⟨_, ?_, rfl, Scalar.length_encode v⟩
    have h := Scalar.decode_append v []
    rw [List.append_nil] at h
    exact h.symm

theorem spells_readChar : Spells readChar fun c data => (Token.char c).payload = .ok data := by
  refine ((spells_takeNumber 4).bind fun code _ _ =>
    Spells.ite (fun _ => spells_pure _) fun _ => spells_throw _).congr fun c data => ?_
  rw [Token.payload, Except.ok.injEq]
  constructor
  · rintro ⟨code, head, tail, ⟨_, rfl⟩, ⟨hvalid, rfl, rfl⟩ | ⟨_, h⟩, rfl⟩
    · have hcode : (Char.ofNat code).toNat = code := by
        rw [Char.ofNat, dif_pos hvalid]
        rfl
      rw [hcode, List.append_nil]
    · exact h.elim
  · rintro rfl
    refine ⟨c.toNat, _, [], ⟨?_, rfl⟩, .inl ⟨c.valid, (Char.ofNat_toNat c).symm, rfl⟩, ?_⟩
    · exact c.val.toNat_lt
    · rw [List.append_nil]

theorem spells_readCounted :
    Spells readCounted fun data bytes => (Token.bytes data).payload = .ok bytes := by
  refine ((spells_takeNumber 2).bind fun count _ _ => spells_take count).congr fun data bytes => ?_
  constructor
  · rintro ⟨_, _, _, ⟨hcount, rfl⟩, ⟨rfl, rfl⟩, rfl⟩
    exact Token.counted_eq_ok_iff.mpr ⟨Nat.le_of_lt_succ hcount, rfl⟩
  · intro h
    obtain ⟨hcount, rfl⟩ := Token.counted_eq_ok_iff.mp h
    exact ⟨_, _, _, ⟨Nat.lt_succ_of_le hcount, rfl⟩, ⟨rfl, rfl⟩, rfl⟩

theorem spells_readText : Spells readText fun s bytes => (Token.text s).payload = .ok bytes := by
  have hread : Spells readText fun s bytes => ∃ data head tail,
      (Token.bytes data).payload = .ok head ∧ (Utf8.encode s = data ∧ tail = []) ∧
        bytes = head ++ tail := by
    unfold readText
    refine spells_readCounted.bind fun data _ _ => ?_
    cases h : Utf8.decode data with
    | ok t =>
      refine (spells_pure t).congr fun s bytes => ?_
      rw [← Utf8.decode_eq_ok_iff, h]
      simp [eq_comm]
    | error e =>
      refine (spells_throw _).congr fun s bytes => ?_
      rw [← Utf8.decode_eq_ok_iff, h]
      simp
  refine hread.congr fun s bytes => ?_
  constructor
  · rintro ⟨_, _, _, h, ⟨rfl, rfl⟩, rfl⟩
    rw [List.append_nil]
    exact h
  · intro h
    exact ⟨_, bytes, [], h, ⟨rfl, rfl⟩, (List.append_nil bytes).symm⟩

theorem spells_readCount {tok : Nat → Token} (htok : ∀ n, (tok n).payload = Token.counted n []) :
    Spells readCount fun n bytes => (tok n).payload = .ok bytes := by
  refine (spells_takeNumber 2).congr fun n bytes => ?_
  rw [htok, Token.counted_eq_ok_iff, List.append_nil]
  constructor
  · intro ⟨hn, hbytes⟩
    exact ⟨Nat.le_of_lt_succ hn, hbytes⟩
  · intro ⟨hn, hbytes⟩
    exact ⟨Nat.lt_succ_of_le hn, hbytes⟩

variable {tagged : Bool}

theorem spells_expect (tag : Token.Tag) :
    Spells (expect tagged tag) fun _ data => data = Token.tagBytes tagged tag := by
  cases tagged with
  | false => exact (spells_pure ()).congr fun _ _ => by simp [Token.tagBytes]
  | true =>
    refine ((spells_takeNumber 1).bind fun found _ _ =>
      Spells.ite (fun _ => spells_throw _) fun _ => spells_pure _).congr fun _ data => ?_
    constructor
    · rintro ⟨found, head, tail, ⟨_, rfl⟩, ⟨_, h⟩ | ⟨hfound, _, rfl⟩, rfl⟩
      · exact h.elim
      · rw [not_not.mp hfound]
        rfl
    · rintro rfl
      exact ⟨tag.number, _, [], ⟨tag.number_lt, rfl⟩, .inr ⟨fun h => h rfl, rfl, rfl⟩, rfl⟩

def Spelled (tagged : Bool) (k : Kind) (d : Datum) (data : List UInt8) : Prop :=
  k.Holds d ∧ Token.spellAll tagged d.tokens = .ok data

/-- A token and what is read behind it. What is read there may depend on the token, and the token
may be one of a few that fit. -/
theorem spells_fitting {payload : ReadM α} {next : α → ReadM Datum} {k : Kind} (tok : α → Token)
    (fits : α → Prop) {tag : Token.Tag}
    (hpayload : Spells payload fun a data => fits a ∧ (tok a).payload = .ok data)
    (htag : ∀ a, (tok a).tag = tag)
    (hhead : ∀ d, k.Holds d → ∃ a ts, fits a ∧ d.tokens = tok a :: ts)
    (hnext : ∀ a, fits a → Spells (next a) fun d data =>
      ∃ ts, d.tokens = tok a :: ts ∧ Token.spellAll tagged ts = .ok data ∧ k.Holds d) :
    Spells (do
      expect tagged tag
      let a ← payload
      next a) (Spelled tagged k) := by
  refine ((spells_expect tag).bind fun _ _ _ => hpayload.bind fun a _ h =>
    hnext a h.1).congr fun d data => ?_
  simp only [Spelled]
  constructor
  · rintro ⟨_, _, _, rfl, ⟨a, head, tail, ⟨_, hhead⟩, ⟨ts, hd, htail, hk⟩, rfl⟩, rfl⟩
    refine ⟨hk, ?_⟩
    rw [hd, Token.spellAll_cons_eq_ok_iff]
    exact ⟨_, tail, Token.spell_eq_ok_iff.mpr ⟨head, hhead, rfl⟩, htail, by
      rw [htag, List.append_assoc]⟩
  · rintro ⟨hk, hd⟩
    obtain ⟨a, ts, hfits, htokens⟩ := hhead d hk
    rw [htokens, Token.spellAll_cons_eq_ok_iff] at hd
    obtain ⟨_, tail, hspell, htail, rfl⟩ := hd
    obtain ⟨head, hhead, rfl⟩ := Token.spell_eq_ok_iff.mp hspell
    refine ⟨(), _, _, rfl, ⟨a, head, tail, ⟨hfits, hhead⟩, ⟨ts, htokens, htail, hk⟩, rfl⟩, ?_⟩
    rw [htag, List.append_assoc]

theorem spells_node {payload : ReadM α} {next : α → ReadM Datum} {k : Kind} (tok : α → Token)
    {tag : Token.Tag} (hpayload : Spells payload fun a data => (tok a).payload = .ok data)
    (htag : ∀ a, (tok a).tag = tag)
    (hhead : ∀ d, k.Holds d → ∃ a ts, d.tokens = tok a :: ts)
    (hnext : ∀ a, Spells (next a) fun d data =>
      ∃ ts, d.tokens = tok a :: ts ∧ Token.spellAll tagged ts = .ok data ∧ k.Holds d) :
    Spells (do
      expect tagged tag
      let a ← payload
      next a) (Spelled tagged k) := by
  refine spells_fitting tok (fun _ => True) (hpayload.congr fun a data => (true_and _).symm.to_iff)
    htag (fun d hd => ?_) fun a _ => hnext a
  obtain ⟨a, ts, h⟩ := hhead d hd
  exact ⟨a, ts, trivial, h⟩

/-- A datum of a single token. -/
theorem spells_leaf {payload : ReadM α} {k : Kind} (tok : α → Token)
    (wrap : α → Datum) {tag : Token.Tag}
    (hpayload : Spells payload fun a data => (tok a).payload = .ok data)
    (htag : ∀ a, (tok a).tag = tag) (htokens : ∀ a, (wrap a).tokens = [tok a])
    (hinj : ∀ a b, tok a = tok b → a = b) (hholds : ∀ a, k.Holds (wrap a))
    (hwrap : ∀ d, k.Holds d → ∃ a, d = wrap a) :
    Spells (do
      expect tagged tag
      return wrap (← payload)) (Spelled tagged k) := by
  refine spells_node tok hpayload htag ?_ fun a => (spells_pure (wrap a)).congr fun d data => ?_
  · intro d hd
    obtain ⟨a, rfl⟩ := hwrap d hd
    exact ⟨a, [], htokens a⟩
  · constructor
    · rintro ⟨rfl, rfl⟩
      exact ⟨[], htokens a, rfl, hholds a⟩
    · rintro ⟨ts, hd, hdata, hk⟩
      obtain ⟨b, rfl⟩ := hwrap d hk
      rw [htokens] at hd
      obtain ⟨htok, rfl⟩ := List.cons.inj hd
      rw [hinj b a htok]
      exact ⟨rfl, (Except.ok.inj hdata).symm⟩

/-- A token without payload and what is read behind it. -/
theorem spells_mark {next : ReadM Datum} {k : Kind} (t : Token) (hpayload : t.payload = .ok [])
    (hhead : ∀ d, k.Holds d → ∃ ts, d.tokens = t :: ts)
    (hnext : Spells next fun d data =>
      ∃ ts, d.tokens = t :: ts ∧ Token.spellAll tagged ts = .ok data ∧ k.Holds d) :
    Spells (do
      expect tagged t.tag
      next) (Spelled tagged k) := by
  have hnone : Spells (pure ()) fun (_ : Unit) data => t.payload = .ok data :=
    (spells_pure ()).congr fun _ data => by simp [hpayload, eq_comm]
  have h : Spells (do expect tagged t.tag; let _ ← pure (); next) (Spelled tagged k) :=
    spells_node (fun _ => t) hnone (fun _ => rfl) (fun d hd => ⟨(), hhead d hd⟩) fun _ => hnext
  simpa only [pure_bind] using h

inductive Each {α : Type} (spelling : α → List UInt8 → Prop) : List α → List UInt8 → Prop
  | nil : Each spelling [] []
  | cons {x : α} {xs : List α} {head tail : List UInt8} (h : spelling x head)
    (hs : Each spelling xs tail) : Each spelling (x :: xs) (head ++ tail)

theorem spells_readItems {item : ReadM α} {spelling : α → List UInt8 → Prop}
    (h : Spells item spelling) (count : Nat) (before : List α) :
    Spells (readItems item count before) fun xs data =>
      ∃ items, xs = before.reverse ++ items ∧ items.length = count ∧ Each spelling items data := by
  induction count generalizing before with
  | zero =>
    refine (spells_pure before.reverse).congr fun xs data => ?_
    constructor
    · rintro ⟨rfl, rfl⟩
      exact ⟨[], (List.append_nil _).symm, rfl, .nil⟩
    · rintro ⟨items, rfl, hlen, heach⟩
      obtain rfl := List.length_eq_zero_iff.mp hlen
      cases heach
      exact ⟨List.append_nil _, rfl⟩
  | succ count ih =>
    refine (h.bind fun x _ _ => ih (x :: before)).congr fun xs data => ?_
    constructor
    · rintro ⟨x, head, tail, hx, ⟨items, rfl, rfl, heach⟩, rfl⟩
      exact ⟨x :: items, by rw [List.reverse_cons, List.append_assoc, List.singleton_append], rfl,
        .cons hx heach⟩
    · rintro ⟨items, rfl, hlen, heach⟩
      cases heach with
      | nil => cases hlen
      | @cons x items head tail hx heach =>
        refine ⟨x, head, tail, hx, ⟨items, ?_, Nat.succ.inj hlen, heach⟩, rfl⟩
        rw [List.reverse_cons, List.append_assoc, List.singleton_append]

theorem each_spelled_iff {k : Kind} {items : List Datum} {data : List UInt8} :
    Each (Spelled tagged k) items data ↔
      (∀ d ∈ items, k.Holds d) ∧ Token.spellAll tagged (Datum.tokensAll items) = .ok data := by
  induction items generalizing data with
  | nil =>
    constructor
    · intro h
      cases h
      exact ⟨List.forall_mem_nil _, rfl⟩
    · rintro ⟨_, h⟩
      cases h
      exact .nil
  | cons d items ih =>
    rw [List.forall_mem_cons, Datum.tokensAll, Token.spellAll_append_eq_ok_iff]
    constructor
    · intro h
      cases h with
      | cons hd hs =>
        obtain ⟨hk, hhead⟩ := hd
        obtain ⟨hall, htail⟩ := ih.mp hs
        exact ⟨⟨hk, hall⟩, _, _, hhead, htail, rfl⟩
    · rintro ⟨⟨hk, hall⟩, head, tail, hhead, htail, rfl⟩
      exact .cons ⟨hk, hhead⟩ (ih.mpr ⟨hall, htail⟩)

def SpelledEntry (tagged : Bool) (key value : Kind) (e : Datum × Datum) (data : List UInt8) :
    Prop :=
  ∃ head tail, Spelled tagged key e.1 head ∧ Spelled tagged value e.2 tail ∧ data = head ++ tail

theorem each_spelledEntry_iff {key value : Kind} {entries : List (Datum × Datum)}
    {data : List UInt8} : Each (SpelledEntry tagged key value) entries data ↔
      (∀ e ∈ entries, key.Holds e.1) ∧ (∀ e ∈ entries, value.Holds e.2) ∧
        Token.spellAll tagged (Datum.tokensEntries entries) = .ok data := by
  induction entries generalizing data with
  | nil =>
    constructor
    · intro h
      cases h
      exact ⟨List.forall_mem_nil _, List.forall_mem_nil _, rfl⟩
    · rintro ⟨_, _, h⟩
      cases h
      exact .nil
  | cons e entries ih =>
    rw [List.forall_mem_cons, List.forall_mem_cons, Datum.tokensEntries,
      Token.spellAll_append_eq_ok_iff]
    constructor
    · intro h
      cases h with
      | cons he hs =>
        obtain ⟨_, _, ⟨hkey, hhead⟩, ⟨hvalue, hmiddle⟩, rfl⟩ := he
        obtain ⟨hkeys, hvalues, htail⟩ := ih.mp hs
        exact ⟨⟨hkey, hkeys⟩, ⟨hvalue, hvalues⟩, _, _,
          Token.spellAll_append_eq_ok_iff.mpr ⟨_, _, hhead, hmiddle, rfl⟩, htail, rfl⟩
    · rintro ⟨⟨hkey, hkeys⟩, ⟨hvalue, hvalues⟩, _, tail, hfront, htail, rfl⟩
      obtain ⟨head, middle, hhead, hmiddle, rfl⟩ := Token.spellAll_append_eq_ok_iff.mp hfront
      exact .cons ⟨head, middle, ⟨hkey, hhead⟩, ⟨hvalue, hmiddle⟩, rfl⟩
        (ih.mpr ⟨hkeys, hvalues, htail⟩)

/-- Data of one kind each are spelled one behind the other. -/
theorem spells_readAll {kinds : List Kind}
    (h : ∀ k ∈ kinds, Spells (read tagged k) (Spelled tagged k)) :
    Spells (readAll tagged kinds) fun data bytes =>
      List.Forall₂ Kind.Holds kinds data ∧
        Token.spellAll tagged (Datum.tokensAll data) = .ok bytes := by
  induction kinds with
  | nil =>
    refine (spells_pure []).congr fun data bytes => ?_
    rw [List.forall₂_nil_left_iff]
    constructor
    · rintro ⟨rfl, rfl⟩
      exact ⟨rfl, rfl⟩
    · rintro ⟨rfl, h⟩
      exact ⟨rfl, (Except.ok.inj h).symm⟩
  | cons k kinds ih =>
    obtain ⟨hhead, htail⟩ := List.forall_mem_cons.mp h
    refine (hhead.bind fun d _ _ => (ih htail).map (d :: ·)).congr fun data bytes => ?_
    rw [List.forall₂_cons_left_iff]
    constructor
    · rintro ⟨d, _, _, ⟨hd, hbytes⟩, ⟨data, rfl, hdata, hrest⟩, rfl⟩
      exact ⟨⟨d, data, hd, hdata, rfl⟩,
        Token.spellAll_append_eq_ok_iff.mpr ⟨_, _, hbytes, hrest, rfl⟩⟩
    · rintro ⟨⟨d, data, hd, hdata, rfl⟩, h⟩
      obtain ⟨_, _, hbytes, hrest, rfl⟩ := Token.spellAll_append_eq_ok_iff.mp h
      exact ⟨d, _, _, ⟨hd, hbytes⟩, ⟨data, rfl, hdata, hrest⟩, rfl⟩

/-- The fields of a variant are read as they are, whatever its form. -/
theorem readVariant_eq {variants : List Variant} {index : Nat} {v : Variant}
    (h : variants[index]? = some v) :
    readVariant tagged variants index = readAll tagged v.fields := by
  induction variants generalizing index with
  | nil => cases h
  | cons w variants ih =>
    cases index with
    | zero =>
      obtain rfl := Option.some.inj h
      cases w with
      | wrapper k => rfl
      | _ => rfl
    | succ index =>
      cases w with
      | _ => exact ih h

/-- Fields that are read behind a token without payload. -/
theorem spells_fields {kinds : List Kind} {k : Kind} (t : Token) (hpayload : t.payload = .ok [])
    (wrap : List Datum → Datum) (htokens : ∀ data, (wrap data).tokens = t :: Datum.tokensAll data)
    (hholds : ∀ data, List.Forall₂ Kind.Holds kinds data → k.Holds (wrap data))
    (hwrap : ∀ d, k.Holds d → ∃ data, d = wrap data ∧ List.Forall₂ Kind.Holds kinds data)
    (h : ∀ k ∈ kinds, Spells (read tagged k) (Spelled tagged k)) :
    Spells (do
      expect tagged t.tag
      return wrap (← readAll tagged kinds)) (Spelled tagged k) := by
  refine spells_mark t hpayload ?_ (((spells_readAll h).map wrap).congr fun d bytes => ?_)
  · intro d hd
    obtain ⟨data, rfl, _⟩ := hwrap d hd
    exact ⟨_, htokens data⟩
  · constructor
    · rintro ⟨data, rfl, hdata, hbytes⟩
      exact ⟨_, htokens data, hbytes, hholds data hdata⟩
    · rintro ⟨ts, hd, hbytes, hk⟩
      obtain ⟨data, rfl, hdata⟩ := hwrap d hk
      rw [htokens] at hd
      obtain ⟨_, rfl⟩ := List.cons.inj hd
      exact ⟨data, rfl, hdata, hbytes⟩

theorem spells_option {k : Kind} (ih : Spells (read tagged k) (Spelled tagged k)) :
    Spells (read tagged (.option k)) (Spelled tagged (.option k)) := by
  refine spells_node .option spells_readOptionFlag (fun _ => rfl) ?_ fun present => ?_
  · intro d hd
    cases hd with
    | absent => exact ⟨false, [], rfl⟩
    | present h => exact ⟨true, _, rfl⟩
  · cases present with
    | false =>
      refine (spells_pure Datum.absent).congr fun d data => ?_
      constructor
      · rintro ⟨rfl, rfl⟩
        exact ⟨[], rfl, rfl, .absent⟩
      · rintro ⟨ts, hd, hdata, hk⟩
        cases hk with
        | absent =>
          cases hd
          exact ⟨rfl, (Except.ok.inj hdata).symm⟩
        | present h => cases hd
    | true =>
      refine (ih.map Datum.present).congr fun d data => ?_
      constructor
      · rintro ⟨d, rfl, hk, hdata⟩
        exact ⟨_, rfl, hdata, .present hk⟩
      · rintro ⟨ts, hd, hdata, hk⟩
        cases hk with
        | absent => cases hd
        | present h =>
          cases hd
          exact ⟨_, rfl, h, hdata⟩

theorem spells_seq {item : Kind} (ih : Spells (read tagged item) (Spelled tagged item)) :
    Spells (read tagged (.seq item)) (Spelled tagged (.seq item)) := by
  refine spells_node .seq (spells_readCount fun _ => rfl) (fun _ => rfl) ?_ fun count =>
    ((spells_readItems ih count []).map Datum.seq).congr fun d data => ?_
  · intro d hd
    cases hd with
    | seq h => exact ⟨_, _, rfl⟩
  · constructor
    · rintro ⟨_, rfl, items, rfl, rfl, heach⟩
      obtain ⟨hitems, hdata⟩ := each_spelled_iff.mp heach
      exact ⟨_, rfl, hdata, .seq hitems⟩
    · rintro ⟨ts, hd, hdata, hk⟩
      cases hk with
      | @seq _ items hitems =>
        cases hd
        exact ⟨items, rfl, items, rfl, rfl, each_spelled_iff.mpr ⟨hitems, hdata⟩⟩

theorem spells_map {key value : Kind} (ihKey : Spells (read tagged key) (Spelled tagged key))
    (ihValue : Spells (read tagged value) (Spelled tagged value)) :
    Spells (read tagged (.map key value)) (Spelled tagged (.map key value)) := by
  have hentry : Spells (do
      let k ← read tagged key
      let v ← read tagged value
      return (k, v)) (SpelledEntry tagged key value) := by
    refine (ihKey.bind fun k _ _ => ihValue.map (k, ·)).congr fun e data => ?_
    constructor
    · rintro ⟨k, head, tail, hk, ⟨v, rfl, hv⟩, rfl⟩
      exact ⟨head, tail, hk, hv, rfl⟩
    · rintro ⟨head, tail, hk, hv, rfl⟩
      exact ⟨e.1, head, tail, hk, ⟨e.2, rfl, hv⟩, rfl⟩
  refine spells_node .map (spells_readCount fun _ => rfl) (fun _ => rfl) ?_ fun count =>
    ((spells_readItems hentry count []).map Datum.map).congr fun d data => ?_
  · intro d hd
    cases hd with
    | map hkeys hvalues => exact ⟨_, _, rfl⟩
  · constructor
    · rintro ⟨_, rfl, entries, rfl, rfl, heach⟩
      obtain ⟨hkeys, hvalues, hdata⟩ := each_spelledEntry_iff.mp heach
      exact ⟨_, rfl, hdata, .map hkeys hvalues⟩
    · rintro ⟨ts, hd, hdata, hk⟩
      cases hk with
      | @map _ _ entries hkeys hvalues =>
        cases hd
        exact ⟨entries, rfl, entries, rfl, rfl,
          each_spelledEntry_iff.mpr ⟨hkeys, hvalues, hdata⟩⟩

theorem spells_enum {variants : List Variant}
    (ih : ∀ v ∈ variants, ∀ k ∈ v.fields, Spells (read tagged k) (Spelled tagged k)) :
    Spells (read tagged (.enum variants)) (Spelled tagged (.enum variants)) := by
  refine spells_fitting .variant (· < 2 ^ 32) ((spells_takeNumber 4).congr fun index data => ?_)
    (fun _ => rfl) ?_ fun index hindex => ?_
  · rw [Token.payload, Except.ok.injEq, eq_comm (a := data)]
    rfl
  · intro d hd
    cases hd with
    | variant _ hindex _ => exact ⟨_, _, hindex, rfl⟩
  · split
    · next hlt =>
      have hget : variants[index]? = some variants[index] := List.getElem?_eq_getElem hlt
      rw [readVariant_eq hget]
      refine ((spells_readAll (ih _ (List.getElem_mem hlt))).map (Datum.variant index)).congr
        fun d bytes => ?_
      constructor
      · rintro ⟨data, rfl, hdata, hbytes⟩
        exact ⟨_, rfl, hbytes, .variant hget hindex hdata⟩
      · rintro ⟨ts, hd, hbytes, hk⟩
        cases hk with
        | variant hget' _ hdata =>
          cases hd
          obtain rfl := Option.some.inj (hget.symm.trans hget')
          exact ⟨_, rfl, hdata, hbytes⟩
    · next hge =>
      refine (spells_throw _).congr fun d data => ⟨False.elim, ?_⟩
      rintro ⟨ts, hd, _, hk⟩
      cases hk with
      | variant hget _ _ =>
        cases hd
        exact hge (List.getElem?_eq_some_iff.mp hget).1

/-- A kind is read exactly from the spelling of its data. -/
theorem spells_read (k : Kind) : Spells (read tagged k) (Spelled tagged k) := by
  induction k using Kind.inductParts with
  | bool =>
    exact spells_leaf .bool .bool spells_readBool (fun _ => rfl) (fun _ => rfl)
      (fun _ _ => Token.bool.inj) .bool fun | _, .bool b => ⟨b, rfl⟩
  | scalar s =>
    have hrun : read tagged (.scalar s) = (do
        expect tagged (.scalar s)
        return .scalar s (← (do return s.decode (← take s.bytes) : ReadM s.Bits))) := by
      simp only [read, bind_assoc, pure_bind]
    rw [hrun]
    exact spells_leaf (.scalar s) (.scalar s) (spells_readScalar s) (fun _ => rfl) (fun _ => rfl)
      (fun _ _ h => eq_of_heq (Token.scalar.inj h).2) .scalar fun | _, .scalar v => ⟨v, rfl⟩
  | char =>
    exact spells_leaf .char .char spells_readChar (fun _ => rfl) (fun _ => rfl)
      (fun _ _ => Token.char.inj) .char fun | _, .char c => ⟨c, rfl⟩
  | text =>
    exact spells_leaf .text .text spells_readText (fun _ => rfl) (fun _ => rfl)
      (fun _ _ => Token.text.inj) .text fun | _, .text s => ⟨s, rfl⟩
  | bytes =>
    exact spells_leaf .bytes .bytes spells_readCounted (fun _ => rfl) (fun _ => rfl)
      (fun _ _ => Token.bytes.inj) .bytes fun | _, .bytes data => ⟨data, rfl⟩
  | unit =>
    refine spells_mark .unit rfl (fun | _, .unit => ⟨[], rfl⟩)
      ((spells_pure Datum.unit).congr fun d data => ?_)
    constructor
    · rintro ⟨rfl, rfl⟩
      exact ⟨[], rfl, rfl, .unit⟩
    · rintro ⟨ts, hd, hdata, hk⟩
      cases hk
      cases hd
      exact ⟨rfl, (Except.ok.inj hdata).symm⟩
  | option k ih => exact spells_option ih
  | wrapper k ih =>
    refine ih.congr fun d data => and_congr_left fun _ => ?_
    constructor
    · exact .wrapper
    · intro h
      cases h with
      | wrapper h => exact h
  | seq item ih => exact spells_seq ih
  | tuple fields ih =>
    exact spells_fields .tuple rfl .tuple (fun _ => rfl) (fun _ => .tuple)
      (fun | _, .tuple h => ⟨_, rfl, h⟩) ih
  | map key value ihKey ihValue => exact spells_map ihKey ihValue
  | struct fields ih =>
    exact spells_fields .struct rfl .struct (fun _ => rfl) (fun _ => .struct)
      (fun | _, .struct h => ⟨_, rfl, h⟩) ih
  | enum variants ih => exact spells_enum ih
  | any =>
    refine (spells_throw _).congr fun d data => ⟨False.elim, ?_⟩
    rintro ⟨h, _⟩
    cases h
  | refusing message =>
    refine (spells_throw _).congr fun d data => ⟨False.elim, ?_⟩
    rintro ⟨h, _⟩
    cases h

end Wire
end BoundedMerge
