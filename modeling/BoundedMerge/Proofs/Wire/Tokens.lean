import BoundedMerge.Proofs.Wire.RoundTrip

/-!
Tagged bytes as tokens. A tag tells how long the payload behind it is, so the bytes of tagged
tokens can be cut into tokens in one way only, whatever kind they are read as. A datum that is read
from tagged bytes has the first of the tokens that were written, however the two kinds nest them.
-/

namespace BoundedMerge

namespace Token

def Tag.all : List Tag :=
  [.bool, .scalar (.signed .w8), .scalar (.signed .w16), .scalar (.signed .w32),
    .scalar (.signed .w64), .scalar (.signed .w128), .scalar (.unsigned .w8),
    .scalar (.unsigned .w16), .scalar (.unsigned .w32), .scalar (.unsigned .w64),
    .scalar (.unsigned .w128), .scalar .float32, .scalar .float64, .char, .text, .bytes, .option,
    .unit, .seq, .tuple, .map, .struct, .variant]

theorem Tag.mem_all (tag : Tag) : tag ∈ Tag.all := by
  cases tag with
  | scalar s =>
    cases s with
    | unsigned w => cases w <;> decide
    | signed w => cases w <;> decide
    | _ => decide
  | _ => decide

theorem Tag.number_injective {tag tag' : Tag} (h : tag.number = tag'.number) : tag = tag' := by
  have hall : ∀ tag ∈ Tag.all, ∀ tag' ∈ Tag.all, tag.number = tag'.number → tag = tag' := by
    decide
  exact hall tag tag.mem_all tag' tag'.mem_all h

/-- Two tags are written as the same byte only if they are the same. -/
theorem Tag.byte_injective {tag tag' : Tag} (h : tag.number.toUInt8 = tag'.number.toUInt8) :
    tag = tag' := by
  apply Tag.number_injective
  have hmod : (UInt8.ofNat tag.number).toNat = (UInt8.ofNat tag'.number).toNat :=
    congrArg UInt8.toNat h
  rwa [UInt8.toNat_ofNat', UInt8.toNat_ofNat', Nat.mod_eq_of_lt tag.number_lt,
    Nat.mod_eq_of_lt tag'.number_lt] at hmod

/-- The payload has room for the token: an index takes four bytes. -/
def Fits : Token → Prop
  | variant index => index < 2 ^ 32
  | _ => True

/-- The token is a value and not only a part of the structure around one. -/
def isContent : Token → Bool
  | bool _ | scalar _ _ | char _ | text _ | bytes _ => true
  | _ => false

end Token

namespace Wire

def readPayload : Token.Tag → ReadM Token
  | .bool => return .bool (← readBool)
  | .scalar s => return .scalar s (← (do return s.decode (← take s.bytes)))
  | .char => return .char (← readChar)
  | .text => return .text (← readText)
  | .bytes => return .bytes (← readCounted)
  | .option => return .option (← readOptionFlag)
  | .unit => return .unit
  | .seq => return .seq (← readCount)
  | .tuple => return .tuple
  | .map => return .map (← readCount)
  | .struct => return .struct
  | .variant => return .variant (← takeNumber 4)

/-- A payload that carries something: the tokens of the tag are those that carry one thing each. -/
theorem spells_carried {α : Type} {work : ReadM α} (tok : α → Token) {tag : Token.Tag}
    (hwork : Spells work fun a data => (tok a).Fits ∧ (tok a).payload = .ok data)
    (htag : ∀ t : Token, t.tag = tag ↔ ∃ a, t = tok a := by intro t; cases t <;> simp [Token.tag]) :
    Spells (do return tok (← work)) fun t data =>
      t.tag = tag ∧ t.Fits ∧ t.payload = .ok data := by
  apply (hwork.map tok).congr
  intro t data
  rw [htag]
  constructor
  · intro h
    obtain ⟨a, rfl, hfits, hpayload⟩ := h
    exact ⟨⟨a, rfl⟩, hfits, hpayload⟩
  · intro h
    obtain ⟨⟨a, rfl⟩, hfits, hpayload⟩ := h
    exact ⟨a, rfl, hfits, hpayload⟩

/-- A payload without bytes: the tag has one token only. -/
theorem spells_empty (tok : Token) {tag : Token.Tag} (hpayload : tok.payload = .ok [])
    (hfits : tok.Fits)
    (htag : ∀ t : Token, t.tag = tag ↔ t = tok := by intro t; cases t <;> simp [Token.tag]) :
    Spells (pure tok) fun t data => t.tag = tag ∧ t.Fits ∧ t.payload = .ok data := by
  apply (spells_pure tok).congr
  intro t data
  rw [htag]
  constructor
  · intro h
    obtain ⟨rfl, rfl⟩ := h
    exact ⟨rfl, hfits, hpayload⟩
  · intro h
    obtain ⟨rfl, -, hdata⟩ := h
    rw [hpayload, Except.ok.injEq] at hdata
    exact ⟨rfl, hdata.symm⟩

theorem spells_readPayload (tag : Token.Tag) :
    Spells (readPayload tag) fun t data => t.tag = tag ∧ t.Fits ∧ t.payload = .ok data := by
  have hany {α : Type} {work : ReadM α} (tok : α → Token) (hfits : ∀ a, (tok a).Fits)
      (hwork : Spells work fun a data => (tok a).payload = .ok data) :
      Spells work fun a data => (tok a).Fits ∧ (tok a).payload = .ok data :=
    hwork.congr fun a data => by simp only [hfits, true_and]
  cases tag with
  | bool => exact spells_carried _ (hany .bool (fun _ => trivial) spells_readBool)
  | scalar s =>
    refine spells_carried _ (hany (.scalar s) (fun _ => trivial) (spells_readScalar s)) ?_
    intro t
    cases t with
    | scalar s' v =>
      constructor
      · intro h
        cases h
        exact ⟨v, rfl⟩
      · intro h
        obtain ⟨_, h⟩ := h
        cases h
        rfl
    | _ => simp [Token.tag]
  | char => exact spells_carried _ (hany .char (fun _ => trivial) spells_readChar)
  | text => exact spells_carried _ (hany .text (fun _ => trivial) spells_readText)
  | bytes => exact spells_carried _ (hany .bytes (fun _ => trivial) spells_readCounted)
  | option => exact spells_carried _ (hany .option (fun _ => trivial) spells_readOptionFlag)
  | unit => exact spells_empty .unit rfl trivial
  | seq => exact spells_carried _ (hany .seq (fun _ => trivial) (spells_readCount fun _ => rfl))
  | tuple => exact spells_empty .tuple rfl trivial
  | map => exact spells_carried _ (hany .map (fun _ => trivial) (spells_readCount fun _ => rfl))
  | struct => exact spells_empty .struct rfl trivial
  | variant =>
    apply spells_carried .variant
    apply (spells_takeNumber 4).congr
    intro index data
    rw [Token.payload, Except.ok.injEq, eq_comm]
    exact Iff.rfl

/-- Bytes that begin with a spelling begin with no other one. -/
theorem Spells.unique {α : Type} {work : ReadM α} {spelling : α → List UInt8 → Prop}
    (h : Spells work spelling) {a b : α} {p q r s : List UInt8} (ha : spelling a p)
    (hb : spelling b q) (heq : p ++ r = q ++ s) : a = b ∧ r = s := by
  have hfirst := (h { bytes := p ++ r } a { bytes := r }).mpr ⟨p, ha, rfl⟩
  have hsecond := (h { bytes := p ++ r } b { bytes := s }).mpr ⟨q, hb, by rw [heq]⟩
  rw [hfirst] at hsecond
  cases hsecond
  exact ⟨rfl, rfl⟩

end Wire

namespace Token

open Wire

/-- Tagged bytes tell which token they begin with and where it ends. -/
theorem spell_unique {t u : Token} {p q r s : List UInt8} (ht : t.Fits) (hu : u.Fits)
    (hp : t.spell true = .ok p) (hq : u.spell true = .ok q) (heq : p ++ r = q ++ s) :
    t = u ∧ r = s := by
  obtain ⟨payload, hpayload, rfl⟩ := spell_eq_ok_iff.mp hp
  obtain ⟨payload', hpayload', rfl⟩ := spell_eq_ok_iff.mp hq
  simp only [tagBytes, if_true, List.cons_append, List.nil_append, List.cons.injEq] at heq
  obtain ⟨hbyte, hrest⟩ := heq
  have htag := Tag.byte_injective hbyte
  exact (spells_readPayload t.tag).unique ⟨rfl, ht, hpayload⟩ ⟨htag.symm, hu, hpayload'⟩ hrest

/-- Of two sequences of tokens, one of which is spelled at the front of the other, one is at the
front of the other as tokens. -/
theorem prefix_of_spellAll {us ts : List Token} {p q rest : List UInt8}
    (hus : ∀ t ∈ us, t.Fits) (hts : ∀ t ∈ ts, t.Fits) (hq : spellAll true us = .ok q)
    (hp : spellAll true ts = .ok p) (heq : q ++ rest = p) : us <+: ts := by
  induction us generalizing ts p q with
  | nil => exact List.nil_prefix
  | cons u us ih =>
    obtain ⟨qhead, qtail, hqhead, hqtail, rfl⟩ := spellAll_cons_eq_ok_iff.mp hq
    cases ts with
    | nil =>
      obtain ⟨payload, -, rfl⟩ := spell_eq_ok_iff.mp hqhead
      cases hp
      simp [tagBytes] at heq
    | cons t ts =>
      obtain ⟨phead, ptail, hphead, hptail, rfl⟩ := spellAll_cons_eq_ok_iff.mp hp
      rw [List.append_assoc] at heq
      obtain ⟨rfl, htail⟩ := spell_unique (hus u List.mem_cons_self) (hts t List.mem_cons_self)
        hqhead hphead heq
      have hprefix := ih (fun t ht => hus t (List.mem_cons_of_mem _ ht))
        (fun t ht => hts t (List.mem_cons_of_mem _ ht)) hqtail hptail htail
      exact (List.prefix_cons_inj u).mpr hprefix

end Token

namespace Datum

theorem mem_tokensAll {data : List Datum} {t : Token} :
    t ∈ tokensAll data ↔ ∃ d ∈ data, t ∈ d.tokens := by
  induction data with
  | nil => simp [tokensAll]
  | cons d data ih => simp [tokensAll, ih]

theorem mem_tokensEntries {entries : List (Datum × Datum)} {t : Token} :
    t ∈ tokensEntries entries ↔ ∃ e ∈ entries, t ∈ e.1.tokens ∨ t ∈ e.2.tokens := by
  induction entries with
  | nil => simp [tokensEntries]
  | cons e entries ih =>
    obtain ⟨key, value⟩ := e
    simp [tokensEntries, ih, or_assoc]

end Datum

/-- The tokens of a datum of a kind have room for what they tell. -/
theorem Kind.Holds.fits {k : Kind} {d : Datum} (h : k.Holds d) : ∀ t ∈ d.tokens, t.Fits := by
  have hinside {fields : List Kind} {data : List Datum}
      (ih : ∀ k ∈ fields, ∀ {d}, k.Holds d → ∀ t ∈ d.tokens, t.Fits)
      (hdata : List.Forall₂ Kind.Holds fields data) : ∀ t ∈ Datum.tokensAll data, t.Fits := by
    intro t ht
    obtain ⟨d, hd, ht⟩ := Datum.mem_tokensAll.mp ht
    obtain ⟨k, hk, h⟩ := Kind.exists_holds hdata d hd
    exact ih k hk h t ht
  induction k using Kind.inductParts generalizing d with
  | option k ih =>
    cases h with
    | absent => simp [Datum.tokens, Token.Fits]
    | present h => exact List.forall_mem_cons.mpr ⟨trivial, ih h⟩
  | wrapper k ih =>
    cases h with
    | wrapper h => exact ih h
  | seq item ih =>
    cases h with
    | seq h =>
      refine List.forall_mem_cons.mpr ⟨trivial, fun t ht => ?_⟩
      obtain ⟨d, hd, ht⟩ := Datum.mem_tokensAll.mp ht
      exact ih (h d hd) t ht
  | tuple fields ih =>
    cases h with
    | tuple h => exact List.forall_mem_cons.mpr ⟨trivial, hinside ih h⟩
  | map key value ihKey ihValue =>
    cases h with
    | map hkey hvalue =>
      refine List.forall_mem_cons.mpr ⟨trivial, fun t ht => ?_⟩
      obtain ⟨e, he, ht | ht⟩ := Datum.mem_tokensEntries.mp ht
      · exact ihKey (hkey e he) t ht
      · exact ihValue (hvalue e he) t ht
  | struct fields ih =>
    cases h with
    | struct h => exact List.forall_mem_cons.mpr ⟨trivial, hinside ih h⟩
  | enum variants ih =>
    cases h with
    | variant hget hindex h =>
      exact List.forall_mem_cons.mpr ⟨hindex, hinside (ih _ (List.mem_of_getElem? hget)) h⟩
  | _ =>
    cases h
    all_goals simp [Datum.tokens, Token.Fits]

namespace Wire

/-- A datum is read if the bytes begin with what writing it makes, with or without tags. -/
theorem ofBytes_eq_ok_iff {k : Kind} {d : Datum} {bytes : List UInt8} :
    ofBytes k bytes = .ok d ↔ k.Holds d ∧
      ∃ tagged data rest, toBytes tagged d = .ok data ∧ bytes = data ++ rest := by
  have hspells : Spells (do read (← readHeader) k) fun d data =>
      ∃ tagged, k.Holds d ∧ toBytes tagged d = .ok data := by
    apply (spells_readHeader.bind fun tagged _ _ => spells_read k).congr
    intro d data
    constructor
    · intro h
      obtain ⟨tagged, _, body, rfl, ⟨hd, hbody⟩, rfl⟩ := h
      exact ⟨tagged, hd, (toBytes_eq_ok_iff hd).mpr ⟨body, hbody, rfl⟩⟩
    · intro h
      obtain ⟨tagged, hd, hbytes⟩ := h
      obtain ⟨body, hbody, rfl⟩ := (toBytes_eq_ok_iff hd).mp hbytes
      exact ⟨tagged, _, body, rfl, ⟨hd, hbody⟩, rfl⟩
  rw [ofBytes]
  constructor
  · intro hread
    cases hrun : ((do read (← readHeader) k : ReadM Datum).run { bytes } :
        Except WireError Datum × Source) with
    | mk out after =>
      rw [hrun] at hread
      cases hread
      obtain ⟨data, ⟨tagged, hd, hdata⟩, hsrc⟩ := (hspells _ _ _).mp hrun
      exact ⟨hd, tagged, data, after.bytes, hdata, congrArg Source.bytes hsrc⟩
  · intro h
    obtain ⟨hd, tagged, data, rest, hdata, rfl⟩ := h
    rw [(hspells _ d { bytes := rest }).mpr ⟨data, ⟨tagged, hd, hdata⟩, rfl⟩]

/-- The header tells whether what follows is tagged. -/
theorem header_unique {tagged tagged' : Bool} {r s : List UInt8}
    (h : header tagged ++ r = header tagged' ++ s) : tagged = tagged' ∧ r = s :=
  spells_readHeader.unique rfl rfl h

/-- What is read from tagged data is never taken for something else. Whatever kind is asked for, a
datum that is read has the tokens that were written, up to where it ends: the same values under the
same types, the same flags, counts and indices, even if the two kinds nest them in different ways.
Asking for the kind that was written gives back what was written. -/
theorem reads_what_was_written {k k' : Kind} {d d' : Datum} {bytes : List UInt8}
    (hd : k.Holds d) (hbytes : toBytes true d = .ok bytes) (hread : ofBytes k' bytes = .ok d') :
    k'.Holds d' ∧ d'.tokens <+: d.tokens ∧
      d'.tokens.filter Token.isContent <+: d.tokens.filter Token.isContent ∧
      ofBytes k bytes = .ok d := by
  obtain ⟨hd', tagged, data, rest, hdata, rfl⟩ := ofBytes_eq_ok_iff.mp hread
  obtain ⟨body, hbody, hsplit⟩ := (toBytes_eq_ok_iff hd).mp hbytes
  obtain ⟨body', hbody', rfl⟩ := (toBytes_eq_ok_iff hd').mp hdata
  rw [List.append_assoc] at hsplit
  obtain ⟨rfl, hrest⟩ := header_unique hsplit
  have hprefix := Token.prefix_of_spellAll hd'.fits hd.fits hbody' hbody hrest
  refine ⟨hd', hprefix, hprefix.filter _, ?_⟩
  exact ofBytes_eq_ok_iff.mpr ⟨hd, true, _, [], hbytes, (List.append_nil _).symm⟩

def nested : Datum :=
  .struct [.tuple [.scalar (.unsigned .w8) 7, .text "é"], .seq [.bool true, .bool false]]

/-- The first field of the pair alone, and the second one as a field of the record. -/
def flattened : Datum := .struct [.tuple [.scalar (.unsigned .w8) 7], .text "é"]

theorem holds_nested :
    (Kind.struct [.tuple [.scalar (.unsigned .w8), .text], .seq .bool]).Holds nested := by
  apply Kind.Holds.struct
  apply List.Forall₂.cons
  · exact .tuple (.cons (.scalar _) (.cons (.text _) .nil))
  · refine .cons (.seq fun d hd => ?_) .nil
    simp only [List.mem_cons, List.not_mem_nil, or_false] at hd
    rcases hd with rfl | rfl
    · exact .bool _
    · exact .bool _

theorem holds_flattened :
    (Kind.struct [.tuple [.scalar (.unsigned .w8)], .text]).Holds flattened :=
  .struct (.cons (.tuple (.cons (.scalar _) .nil)) (.cons (.text _) .nil))

/-- The record can be read with the pair taken apart, and the flags are left over. -/
theorem reads_what_was_written_nested :
    ∃ bytes, toBytes true nested = .ok bytes ∧
      ofBytes (.struct [.tuple [.scalar (.unsigned .w8)], .text]) bytes = .ok flattened ∧
      flattened.tokens <+: nested.tokens := by
  obtain ⟨rest, hrest⟩ : ∃ rest, Token.spellAll true
      [.seq 2, .bool true, .bool false] = .ok rest := ⟨_, rfl⟩
  obtain ⟨body, hbody⟩ : ∃ body, Token.spellAll true flattened.tokens = .ok body := ⟨_, rfl⟩
  have hbytes : toBytes true nested = .ok (header true ++ (body ++ rest)) := by
    rw [toBytes_eq_ok_iff holds_nested]
    exact ⟨_, Token.spellAll_append_eq_ok_iff.mpr ⟨body, rest, hbody, hrest, rfl⟩, rfl⟩
  have hread : ofBytes (.struct [.tuple [.scalar (.unsigned .w8)], .text])
      (header true ++ (body ++ rest)) = .ok flattened := by
    rw [ofBytes_eq_ok_iff]
    refine ⟨holds_flattened, true, header true ++ body, rest, ?_, ?_⟩
    · exact (toBytes_eq_ok_iff holds_flattened).mpr ⟨body, hbody, rfl⟩
    · rw [List.append_assoc]
  exact ⟨_, hbytes, hread, (reads_what_was_written holds_nested hbytes hread).2.1⟩

end Wire

end BoundedMerge
