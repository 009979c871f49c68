import BoundedMerge.Proofs.Wire.Reading

/-!
Whole streams: a header and data behind it. What was written is read back as it was, and a stream
that can be read is the one that writing would have made.
-/

namespace BoundedMerge.Wire

def headerBytes (tagged : Bool) : List UInt8 :=
  LittleEndian.encode 2 23 ++ (Utf8.encode marker ++
    (LittleEndian.encode 2 1 ++ [if tagged then 1 else 0]))

theorem puts_writeHeader (tagged : Bool) : Puts (writeHeader tagged) (.ok (headerBytes tagged)) :=
  (puts_push _).bind ((puts_push _).bind ((puts_push _).bind (puts_push _)))

theorem header_eq (tagged : Bool) : header tagged = headerBytes tagged := by
  have hrun : (writeHeader tagged).run {} =
      ((.ok (), { bytes := #[] ++ headerBytes tagged }) : Except WireError Unit × Sink) :=
    puts_writeHeader tagged {} rfl
  rw [header, hrun, Array.toList_appendList, List.nil_append]

theorem length_marker : (Utf8.encode marker).length = 23 := by decide +kernel

theorem length_header (tagged : Bool) : (header tagged).length = 28 := by
  rw [header_eq, headerBytes]
  simp only [List.length_append, LittleEndian.length_encode, length_marker, List.length_singleton]

theorem spells_readFields : Spells readFields fun flag data => data = header flag := by
  refine (spells_readCounted.bind fun name _ _ => Spells.unless .badHeader
    ((spells_takeNumber 2).bind fun number _ _ => Spells.unless .badHeader
      spells_readBool)).congr fun flag data => ?_
  have hmarker : (Token.bytes (Utf8.encode marker)).payload =
      .ok (LittleEndian.encode 2 23 ++ Utf8.encode marker) := by
    rw [Token.payload, length_marker]
    exact Token.counted_ok _ (by decide)
  rw [header_eq]
  constructor
  · rintro ⟨name, head, _, hname, ⟨hmark, number, _, last, ⟨_, rfl⟩, ⟨hnumber, hlast⟩, rfl⟩, rfl⟩
    rw [not_not.mp hmark, hmarker] at hname
    rw [not_not.mp hnumber, ← Except.ok.inj hname, ← Except.ok.inj hlast, List.append_assoc]
    rfl
  · rintro rfl
    exact ⟨_, _, _, hmarker, ⟨not_not.mpr rfl, 1, _, _, ⟨by decide, rfl⟩,
      ⟨not_not.mpr rfl, rfl⟩, rfl⟩, by rw [List.append_assoc]; rfl⟩

theorem spells_readHeader : Spells readHeader fun flag data => data = header flag := by
  intro src flag after
  rw [← spells_readFields src flag after, readHeader, run_tryCatch]
  rcases (readFields.run src : Except WireError Bool × Source) with ⟨_ | _, _⟩
  · exact ⟨nofun, nofun⟩
  · exact Iff.rfl

/-- A header that cannot be read is a bad one, whatever is wrong with it. -/
theorem error_readHeader {src after : Source} {e : WireError}
    (h : readHeader.run src = (.error e, after)) : e = .badHeader := by
  rw [readHeader, run_tryCatch] at h
  split at h <;> cases h
  rfl

/-- A datum of a kind is written if nothing in it is too long to be counted, and otherwise the first
length that is too long is told. -/
theorem outcome_write {tagged : Bool} {k : Kind} {d : Datum} {sink : Sink} (h : k.Holds d)
    (hroom : sink.room = none) :
    (((write tagged d).run sink).1 = .ok () ↔ ∀ n ∈ d.lengths, n ≤ Token.maxCount) ∧
      ∀ e, ((write tagged d).run sink).1 = .error e ↔
        ∃ n, d.lengths.find? (Token.maxCount < ·) = some n ∧ e = .lengthOverflow n := by
  have hputs : Puts (write tagged d) _ := puts_write k d h
  have hrun := hputs sink hroom
  rw [← d.filterMap_tokens]
  obtain ⟨data, hspell, hshort⟩ | ⟨n, hfind, hspell⟩ := Token.spellAll_cases tagged d.tokens
  · rw [hspell] at hrun
    rw [show (write tagged d).run sink = _ from hrun]
    refine ⟨⟨fun _ => hshort, fun _ => rfl⟩, fun e => ⟨nofun, ?_⟩⟩
    rintro ⟨n, hfind, _⟩
    have hlong : Token.maxCount < n := by simpa using List.find?_some hfind
    exact absurd (hshort n (List.mem_of_find?_eq_some hfind)) (Nat.not_le.mpr hlong)
  · rw [hspell] at hrun
    obtain ⟨after, hrun⟩ := hrun
    rw [hrun]
    refine ⟨⟨nofun, fun hshort => ?_⟩, fun e => ?_⟩
    · have hlong : Token.maxCount < n := by simpa using List.find?_some hfind
      exact absurd (hshort n (List.mem_of_find?_eq_some hfind)) (Nat.not_le.mpr hlong)
    · constructor
      · intro he
        cases he
        exact ⟨n, hfind, rfl⟩
      · rintro ⟨m, hm, rfl⟩
        rw [Option.some.inj (hfind.symm.trans hm)]

/-- What is written into a sink with room for any number of bytes, header and data. -/
theorem puts_stream {tagged : Bool} {kinds : List Kind} {data : List Datum}
    (h : List.Forall₂ Kind.Holds kinds data) :
    Puts (do writeHeader tagged; writeAll tagged data) (do
      let head ← .ok (header tagged)
      let tail ← Token.spellAll tagged (Datum.tokensAll data)
      return head ++ tail) := by
  rw [header_eq]
  refine (puts_writeHeader tagged).bind (puts_writeAll fun d hd => ?_)
  obtain ⟨k, _, hk⟩ := Kind.exists_holds h d hd
  exact puts_write k d hk

/-- A header and then one datum of each kind, with or without tags as the header says. -/
def readStream (kinds : List Kind) : ReadM (Bool × List Datum) := do
  let tagged ← readHeader
  return (tagged, ← readAll tagged kinds)

theorem spells_readStream (kinds : List Kind) :
    Spells (readStream kinds) fun out bytes =>
      List.Forall₂ Kind.Holds kinds out.2 ∧ ∃ body,
        Token.spellAll out.1 (Datum.tokensAll out.2) = .ok body ∧
          bytes = header out.1 ++ body := by
  refine (spells_readHeader.bind fun tagged _ _ =>
    (spells_readAll fun k _ => spells_read k).map (tagged, ·)).congr fun out bytes => ?_
  constructor
  · rintro ⟨tagged, _, body, rfl, ⟨data, rfl, hdata, hbody⟩, rfl⟩
    exact ⟨hdata, body, hbody, rfl⟩
  · rintro ⟨hdata, body, hbody, rfl⟩
    exact ⟨out.1, _, body, rfl, ⟨out.2, rfl, hdata, hbody⟩, rfl⟩

/-- A datum is written unless something in it is too long to be counted. If all of some data were
written behind a header, reading data of their kinds gives them back, tells whether they are
tagged, and uses up exactly the bytes that were written. -/
theorem stream_roundTrip (tagged : Bool) :
    (∀ (k : Kind) (d : Datum) (sink : Sink), k.Holds d → sink.room = none →
      (((write tagged d).run sink).1 = .ok () ↔ ∀ n ∈ d.lengths, n ≤ Token.maxCount) ∧
        ∀ e, ((write tagged d).run sink).1 = .error e ↔
          ∃ n, d.lengths.find? (Token.maxCount < ·) = some n ∧ e = .lengthOverflow n) ∧
    ∀ (kinds : List Kind) (data : List Datum) (sink : Sink), List.Forall₂ Kind.Holds kinds data →
      (do writeHeader tagged; writeAll tagged data).run {} = (.ok (), sink) →
      ∀ rest fault, (readStream kinds).run { bytes := sink.bytes.toList ++ rest, fault } =
        (.ok (tagged, data), { bytes := rest, fault }) := by
  refine ⟨fun k d sink => outcome_write, fun kinds data sink hdata hwrite rest fault => ?_⟩
  have hputs : Puts (do writeHeader tagged; writeAll tagged data) _ := puts_stream hdata
  have hrun := hputs {} rfl
  rw [hwrite] at hrun
  cases hbody : Token.spellAll tagged (Datum.tokensAll data) with
  | error e =>
    rw [hbody] at hrun
    obtain ⟨_, hrun⟩ := hrun
    cases hrun
  | ok body =>
    rw [hbody] at hrun
    cases hrun
    refine (spells_readStream kinds _ _ _).mpr ⟨_, ⟨hdata, body, hbody, rfl⟩, ?_⟩
    rw [Array.toList_appendList, List.nil_append]

/-- A record with an optional list of texts, and a shape with fields. -/
def sampleKinds : List Kind :=
  [.struct [.text, .option (.seq .text)], .enum [.unit, .struct [.char, .scalar .float32]]]

def sampleData : List Datum :=
  [.struct [.text "a", .present (.seq [.text "", .text "é"])],
    .variant 1 [.char 'z', .scalar .float32 7]]

theorem holds_sampleData : List.Forall₂ Kind.Holds sampleKinds sampleData := by
  refine .cons (.struct (.cons (.text _) (.cons (.present (.seq ?_)) .nil)))
    (.cons (.variant rfl (by decide) (.cons (.char _) (.cons (.scalar _) .nil))) .nil)
  intro d hd
  simp only [List.mem_cons, List.not_mem_nil, or_false] at hd
  rcases hd with rfl | rfl
  · exact .text _
  · exact .text _

def sampleStream (tagged : Bool) : List UInt8 :=
  ((do writeHeader tagged; writeAll tagged sampleData : WriteM Unit).run {} :
    Except WireError Unit × Sink).2.bytes.toList

theorem sample_roundTrip :
    (readStream sampleKinds).run { bytes := sampleStream true ++ [255] } =
        (.ok (true, sampleData), { bytes := [255] }) ∧
      ((write true (.text "ab")).run {}).1 = .ok () :=
  ⟨(stream_roundTrip true).2 sampleKinds sampleData _ holds_sampleData rfl [255] none,
    ((stream_roundTrip true).1 .text (.text "ab") {} (.text _) rfl).1.mpr (by decide +kernel)⟩

def readOne (k : Kind) : ReadM (Bool × Datum) := do
  let tagged ← readHeader
  return (tagged, ← read tagged k)

theorem toBytes_eq_ok_iff {tagged : Bool} {k : Kind} {d : Datum} {bytes : List UInt8}
    (h : k.Holds d) : toBytes tagged d = .ok bytes ↔
      ∃ body, Token.spellAll tagged d.tokens = .ok body ∧ bytes = header tagged ++ body := by
  have hputs : Puts (do writeHeader tagged; write tagged d) (do
      let head ← .ok (header tagged)
      let tail ← Token.spellAll tagged d.tokens
      return head ++ tail) := by
    rw [header_eq]
    exact (puts_writeHeader tagged).bind (puts_write k d h)
  have hrun := hputs {} rfl
  rw [toBytes]
  cases hbody : Token.spellAll tagged d.tokens with
  | error e =>
    rw [hbody] at hrun
    obtain ⟨after, hrun⟩ := hrun
    rw [hrun]
    exact ⟨nofun, nofun⟩
  | ok body =>
    rw [hbody] at hrun
    rw [show (do writeHeader tagged; write tagged d : WriteM Unit).run {} = _ from hrun]
    change (.ok (#[] ++ (header tagged ++ body) : Array UInt8).toList : Except WireError _) = _ ↔ _
    rw [Array.toList_appendList, List.nil_append, Except.ok.injEq]
    constructor
    · rintro rfl
      exact ⟨body, rfl, rfl⟩
    · rintro ⟨_, hbody, rfl⟩
      rw [Except.ok.inj hbody]

/-- Reading a datum behind a header accepts exactly what writing it makes. -/
theorem spells_readOne (k : Kind) :
    Spells (readOne k) fun out bytes => k.Holds out.2 ∧ toBytes out.1 out.2 = .ok bytes := by
  refine (spells_readHeader.bind fun tagged _ _ =>
    (spells_read k).map (tagged, ·)).congr fun out bytes => ?_
  constructor
  · rintro ⟨tagged, _, body, rfl, ⟨d, rfl, hd, hbody⟩, rfl⟩
    exact ⟨hd, (toBytes_eq_ok_iff hd).mpr ⟨body, hbody, rfl⟩⟩
  · intro ⟨hd, hbytes⟩
    obtain ⟨body, hbody, rfl⟩ := (toBytes_eq_ok_iff hd).mp hbytes
    exact ⟨out.1, _, body, rfl, ⟨out.2, rfl, hd, hbody⟩, rfl⟩

/-- The format is canonical. A stream is accepted if it begins with one of the two headers, and has
a bad header otherwise. If a datum is read behind the header, then the bytes used up are those that
writing the datum makes, so no other bytes stand for it. -/
theorem stream_canonical (k : Kind) (src : Source) :
    (∀ tagged after, readHeader.run src = (.ok tagged, after) ↔
      src = { after with bytes := header tagged ++ after.bytes }) ∧
    ((readHeader.run src).1 = .error .badHeader ↔ ∀ tagged, ¬ header tagged <+: src.bytes) ∧
    (∀ tagged, (header tagged).length = 28 ∧ header tagged = LittleEndian.encode 2 23 ++
      (Utf8.encode marker ++ (LittleEndian.encode 2 1 ++ [if tagged then 1 else 0]))) ∧
    ∀ tagged d after, (readOne k).run src = (.ok (tagged, d), after) ↔
      k.Holds d ∧ ∃ bytes, toBytes tagged d = .ok bytes ∧
        src = { after with bytes := bytes ++ after.bytes } := by
  have haccept (tagged : Bool) (after : Source) : readHeader.run src = (.ok tagged, after) ↔
      src = { after with bytes := header tagged ++ after.bytes } := by
    rw [spells_readHeader src tagged after]
    exact ⟨fun ⟨_, h, hsrc⟩ => h ▸ hsrc, fun hsrc => ⟨_, rfl, hsrc⟩⟩
  refine ⟨haccept, ⟨fun hbad tagged => ?_, fun hnone => ?_⟩,
    fun tagged => ⟨length_header tagged, header_eq tagged⟩, fun tagged d after => ?_⟩
  · rintro ⟨rest, hrest⟩
    rw [(haccept tagged { src with bytes := rest }).mpr (by rw [hrest])] at hbad
    cases hbad
  · cases hrun : (readHeader.run src : Except WireError Bool × Source) with
    | mk out after =>
      cases out with
      | ok tagged =>
        rw [(haccept tagged after).mp hrun] at hnone
        exact absurd (List.prefix_append _ _) (hnone tagged)
      | error e => rw [error_readHeader hrun]
  · rw [spells_readOne k src (tagged, d) after]
    constructor
    · rintro ⟨bytes, ⟨hd, hbytes⟩, hsrc⟩
      exact ⟨hd, bytes, hbytes, hsrc⟩
    · rintro ⟨hd, bytes, hbytes, hsrc⟩
      exact ⟨bytes, ⟨hd, hbytes⟩, hsrc⟩

end BoundedMerge.Wire
