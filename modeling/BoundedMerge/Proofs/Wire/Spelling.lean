import BoundedMerge.Wire.Format
import Mathlib.Algebra.Ring.Nat
import Mathlib.Data.List.Forall2

/-!
A datum as the tokens it is written in, and the bytes those tokens are spelled with. A datum of a
kind can be written unless something in it is too long to be counted.
-/

namespace BoundedMerge

inductive Kind.Holds : Kind → Datum → Prop
  | bool (b : Bool) : Holds .bool (.bool b)
  | scalar {s : Scalar} (v : s.Bits) : Holds (.scalar s) (.scalar s v)
  | char (c : Char) : Holds .char (.char c)
  | text (s : String) : Holds .text (.text s)
  | bytes (data : List UInt8) : Holds .bytes (.bytes data)
  | unit : Holds .unit .unit
  | absent {k : Kind} : Holds (.option k) .absent
  | present {k : Kind} {d : Datum} (h : Holds k d) : Holds (.option k) (.present d)
  | wrapper {k : Kind} {d : Datum} (h : Holds k d) : Holds (.wrapper k) d
  | seq {item : Kind} {items : List Datum} (h : ∀ d ∈ items, Holds item d) :
    Holds (.seq item) (.seq items)
  | tuple {fields : List Kind} {data : List Datum} (h : List.Forall₂ Holds fields data) :
    Holds (.tuple fields) (.tuple data)
  | map {key value : Kind} {entries : List (Datum × Datum)}
    (hkey : ∀ e ∈ entries, Holds key e.1) (hvalue : ∀ e ∈ entries, Holds value e.2) :
    Holds (.map key value) (.map entries)
  | struct {fields : List Kind} {data : List Datum} (h : List.Forall₂ Holds fields data) :
    Holds (.struct fields) (.struct data)
  | variant {variants : List Variant} {index : Nat} {v : Variant} {data : List Datum}
    (hget : variants[index]? = some v) (hindex : index < 2 ^ 32)
    (h : List.Forall₂ Holds v.fields data) : Holds (.enum variants) (.variant index data)

/-- Data of one kind each: every one of them is of one of the kinds. -/
theorem Kind.exists_holds {fields : List Kind} {data : List Datum}
    (h : List.Forall₂ Holds fields data) : ∀ d ∈ data, ∃ k ∈ fields, k.Holds d := by
  induction h with
  | nil => exact List.forall_mem_nil _
  | cons hhead _ ih =>
    intro d hd
    cases hd with
    | head => exact ⟨_, List.mem_cons_self, hhead⟩
    | tail _ hd =>
      obtain ⟨k, hk, h⟩ := ih d hd
      exact ⟨k, List.mem_cons_of_mem _ hk, h⟩

/-- Induction over kinds, where a property may be taken to hold for every part of a kind. -/
@[elab_as_elim]
theorem Kind.inductParts {P : Kind → Prop} (bool : P .bool) (scalar : ∀ s, P (.scalar s))
    (char : P .char) (text : P .text) (bytes : P .bytes) (unit : P .unit)
    (option : ∀ k, P k → P (.option k)) (wrapper : ∀ k, P k → P (.wrapper k))
    (seq : ∀ item, P item → P (.seq item))
    (tuple : ∀ fields, (∀ k ∈ fields, P k) → P (.tuple fields))
    (map : ∀ key value, P key → P value → P (.map key value))
    (struct : ∀ fields, (∀ k ∈ fields, P k) → P (.struct fields))
    (enum : ∀ variants, (∀ v ∈ variants, ∀ k ∈ v.fields, P k) → P (.enum variants))
    (any : P .any) (refusing : ∀ message, P (.refusing message)) (k : Kind) : P k := by
  refine @Kind.rec P (fun v => ∀ k ∈ v.fields, P k) (fun kinds => ∀ k ∈ kinds, P k)
    (fun variants => ∀ v ∈ variants, ∀ k ∈ v.fields, P k)
    bool scalar char text bytes unit option wrapper seq tuple map struct enum any refusing
    ?_ ?_ ?_ ?_ ?_ ?_ ?_ ?_ k
  · intro k hk
    cases hk
  · intro k hk k' hk'
    obtain rfl := List.mem_singleton.mp hk'
    exact hk
  · exact fun _ h => h
  · exact fun _ h => h
  · exact List.forall_mem_nil _
  · exact fun _ _ hhead htail => List.forall_mem_cons.mpr ⟨hhead, htail⟩
  · exact List.forall_mem_nil _
  · exact fun _ _ hhead htail => List.forall_mem_cons.mpr ⟨hhead, htail⟩

namespace Datum

mutual

def tokens : Datum → List Token
  | bool b => [.bool b]
  | scalar s v => [.scalar s v]
  | char c => [.char c]
  | text s => [.text s]
  | bytes data => [.bytes data]
  | unit => [.unit]
  | absent => [.option false]
  | present d => .option true :: tokens d
  | seq items => .seq items.length :: tokensAll items
  | tuple fields => .tuple :: tokensAll fields
  | map entries => .map entries.length :: tokensEntries entries
  | struct fields => .struct :: tokensAll fields
  | variant index fields => .variant index :: tokensAll fields
  | unannounced => []
  | refusing _ => []

def tokensAll : List Datum → List Token
  | [] => []
  | d :: data => tokens d ++ tokensAll data

def tokensEntries : List (Datum × Datum) → List Token
  | [] => []
  | (key, value) :: entries => tokens key ++ tokens value ++ tokensEntries entries

end

mutual

/-- The lengths of the texts, byte strings, sequences and maps in a datum in the order they are
written. A text is as long as its bytes. -/
def lengths : Datum → List Nat
  | text s => [(Utf8.encode s).length]
  | bytes data => [data.length]
  | present d => lengths d
  | seq items => items.length :: lengthsAll items
  | map entries => entries.length :: lengthsEntries entries
  | tuple fields | struct fields | variant _ fields => lengthsAll fields
  | _ => []

def lengthsAll : List Datum → List Nat
  | [] => []
  | d :: data => lengths d ++ lengthsAll data

def lengthsEntries : List (Datum × Datum) → List Nat
  | [] => []
  | (key, value) :: entries => lengths key ++ lengths value ++ lengthsEntries entries

end

end Datum

namespace Token

theorem Tag.number_lt (tag : Tag) : tag.number < 256 := by
  cases tag with
  | scalar s =>
    cases s with
    | unsigned w => cases w <;> decide
    | signed w => cases w <;> decide
    | _ => decide
  | _ => decide

def tagBytes (tagged : Bool) (tag : Tag) : List UInt8 :=
  if tagged then [tag.number.toUInt8] else []

def spell (tagged : Bool) (t : Token) : Except WireError (List UInt8) :=
  t.payload.map (tagBytes tagged t.tag ++ ·)

def spellAll (tagged : Bool) : List Token → Except WireError (List UInt8)
  | [] => .ok []
  | t :: ts => do
    let head ← t.spell tagged
    let tail ← spellAll tagged ts
    return head ++ tail

theorem spell_eq_ok_iff {tagged : Bool} {t : Token} {data : List UInt8} :
    t.spell tagged = .ok data ↔
      ∃ payload, t.payload = .ok payload ∧ data = tagBytes tagged t.tag ++ payload := by
  rw [spell]
  cases h : t.payload <;> cases tagged <;> simp [Except.map, tagBytes, eq_comm]

theorem spellAll_cons_eq_ok_iff {tagged : Bool} {t : Token} {ts : List Token}
    {data : List UInt8} : spellAll tagged (t :: ts) = .ok data ↔
      ∃ head tail, t.spell tagged = .ok head ∧ spellAll tagged ts = .ok tail ∧
        data = head ++ tail := by
  rw [spellAll]
  cases t.spell tagged <;> cases spellAll tagged ts <;>
    simp [bind, Except.bind, pure, Except.pure, eq_comm]

def length? : Token → Option Nat
  | text s => some (Utf8.encode s).length
  | bytes data => some data.length
  | seq count | map count => some count
  | _ => none

theorem counted_ok {count : Nat} (data : List UInt8) (h : count ≤ maxCount) :
    counted count data = .ok (LittleEndian.encode 2 count ++ data) :=
  if_neg (Nat.not_lt.mpr h)

theorem counted_error {count : Nat} (data : List UInt8) (h : maxCount < count) :
    counted count data = .error (.lengthOverflow count) :=
  if_pos h

theorem counted_eq_ok_iff {count : Nat} {data bytes : List UInt8} :
    counted count data = .ok bytes ↔
      count ≤ maxCount ∧ bytes = LittleEndian.encode 2 count ++ data := by
  rcases Nat.lt_or_ge maxCount count with hlong | hshort
  · rw [counted_error data hlong]
    exact ⟨nofun, fun h => absurd h.1 (Nat.not_le.mpr hlong)⟩
  · rw [counted_ok data hshort, Except.ok.injEq, eq_comm]
    exact (and_iff_right hshort).symm

variable (tagged : Bool)

/-- A token cannot be spelled only if it is too long to be counted. -/
theorem spell_cases (t : Token) :
    (∃ data, t.spell tagged = .ok data ∧ ∀ n ∈ t.length?, n ≤ maxCount) ∨
      ∃ n, t.length? = some n ∧ maxCount < n ∧ t.spell tagged = .error (.lengthOverflow n) := by
  have hcounted (count : Nat) (data : List UInt8) (hlength : t.length? = some count)
      (hpayload : t.payload = counted count data) :
      (∃ data, t.spell tagged = .ok data ∧ ∀ n ∈ t.length?, n ≤ maxCount) ∨
        ∃ n, t.length? = some n ∧ maxCount < n ∧
          t.spell tagged = .error (.lengthOverflow n) := by
    rw [spell, hpayload, hlength]
    rcases Nat.lt_or_ge maxCount count with hlong | hshort
    · exact .inr ⟨count, rfl, hlong, by rw [counted_error data hlong]; rfl⟩
    · refine .inl ⟨_, by rw [counted_ok data hshort]; rfl, ?_⟩
      intro n hn
      rwa [← Option.some.inj hn]
  cases t with
  | text s => exact hcounted _ _ rfl rfl
  | bytes data => exact hcounted _ _ rfl rfl
  | seq count => exact hcounted count [] rfl rfl
  | map count => exact hcounted count [] rfl rfl
  | _ => exact .inl ⟨_, rfl, fun _ h => nomatch h⟩

theorem spellAll_append (ts us : List Token) :
    spellAll tagged (ts ++ us) = do
      let head ← spellAll tagged ts
      let tail ← spellAll tagged us
      return head ++ tail := by
  induction ts with
  | nil => cases h : spellAll tagged us <;> exact h
  | cons t ts ih =>
    simp only [List.cons_append, spellAll, ih]
    cases t.spell tagged <;> cases spellAll tagged ts <;> cases spellAll tagged us <;>
      simp [bind, Except.bind, pure, Except.pure]

theorem spellAll_append_eq_ok_iff {tagged : Bool} {ts us : List Token} {data : List UInt8} :
    spellAll tagged (ts ++ us) = .ok data ↔
      ∃ head tail, spellAll tagged ts = .ok head ∧ spellAll tagged us = .ok tail ∧
        data = head ++ tail := by
  rw [spellAll_append]
  cases spellAll tagged ts <;> cases spellAll tagged us <;>
    simp [bind, Except.bind, pure, Except.pure, eq_comm]

/-- Tokens cannot be spelled only if one is too long, and the first such is what is told. -/
theorem spellAll_cases (ts : List Token) :
    (∃ data, spellAll tagged ts = .ok data ∧ ∀ n ∈ ts.filterMap length?, n ≤ maxCount) ∨
      ∃ n, (ts.filterMap length?).find? (maxCount < ·) = some n ∧
        spellAll tagged ts = .error (.lengthOverflow n) := by
  induction ts with
  | nil => exact .inl ⟨[], rfl, List.forall_mem_nil _⟩
  | cons t ts ih =>
    obtain ⟨head, hhead, hshort⟩ | ⟨n, hlength, hlong, hhead⟩ := spell_cases tagged t
    · have hskip : ((t :: ts).filterMap length?).find? (maxCount < ·) =
          (ts.filterMap length?).find? (maxCount < ·) := by
        cases hlength : t.length? with
        | none => rw [List.filterMap_cons_none hlength]
        | some n =>
          have hn : ¬ maxCount < n := Nat.not_lt.mpr (hshort n hlength)
          rw [List.filterMap_cons_some hlength, List.find?_cons_of_neg (by simpa using hn)]
      obtain ⟨tail, htail, hall⟩ | ⟨n, hfind, htail⟩ := ih
      · refine .inl ⟨head ++ tail, by rw [spellAll, hhead, htail]; rfl, ?_⟩
        intro n hn
        obtain ⟨u, hu, hlength⟩ := List.mem_filterMap.mp hn
        cases hu with
        | head => exact hshort n hlength
        | tail _ hu => exact hall n (List.mem_filterMap.mpr ⟨u, hu, hlength⟩)
      · exact .inr ⟨n, hskip.trans hfind, by rw [spellAll, hhead, htail]; rfl⟩
    · refine .inr ⟨n, ?_, by rw [spellAll, hhead]; rfl⟩
      rw [List.filterMap_cons_some hlength, List.find?_cons_of_pos (by simpa using hlong)]

end Token

namespace Datum

mutual

theorem filterMap_tokens (d : Datum) : d.tokens.filterMap Token.length? = d.lengths := by
  cases d with
  | present d => exact filterMap_tokens d
  | seq items => exact congrArg (items.length :: ·) (filterMap_tokensAll items)
  | tuple fields => exact filterMap_tokensAll fields
  | map entries => exact congrArg (entries.length :: ·) (filterMap_tokensEntries entries)
  | struct fields => exact filterMap_tokensAll fields
  | variant index fields => exact filterMap_tokensAll fields
  | _ => rfl

theorem filterMap_tokensAll (data : List Datum) :
    (tokensAll data).filterMap Token.length? = lengthsAll data := by
  cases data with
  | nil => rfl
  | cons d data =>
    rw [tokensAll, List.filterMap_append, filterMap_tokens d, filterMap_tokensAll data, lengthsAll]

theorem filterMap_tokensEntries (entries : List (Datum × Datum)) :
    (tokensEntries entries).filterMap Token.length? = lengthsEntries entries := by
  cases entries with
  | nil => rfl
  | cons e entries =>
    rw [tokensEntries, List.filterMap_append, List.filterMap_append, filterMap_tokens e.1,
      filterMap_tokens e.2, filterMap_tokensEntries entries, lengthsEntries]

end

end Datum

namespace Wire

theorem run_bind {σ α β : Type} (work : ExceptT WireError (StateM σ) α)
    (next : α → ExceptT WireError (StateM σ) β) (s : σ) :
    (work >>= next).run s = match (work.run s : Except WireError α × σ) with
      | (.ok a, after) => ((next a).run after : Except WireError β × σ)
      | (.error e, after) => (.error e, after) := by
  change (match (work.run s : Except WireError α × σ) with
    | (a, after) => ExceptT.bindCont next a after) = _
  rcases (work.run s : Except WireError α × σ) with ⟨_ | _, _⟩ <;> rfl

theorem run_tryCatch {σ α : Type} (work : ExceptT WireError (StateM σ) α)
    (handle : WireError → ExceptT WireError (StateM σ) α) (s : σ) :
    (tryCatch work handle).run s = match (work.run s : Except WireError α × σ) with
      | (.ok a, after) => ((.ok a, after) : Except WireError α × σ)
      | (.error e, after) => ((handle e).run after : Except WireError α × σ) := by
  change StateT.run (tryCatch work handle).run s = _
  rw [ExceptT.run_tryCatch, StateT.run_bind]
  cases hrun : (work.run s : Except WireError α × σ) with
  | mk out after =>
    rw [show StateT.run work.run s = ((out, after) : Except WireError α × σ) from hrun]
    cases out <;> rfl

/-- Work that puts spelled bytes into a sink with room for any number, or fails with what is wrong
with their spelling. -/
def Puts (work : WriteM Unit) (spelled : Except WireError (List UInt8)) : Prop :=
  ∀ sink : Sink, sink.room = none →
    match spelled with
    | .ok data => work.run sink = (.ok (), { sink with bytes := sink.bytes ++ data })
    | .error e => ∃ after, work.run sink = (.error e, after)

theorem puts_pure : Puts (pure ()) (.ok []) := by
  intro sink _
  change (Except.ok (), sink) = (Except.ok (), { sink with bytes := sink.bytes ++ [] })
  rw [Array.appendList_nil]

theorem puts_push (data : List UInt8) : Puts (push data) (.ok data) := by
  intro sink hroom
  obtain ⟨bytes, room⟩ := sink
  cases hroom
  rfl

/-- What is spelled one behind the other is put one behind the other. -/
theorem Puts.bind {first second : WriteM Unit} {head tail : Except WireError (List UInt8)}
    (hfirst : Puts first head) (hsecond : Puts second tail) :
    Puts (do first; second) (do let x ← head; let y ← tail; return x ++ y) := by
  intro sink hroom
  have hrun := hfirst sink hroom
  rw [run_bind]
  cases head with
  | error e =>
    obtain ⟨after, hrun⟩ := hrun
    exact ⟨after, by rw [hrun]⟩
  | ok x =>
    have hnext := hsecond { sink with bytes := sink.bytes ++ x } hroom
    rw [show first.run sink = _ from hrun]
    cases tail with
    | error e => exact hnext
    | ok y =>
      have hassoc : sink.bytes ++ (x ++ y) = sink.bytes ++ x ++ y :=
        Array.toList_inj.mp (by simp only [Array.toList_appendList, List.append_assoc])
      change second.run _ = (.ok (), { sink with bytes := sink.bytes ++ (x ++ y) })
      rw [hassoc]
      exact hnext

theorem puts_emit (tagged : Bool) (t : Token) : Puts (emit tagged t) (t.spell tagged) := by
  have hpayload : Puts (match t.payload with | .ok data => push data | .error e => throw e)
      t.payload := by
    cases t.payload with
    | ok data => exact puts_push data
    | error e => exact fun sink _ => ⟨sink, rfl⟩
  have hspell : t.spell tagged =
      (do let x ← .ok (Token.tagBytes tagged t.tag); let y ← t.payload; return x ++ y) := by
    cases h : t.payload <;> simp [Token.spell, h, Except.map, bind, Except.bind, pure, Except.pure]
  rw [hspell]
  cases tagged with
  | false => exact puts_pure.bind hpayload
  | true => exact (puts_push _).bind hpayload

/-- A token and what is written behind it. -/
theorem puts_emit_bind {tagged : Bool} {t : Token} {ts : List Token} {rest : WriteM Unit}
    (h : Puts rest (Token.spellAll tagged ts)) :
    Puts (do emit tagged t; rest) (Token.spellAll tagged (t :: ts)) :=
  (puts_emit tagged t).bind h

theorem puts_emit_only (tagged : Bool) (t : Token) :
    Puts (emit tagged t) (Token.spellAll tagged [t]) := by
  have hrun : emit tagged t = (do emit tagged t; pure ()) := (bind_pure _).symm
  rw [hrun]
  exact puts_emit_bind puts_pure

variable {tagged : Bool}

theorem puts_writeAll {data : List Datum}
    (h : ∀ d ∈ data, Puts (write tagged d) (Token.spellAll tagged d.tokens)) :
    Puts (writeAll tagged data) (Token.spellAll tagged (Datum.tokensAll data)) := by
  induction data with
  | nil => exact puts_pure
  | cons d data ih =>
    obtain ⟨hhead, htail⟩ := List.forall_mem_cons.mp h
    rw [writeAll, Datum.tokensAll, Token.spellAll_append]
    exact hhead.bind (ih htail)

theorem puts_writeEntries {entries : List (Datum × Datum)}
    (hkey : ∀ e ∈ entries, Puts (write tagged e.1) (Token.spellAll tagged e.1.tokens))
    (hvalue : ∀ e ∈ entries, Puts (write tagged e.2) (Token.spellAll tagged e.2.tokens)) :
    Puts (writeEntries tagged entries) (Token.spellAll tagged (Datum.tokensEntries entries)) := by
  induction entries with
  | nil => exact puts_pure
  | cons e entries ih =>
    obtain ⟨hkeyHead, hkeyTail⟩ := List.forall_mem_cons.mp hkey
    obtain ⟨hvalueHead, hvalueTail⟩ := List.forall_mem_cons.mp hvalue
    rw [writeEntries, Datum.tokensEntries, List.append_assoc, Token.spellAll_append,
      Token.spellAll_append]
    exact hkeyHead.bind (hvalueHead.bind (ih hkeyTail hvalueTail))

/-- A datum of a kind is written as its tokens are spelled. -/
theorem puts_write (k : Kind) (d : Datum) (h : k.Holds d) :
    Puts (write tagged d) (Token.spellAll tagged d.tokens) := by
  -- the data inside a datum are of kinds inside its kind
  have hinside {fields : List Kind} {data : List Datum}
      (ih : ∀ k ∈ fields, ∀ d, k.Holds d → Puts (write tagged d) (Token.spellAll tagged d.tokens))
      (hdata : List.Forall₂ Kind.Holds fields data) :
      Puts (writeAll tagged data) (Token.spellAll tagged (Datum.tokensAll data)) := by
    refine puts_writeAll fun d hd => ?_
    obtain ⟨k, hk, h⟩ := Kind.exists_holds hdata d hd
    exact ih k hk d h
  induction k using Kind.inductParts generalizing d with
  | option k ih =>
    cases h with
    | absent => exact puts_emit_only _ _
    | present h => exact puts_emit_bind (ih _ h)
  | wrapper k ih =>
    cases h with
    | wrapper h => exact ih d h
  | seq item ih =>
    cases h with
    | seq h => exact puts_emit_bind (puts_writeAll fun d hd => ih d (h d hd))
  | tuple fields ih =>
    cases h with
    | tuple h => exact puts_emit_bind (hinside ih h)
  | map key value ihKey ihValue =>
    cases h with
    | map hkey hvalue =>
      exact puts_emit_bind (puts_writeEntries (fun e he => ihKey e.1 (hkey e he))
        fun e he => ihValue e.2 (hvalue e he))
  | struct fields ih =>
    cases h with
    | struct h => exact puts_emit_bind (hinside ih h)
  | enum variants ih =>
    cases h with
    | variant hget _ h => exact puts_emit_bind (hinside (ih _ (List.mem_of_getElem? hget)) h)
  | _ =>
    cases h
    all_goals exact puts_emit_only _ _

end Wire
end BoundedMerge
