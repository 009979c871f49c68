import BoundedMerge.Proofs.Layout.Lawful
import BoundedMerge.Proofs.Tape.Owed

/-!
Sessions on a disk that may refuse anything. Every entry of a session is as it was owed. What is
owed is not all that was accepted: a block that cannot be saved when another one is reached is
dropped with its records, and a device without any room shows how a record is lost that way.
-/

namespace BoundedMerge

open FixedWidth SiteM

variable {τ : Type}

namespace Tape

variable {ref : Site} {t : Tape τ} {p : Pledge τ}

theorem Upholds.map {α β : Type} {work : TapeM τ α} {Q : α → Tape τ → Prop}
    {R : β → Tape τ → Prop} {E F : TapeError → Tape τ → Prop} (f : α → β)
    (h : t.Upholds ref work Q E) (hR : ∀ a t', Q a t' → R (f a) t')
    (hF : ∀ e t', E e t' → F e t') : t.Upholds ref (do return f (← work)) R F := by
  have hmono : t.Upholds ref work (fun a t' => R (f a) t') F :=
    h.mono (fun a t' _ => hR a t') (fun e t' _ => hF e t')
  apply hmono.bind
  intro a t' _ hout
  exact Upholds.pure hout

variable [FixedWidth τ]

/-- Makes the calls one after the other, and looks at the disk after each of them. -/
def journey (t : Tape τ) : List (TapeCall τ) → SiteM (List (Entry τ))
  | [] => return []
  | call :: calls => do
    let (answer, t) ← (ask call : TapeM τ (Answer τ)) t
    return ⟨call, t.note answer, t.disk⟩ :: (← t.journey calls)

/-- It is the session with these calls. -/
theorem session_eq_journey (t : Tape τ) (calls : List (TapeCall τ)) :
    t.session calls =
      (fun entries => entries.map fun e => (e.call, e.note)) <$> t.journey calls := by
  induction calls generalizing t with
  | nil => rfl
  | cons call calls ih =>
    simp only [session, journey, map_bind, map_pure, ih, bind_map_left, List.map_cons]

theorem Secures.all_stored [CanonicalFixedWidth τ] (h : t.Secures none p) : p.Stored t.disk := by
  have hdisk := h.on_disk (by intro b hb; contradiction)
  have hplaced : ∀ i < p.size, ∀ x, p.record i = some x → (i + 1) * width τ ≤ t.disk.bytes.size ∧
      t.disk.bytes.slice (i * width τ) (width τ) = encode x := by
    intro i hi x hx
    obtain ⟨hend, hrecord⟩ := hdisk i hi x hx
    exact ⟨hend, by rw [SparseBytes.slice_record, hrecord]⟩
  refine ⟨hplaced, ?_⟩
  intro records hlists
  obtain ⟨hsize, hrecords⟩ := hlists
  apply SparseBytes.toList_eq_encodeAll
  · apply Nat.le_antisymm
    · rw [← hsize, ← h.size_eq]
      exact h.bounded
    · cases hcount : records.length with
      | zero =>
        rw [Nat.zero_mul]
        exact Nat.zero_le _
      | succ last =>
        have hlast : last < records.length := by omega
        exact (hplaced last (by omega) _ (hrecords last hlast)).1
  · intro i hi
    exact (hplaced i (by omega) _ (hrecords i hi)).2

variable [CanonicalFixedWidth τ]

/-- Each call, with the records that it gives. -/
theorem upholds_ask (h : t.Honours p) (call : TapeCall τ) :
    t.Upholds ref (ask call)
      (fun answer t' => t'.Honours (p.granted t.blockItems call answer) ∧
        (∀ (k : Nat) (hk : k < answer.given.length),
          p.Owes (call.origin p.offset + k) answer.given[k]) ∧
        (call.saves → t'.Secures none p.saved))
      (fun e t' => t'.Honours (p.refused .miss t.blockItems t'.offset call e)) := by
  have hnone (k : Nat) (hk : k < (Answer.done : Answer τ).given.length) :
      p.Owes (call.origin p.offset + k) Answer.done.given[k] := absurd hk (Nat.not_lt_zero k)
  have hone {x : τ} {offset : Nat} (hx : p.Owes offset x) (k : Nat) (hk : k < [x].length) :
      p.Owes (offset + k) [x][k] := by
    obtain rfl : k = 0 := Nat.lt_one_iff.mp hk
    exact hx
  cases call with
  | write x =>
    apply (upholds_write h x).map fun _ => Answer.done
    · intro _ t' hout
      exact ⟨hout, hnone, by intro hsaves; contradiction⟩
    · intro e t' hout
      exact hout
  | writeArray xs =>
    apply (upholds_writeArray h xs).map fun _ => Answer.done
    · intro _ t' hout
      exact ⟨hout, hnone, by intro hsaves; contradiction⟩
    · intro e t' hout
      obtain ⟨k, hk, hkept⟩ := hout
      have hoffset := hkept.offset_eq
      rw [Pledge.offset_failed_miss, Pledge.offset_writes, List.length_take, Nat.min_eq_left hk]
        at hoffset
      change t'.Honours ((p.writes t.blockItems (xs.take (t'.offset - p.offset))).failed .miss _ e)
      rw [hoffset, Nat.add_sub_cancel_left]
      exact hkept
  | read =>
    apply (upholds_read h).map Answer.record
    · intro x t' hout
      exact ⟨hout.2, hone hout.1, by intro hsaves; contradiction⟩
    · intro e t' hout
      exact hout
  | readBack =>
    apply (upholds_readBack h).map Answer.record
    · intro x t' hout
      exact ⟨hout.2, hone hout.1, by intro hsaves; contradiction⟩
    · intro e t' hout
      exact hout
  | readArray count =>
    apply (upholds_readArray h count).map Answer.records
    · intro xs t' hout
      exact ⟨hout.2.2, hout.2.1, by intro hsaves; contradiction⟩
    · intro e t' hout
      obtain ⟨k, hkept⟩ := hout
      have hoffset := hkept.offset_eq
      rw [Pledge.offset_failed_miss, Pledge.offset_reads] at hoffset
      change t'.Honours ((p.reads t.blockItems (t'.offset - p.offset)).failed .miss _ e)
      rw [hoffset, Nat.add_sub_cancel_left]
      exact hkept
  | next =>
    apply (upholds_next? h).map Answer.next
    · intro x? t' hout
      cases x? with
      | none => exact ⟨hout, hnone, by intro hsaves; contradiction⟩
      | some x => exact ⟨hout.2, hone hout.1, by intro hsaves; contradiction⟩
    · intro e t' hout
      exact hout
  | seek index =>
    apply (upholds_seek h index).map fun _ => Answer.done
    · intro _ t' hout
      exact ⟨hout, hnone, by intro hsaves; contradiction⟩
    · intro e t' hout
      exact hout
  | truncate size =>
    apply (upholds_truncate h size).map fun _ => Answer.done
    · intro _ t' hout
      exact ⟨hout, hnone, by intro hsaves; contradiction⟩
    · intro e t' hout
      exact hout
  | flush =>
    apply (upholds_flush h).map fun _ => Answer.done
    · intro _ t' hout
      exact ⟨hout.1, hnone, fun _ => hout.2⟩
    · intro e t' hout
      exact hout
  | releaseBlock =>
    apply (upholds_releaseBlock h).map fun _ => Answer.done
    · intro _ t' hout
      obtain ⟨hsaved, hblock⟩ := hout
      have hhonours : t'.Honours p.saved := by
        rw [Honours, hblock]
        exact hsaved
      exact ⟨hhonours, hnone, fun _ => hsaved⟩
    · intro e t' hout
      exact hout

/-- Each call is noted as it was owed. -/
theorem yields_ask (h : t.Honours p) (call : TapeCall τ) :
    Yields ref ((ask call : TapeM τ (Answer τ)) t) fun out =>
      out.2.blockItems = t.blockItems ∧
        ∃ q, p.after .miss t.blockItems ⟨call, out.2.note out.1, out.2.disk⟩ = q ∧
          out.2.Honours q ∧ Pledge.Met p q ⟨call, out.2.note out.1, out.2.disk⟩ := by
  apply Meets.mono (upholds_ask h call)
  intro out hout
  obtain ⟨outcome, t'⟩ := out
  obtain ⟨hitems, hout⟩ := hout
  refine ⟨hitems, _, rfl, ?_⟩
  cases outcome with
  | ok answer =>
    obtain ⟨hhonours, hgiven, hsaves⟩ := hout
    refine ⟨hhonours, hhonours.size_eq, hhonours.offset_eq, hhonours.offset_le, hgiven, ?_⟩
    intro hcall _ _
    have hgranted : p.granted t.blockItems call answer = p.saved := by
      cases call <;> first | rfl | contradiction
    have hstored := (hsaves hcall).all_stored
    rw [← hgranted] at hstored
    exact hstored
  | error e =>
    refine ⟨hout, hout.size_eq, hout.offset_eq, hout.offset_le, ?_, ?_⟩
    · intro k hk
      exact absurd hk (Nat.not_lt_zero k)
    · intro _ answer hanswer
      contradiction

theorem yields_journey (h : t.Honours p) (calls : List (TapeCall τ)) :
    Yields ref (t.journey calls) fun entries =>
      entries.map Entry.call = calls ∧ p.Kept .miss t.blockItems entries := by
  induction calls generalizing t p with
  | nil => exact Meets.pure ⟨rfl, trivial⟩
  | cons call calls ih =>
    unfold journey
    apply (yields_ask h call).bind
    intro out hout
    obtain ⟨outcome, t'⟩ := out
    obtain ⟨hitems, q, hafter, hhonours, hmet⟩ := hout
    have hrest := ih hhonours
    rw [hitems] at hrest
    apply hrest.bind
    intro entries hentries
    obtain ⟨hcalls, hkept⟩ := hentries
    rw [← hafter] at hmet hkept
    apply Meets.pure
    exact ⟨congrArg (call :: ·) hcalls, hmet, hkept⟩

/-- A session on a disk that may refuse anything. Whatever is owed is kept: what is given back is
what was accepted, and what is said to be saved is on the disk. If no call was refused while
records were unsaved in another block than its own, nothing that was accepted is ever lost, and a
file that is said to be saved consists of all records. -/
theorem journey_keeps_pledge (hwidth : 0 < width τ) (site : Site) (disk : Disk) (records : List τ)
    (path : Option String) (blockSize : Nat) (calls : List (TapeCall τ)) :
    (journey (ofDisk { disk with bytes := .ofList (encodeAll records) } path blockSize)
      calls).Ensures site
      (fun entries _ => entries.map Entry.call = calls ∧
        (Pledge.ofRecords records).Kept .miss (itemsPerBlock (width τ) blockSize) entries ∧
        ((Pledge.ofRecords records).Along .miss (itemsPerBlock (width τ) blockSize)
            (Pledge.Spared (itemsPerBlock (width τ) blockSize)) entries →
          (Pledge.ofRecords records).Kept .reach (itemsPerBlock (width τ) blockSize) entries ∧
          (Pledge.ofRecords records).Along .reach (itemsPerBlock (width τ) blockSize)
            (fun p e => ∃ all, (p.after .reach (itemsPerBlock (width τ) blockSize) e).Lists all)
            entries))
      (fun halt _ => site.Excuses halt) := by
  have hstart := honours_ofDisk hwidth disk records path blockSize
  apply ((yields_journey hstart calls).ensures (Site.Like.refl site)).mono
  · intro entries after hout
    obtain ⟨⟨hcalls, hkept⟩, -⟩ := hout
    refine ⟨hcalls, hkept, ?_⟩
    intro hspared
    have hreach := Pledge.Along.reach hspared hkept
    have hwhole : (Pledge.ofRecords records).Whole := by
      intro i hi
      exact Option.isSome_iff_exists.mpr ⟨_, List.getElem?_eq_getElem hi⟩
    exact ⟨hreach, hreach.lists hwhole (Nat.zero_le _)⟩
  · intro halt after hhalt
    exact hhalt

/-- A disk that refuses the second request made to it. The second write is refused when the first
record is to leave the cache, and is tried again. -/
theorem journey_keeps_pledge_words :
    (journey (ofDisk {
        bytes := .ofList (encodeAll ([7#64] : List Word))
        refuse := fun n _ => if n = 1 then some .noSpace else none } none 8 : Tape Word)
      [.write 1#64, .write 2#64, .write 2#64, .seek 0, .readArray 2, .flush]).Ensures
      { ledger := default }
      (fun entries _ => (Pledge.ofRecords ([7#64] : List Word)).Kept .miss 1 entries)
      (fun halt _ => Site.Excuses { ledger := default } halt) := by
  have hjourney := journey_keeps_pledge width_word_pos { ledger := default }
    { refuse := fun n _ => if n = 1 then some .noSpace else none } [7#64] none 8
    [.write 1#64, .write 2#64, .write 2#64, .seek 0, .readArray 2, .flush]
  exact hjourney.mono (fun _ _ h => h.2.1) (fun _ _ h => h)

/-- A device without any room. The second write is refused, because the first record cannot be
saved; afterwards the first record, which was accepted, is gone, and the flush reports that all is
saved. -/
theorem journey_loses_record :
    (journey (ofDisk Disk.full none 8 : Tape Word)
      [.write 1#64, .write 2#64, .seek 0, .read, .flush]).Ensures { ledger := default }
      (fun entries _ => ¬(Pledge.ofRecords []).Kept .reach 1 entries ∧
        entries.map (fun e => (e.call, e.note.answer, e.disk.bytes.size)) =
          [(.write 1#64, .ok .done, 0), (.write 2#64, .error (.disk .noSpace), 0),
            (.seek 0, .ok .done, 0), (.read, .ok (.record 0#64), 0), (.flush, .ok .done, 0)])
      (fun _ _ => False) := by
  have hrun : (match (journey (ofDisk Disk.full none 8 : Tape Word)
      [.write 1#64, .write 2#64, .seek 0, .read, .flush] { ledger := default } :
        Except Halt (List (Entry Word)) × Site) with
      | (.ok entries, _) => entries.map fun e => (e.call, e.note.answer, e.disk.bytes.size)
      | (.error _, _) => []) =
        [(.write 1#64, .ok .done, 0), (.write 2#64, .error (.disk .noSpace), 0),
          (.seek 0, .ok .done, 0), (.read, .ok (.record 0#64), 0), (.flush, .ok .done, 0)] := by
    -- Some of what runs here recurses on a measure, which `rfl` alone does not unfold.
    with_unfolding_all rfl
  unfold Ensures
  split
  · next entries after hout =>
    rw [hout] at hrun
    refine ⟨?_, hrun⟩
    simp only [List.map_eq_cons_iff, List.map_eq_nil_iff, Prod.mk.injEq] at hrun
    obtain ⟨⟨_, ⟨_, _, _, _, _⟩, _⟩, _, rfl, ⟨rfl, rfl, -⟩,
      ⟨_, ⟨_, _, _, _, _⟩, _⟩, _, rfl, ⟨rfl, rfl, -⟩,
      ⟨_, ⟨_, _, _, _, _⟩, _⟩, _, rfl, ⟨rfl, rfl, -⟩,
      ⟨_, ⟨_, _, _, _, _⟩, _⟩, _, rfl, ⟨rfl, rfl, -⟩, -⟩ := hrun
    intro hkept
    obtain ⟨-, -, -, hread, -⟩ := hkept
    have hlost : (0#64 : Word) = 1#64 := hread.given 0 Nat.one_pos 1#64 rfl
    contradiction
  · next h after hout =>
    rw [hout] at hrun
    contradiction

end Tape

end BoundedMerge
