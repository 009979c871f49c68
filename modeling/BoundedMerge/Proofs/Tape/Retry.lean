import BoundedMerge.Proofs.Layout.Lawful
import BoundedMerge.Proofs.Site.Guards
import BoundedMerge.Proofs.Tape.Journey
import BoundedMerge.Proofs.Tape.Progress

/-!
What a failed call leaves of the length and the cursor. A block is loaded before anything moves, so
a tape whose call failed stands where it stood and the call can be made again. One call is
different: reading back moves the cursor first, and if the disk refuses the record it does not
return.
-/

namespace BoundedMerge

open FixedWidth SiteM Work

variable {α β τ : Type}

/-- The call moves the cursor by one record at most. -/
def TapeCall.single : TapeCall τ → Bool
  | writeArray _ | readArray _ => false
  | _ => true

namespace Tape

def Stands (size offset : Nat) (t : Tape τ) : Prop := t.size = size ∧ t.offset = offset

/-- The work moves nothing, whether it fails or not. -/
def Still (work : TapeM τ α) : Prop :=
  ∀ size offset, Guards (Stands size offset) (fun _ => False) work

/-- The work moves nothing if it fails. -/
def Careful (work : TapeM τ α) : Prop :=
  ∀ size offset, Guards (Stands size offset) (fun out => ∃ a, out = .ok a) work

section Rules

theorem Still.pure (a : α) : Still (pure a : TapeM τ α) := fun _ _ => Guards.pure a

theorem Still.lift (work : SiteM α) : Still (liftM work : TapeM τ α) := fun _ _ => Guards.lift work

theorem Still.get {next : Tape τ → TapeM τ α} (hnext : ∀ t, Still (next t)) :
    Still (get >>= next) :=
  fun size offset => Guards.get fun t _ => hnext t size offset

theorem Still.bind {work : TapeM τ α} {next : α → TapeM τ β} (hwork : Still work)
    (hnext : ∀ a, Still (next a)) : Still (work >>= next) :=
  fun size offset => (hwork size offset).bind_kept fun a => hnext a size offset

theorem still_modify_last {f : Tape τ → Tape τ} (hf : ∀ t : Tape τ, t.Stays (f t)) :
    Still (modify f : TapeM τ PUnit) := by
  intro size offset
  apply Guards.modify
  intro t ht
  exact ⟨(hf t).1.trans ht.1, (hf t).2.trans ht.2⟩

theorem still_modify {f : Tape τ → Tape τ} {work : TapeM τ α} (hwork : Still work)
    (hf : ∀ t : Tape τ, t.Stays (f t)) : Still (do modify f; work) :=
  (still_modify_last hf).bind fun _ => hwork

theorem Still.careful {work : TapeM τ α} (hwork : Still work) : Careful work := by
  intro size offset t ht
  apply (hwork size offset t ht).mono
  intro out hout
  exact .inr (hout.resolve_left id)

theorem Careful.get {next : Tape τ → TapeM τ α} (hnext : ∀ t, Careful (next t)) :
    Careful (get >>= next) :=
  fun size offset => Guards.get fun t _ => hnext t size offset

/-- After work that moves nothing. -/
theorem Still.bind_careful {work : TapeM τ α} {next : α → TapeM τ β} (hwork : Still work)
    (hnext : ∀ a, Careful (next a)) : Careful (work >>= next) :=
  fun size offset => (hwork size offset).bind_kept fun a => hnext a size offset

theorem Careful.throw_bind (e : TapeError) (next : α → TapeM τ β) :
    Careful (throw e >>= next) :=
  fun _ _ => Guards.throw e

/-- Work that cannot fail may move what it likes. -/
theorem Careful.of_raises {work : TapeM τ α} (hwork : Raises (fun _ => False) work) :
    Careful work := by
  intro size offset
  apply Guards.of_raises hwork
  intro out hout
  cases out with
  | ok a => exact ⟨a, rfl⟩
  | error e => exact (hout e rfl).elim

def FailsAt (t : Tape τ) (work : TapeM τ α) (size offset : Nat) : Prop :=
  Loses (work t) fun out => ∀ e, out.1 = .error e → out.2.Stands size offset

theorem Careful.failsAt {work : TapeM τ α} (hwork : Careful work) {t : Tape τ}
    {size offset : Nat} (ht : t.Stands size offset) : t.FailsAt work size offset := by
  apply (hwork size offset t ht).mono
  intro out hout e he
  rcases hout with hok | hstands
  · obtain ⟨a, ha⟩ := hok
    rw [ha] at he
    contradiction
  · exact hstands

/-- What is done with the result of the work cannot fail. -/
theorem FailsAt.map {t : Tape τ} {work : TapeM τ α} {size offset : Nat}
    (h : t.FailsAt work size offset) (f : α → β) :
    t.FailsAt (do return f (← work)) size offset := by
  unfold FailsAt
  rw [run_bind]
  apply h.bind
  intro out hout
  obtain ⟨outcome, t'⟩ := out
  cases outcome with
  | ok a => exact Loses.pure fun _ he => nomatch he
  | error e => exact Loses.pure fun e' _ => hout e rfl

end Rules

theorem still_onDisk (request : Disk → Except DiskError α × Disk) :
    Still (onDisk request : TapeM τ α) := by
  intro size offset t ht
  rw [onDisk_eq]
  exact Loses.pure (.inr ht)

theorem still_orRelease {lease : Lease} {work : TapeM τ Unit} (hwork : Still work) :
    Still (orRelease lease work) :=
  fun size offset => (hwork size offset).rethrow

theorem still_withBlock (work : Block τ → α × Block τ) : Still (withBlock work : TapeM τ α) := by
  unfold withBlock
  apply Still.get
  intro t
  cases t.block with
  | none => exact Still.lift _
  | some b => exact fun _ _ t ht => Loses.pure (.inr ht)

variable [FixedWidth τ]

theorem still_writeBack (b : Block τ) : Still (writeBack b : TapeM τ Unit) := by
  unfold writeBack
  split
  · exact Still.get fun t => still_onDisk _
  · exact Still.pure _

theorem still_fetch (index : Nat) (lease : Lease) : Still (fetch index lease : TapeM τ Unit) := by
  unfold fetch
  apply Still.get
  intro t
  apply (still_onDisk _).bind
  intro image
  exact still_modify_last fun t => ⟨rfl, rfl⟩

theorem still_load (index : Nat) : Still (load index : TapeM τ Unit) := by
  unfold load
  apply Still.get
  intro t
  cases t.block with
  | some b =>
    simp only
    split
    · have hexchange := (still_writeBack b).bind fun _ => still_fetch index b.lease
      apply still_modify (still_orRelease hexchange)
      intro t
      exact ⟨rfl, rfl⟩
    · exact Still.pure _
  | none =>
    apply Still.get
    intro t
    apply (Still.lift _).bind
    intro _
    apply (Still.lift _).bind
    intro lease
    exact still_orRelease (still_fetch index lease)

theorem still_recordAt (index : Nat) : Still (recordAt index : TapeM τ τ) := by
  unfold recordAt
  apply Still.get
  intro t
  exact (still_load _).bind fun _ => still_withBlock _

theorem still_flush : Still (flush : TapeM τ Unit) := by
  unfold flush
  apply Still.get
  intro t
  cases t.block with
  | none => exact Still.pure _
  | some b => exact (still_writeBack b).bind fun _ => still_modify_last fun t => ⟨rfl, rfl⟩

theorem still_releaseBlock : Still (releaseBlock : TapeM τ Unit) := by
  unfold releaseBlock
  apply still_flush.bind
  intro _
  apply Still.get
  intro t
  have hforget (t : Tape τ) : t.Stays { t with block := none } := ⟨rfl, rfl⟩
  cases t.block with
  | none => exact still_modify (Still.pure _) hforget
  | some b => exact still_modify (Still.lift _) hforget

theorem careful_read : Careful (read : TapeM τ τ) := by
  unfold read
  apply Careful.get
  intro t
  split
  · exact Careful.throw_bind _ _
  · apply (still_recordAt t.offset).bind_careful
    intro x
    exact Careful.of_raises ((Raises.modify _).bind fun _ => Raises.pure x)

theorem failsAt_next? {size offset : Nat} {t : Tape τ} (ht : t.Stands size offset) :
    t.FailsAt next? size offset := by
  unfold next?
  have hread : t.FailsAt (some <$> read) size offset := by
    rw [map_eq_pure_bind]
    exact (careful_read.failsAt ht).map some
  by_cases hmore : t.canRead = true
  · unfold FailsAt
    simp only [run_bind, run_get, pure_bind, if_pos hmore]
    exact hread
  · unfold FailsAt
    simp only [run_bind, run_get, pure_bind, if_neg hmore]
    exact Loses.pure fun _ he => nomatch he

/-- The cursor moves before the record is read. -/
theorem failsAt_readBack {size offset : Nat} {t : Tape τ} (ht : t.Stands size offset) :
    t.FailsAt readBack size (offset - 1) := by
  obtain ⟨hsize, hoffset⟩ := ht
  unfold FailsAt readBack
  by_cases hstart : t.offset = 0
  · simp only [run_bind, run_get, pure_bind, if_pos hstart]
    apply Loses.pure
    intro e _
    rw [← hoffset, hstart]
    exact ⟨hsize, hstart⟩
  · simp only [run_bind, run_get, pure_bind, if_neg hstart, run_set]
    have hback : Stands size (offset - 1) { t with offset := t.offset - 1 } :=
      ⟨hsize, congrArg (· - 1) hoffset⟩
    exact (still_recordAt (t.offset - 1)).careful.failsAt hback

theorem careful_write (x : τ) : Careful (write x : TapeM τ Unit) := by
  unfold write
  apply Careful.get
  intro t
  apply (still_load _).bind_careful
  intro _
  apply (still_withBlock _).bind_careful
  intro _
  exact Careful.of_raises (Raises.modify _)

omit [FixedWidth τ] in
theorem careful_seek (index : Nat) : Careful (seek index : TapeM τ Unit) := by
  unfold seek
  apply Careful.get
  intro t
  split
  · exact Careful.throw_bind _ _
  · exact Careful.of_raises (Raises.set _)

theorem careful_truncate (size : Nat) : Careful (truncate size : TapeM τ Unit) := by
  unfold truncate
  apply still_releaseBlock.bind_careful
  intro _
  apply (Still.lift _).bind_careful
  intro _
  apply (still_onDisk _).bind_careful
  intro _
  exact Careful.of_raises (Raises.modify _)

/-- A call that fails leaves the tape where it stood, only that reading back has moved it. -/
theorem failsAt_ask (call : TapeCall τ) (hsingle : call.single) {size offset : Nat} {t : Tape τ}
    (ht : t.Stands size offset) : t.FailsAt (ask call) size (call.origin offset) := by
  cases call with
  | write x => exact ((careful_write x).failsAt ht).map fun _ => Answer.done
  | read => exact (careful_read.failsAt ht).map Answer.record
  | readBack => exact (failsAt_readBack ht).map Answer.record
  | next => exact (failsAt_next? ht).map Answer.next
  | seek index => exact ((careful_seek index).failsAt ht).map fun _ => Answer.done
  | truncate size => exact ((careful_truncate size).failsAt ht).map fun _ => Answer.done
  | flush => exact (still_flush.careful.failsAt ht).map fun _ => Answer.done
  | releaseBlock => exact (still_releaseBlock.careful.failsAt ht).map fun _ => Answer.done
  | writeArray xs => contradiction
  | readArray count => contradiction

end Tape

/-- The entry is as that of a failed call is: the tape is as long as before and the cursor stands
where it stood, but one record before that if the record there was to be read back. -/
structure Entry.Fails (size offset : Nat) (e : Entry τ) : Prop where
  size_eq : e.note.size = size
  offset_eq : e.call ≠ .readBack → e.note.offset = offset
  offset_readBack : e.call = .readBack → e.note.offset = offset - 1

/-- Each entry whose call is one for one record, or for none, is as `Entry.Fails` says if its
answer is an error. The first call finds a tape of this length, with the cursor there. -/
def FailInPlace (size offset : Nat) : List (Entry τ) → Prop
  | [] => True
  | e :: entries =>
    (e.call.single → ∀ error, e.note.answer = .error error → e.Fails size offset) ∧
      FailInPlace e.note.size e.note.offset entries

namespace Tape

variable [FixedWidth τ]

theorem loses_journey (t : Tape τ) (calls : List (TapeCall τ)) :
    Loses (t.journey calls) fun entries =>
      entries.map Entry.call = calls ∧ FailInPlace t.size t.offset entries := by
  induction calls generalizing t with
  | nil => exact Loses.pure ⟨rfl, trivial⟩
  | cons call calls ih =>
    unfold journey
    have hask : Loses ((ask call : TapeM τ (Answer τ)) t) fun out => call.single →
        ∀ e, out.1 = .error e → out.2.Stands t.size (call.origin t.offset) := by
      by_cases hsingle : call.single = true
      · exact (failsAt_ask call hsingle ⟨rfl, rfl⟩).mono fun out hout _ => hout
      · exact fun site => (ensures_trivial _ site).mono (fun _ _ _ h => absurd h hsingle)
          fun _ _ h => h
    apply hask.bind
    intro out hout
    obtain ⟨outcome, t'⟩ := out
    apply (ih t').bind
    intro entries hentries
    apply Loses.pure
    refine ⟨congrArg (call :: ·) hentries.1, ?_, hentries.2⟩
    intro hsingle error herror
    obtain ⟨hsize, hoffset⟩ := hout hsingle error herror
    refine ⟨hsize, ?_, ?_⟩
    · intro hcall
      cases call <;> first | exact hoffset | contradiction
    · intro hcall
      cases hcall
      exact hoffset

/-- A session with any tape, whatever its disk refuses: a call for one record, or for none, that
fails has moved nothing and can be made again. The exception is a record to be read back that the
disk refuses; the cursor stands before it already. -/
theorem journey_fails_in_place (site : Site) (t : Tape τ) (calls : List (TapeCall τ)) :
    (t.journey calls).Ensures site
      (fun entries _ => entries.map Entry.call = calls ∧ FailInPlace t.size t.offset entries)
      (fun _ _ => True) :=
  loses_journey t calls site

/-- A device without any room, and two records of which the second is unsaved. The first cannot be
read back, because the second one would have to be saved, but the cursor stands before it
afterwards. -/
theorem journey_slips_back :
    (journey (ofDisk Disk.full none 8 : Tape Word)
      [.write 1#64, .write 2#64, .write 2#64, .seek 1, .readBack]).Ensures { ledger := default }
      (fun entries _ =>
        entries.map (fun e => (e.call, e.note.answer, e.note.size, e.note.offset)) =
          [(.write 1#64, .ok .done, 1, 1), (.write 2#64, .error (.disk .noSpace), 1, 1),
            (.write 2#64, .ok .done, 2, 2), (.seek 1, .ok .done, 2, 1),
            (.readBack, .error (.disk .noSpace), 2, 0)])
      (fun _ _ => False) := by
  unfold Ensures
  -- Some of what runs here recurses on a measure, which `rfl` alone does not unfold.
  with_unfolding_all rfl

end Tape

end BoundedMerge
