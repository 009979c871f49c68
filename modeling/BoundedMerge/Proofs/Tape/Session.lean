import BoundedMerge.Proofs.Layout.Lawful
import BoundedMerge.Proofs.Tape.Turns

/-!
Sessions with a tape. A session is a list of calls, and after each of them the answer, the length,
the cursor and what the tape says about its ends are noted. A session with a new tape goes as the
session with an empty reel does, for every size of a block, so neither that size nor a flush
or a release of the block in between can be told from the notes of the other calls.
-/

namespace BoundedMerge

open FixedWidth SiteM

variable {τ : Type}

inductive TapeCall (τ : Type)
  | write (x : τ)
  | writeArray (xs : List τ)
  | read
  | readBack
  | readArray (count : Nat)
  | next
  | seek (index : Nat)
  | truncate (size : Nat)
  | flush
  | releaseBlock

inductive Answer (τ : Type)
  | done
  | record (x : τ)
  | records (xs : List τ)
  | next (x : Option τ)

structure Note (τ : Type) where
  answer : Except TapeError (Answer τ)
  size : Nat
  offset : Nat
  canRead : Bool
  canReadBack : Bool

namespace TapeCall

/-- The call asks for something that can be seen. -/
def visible : TapeCall τ → Bool
  | flush | releaseBlock => false
  | _ => true

end TapeCall

namespace Reel

variable [FixedWidth τ]

def ask (r : Reel τ) : TapeCall τ → Except TapeError (Answer τ) × Reel τ
  | .write x => (.ok .done, r.write x)
  | .writeArray xs => (.ok .done, r.writeArray xs)
  | .read => (r.read.1.map .record, r.read.2)
  | .readBack => (r.readBack.1.map .record, r.readBack.2)
  | .readArray count => ((r.readArray count).1.map .records, (r.readArray count).2)
  | .next => (r.next?.1.map .next, r.next?.2)
  | .seek index => ((r.seek index).1.map fun _ => .done, (r.seek index).2)
  | .truncate size => (.ok .done, r.truncate size)
  | .flush | .releaseBlock => (.ok .done, r)

omit [FixedWidth τ] in
def note (answer : Except TapeError (Answer τ)) (r : Reel τ) : Note τ where
  answer
  size := r.records.length
  offset := r.offset
  canRead := r.offset < r.records.length
  canReadBack := 0 < r.offset

def session (r : Reel τ) : List (TapeCall τ) → List (TapeCall τ × Note τ)
  | [] => []
  | call :: calls => (call, (r.ask call).2.note (r.ask call).1) :: (r.ask call).2.session calls

theorem ask_of_not_visible (r : Reel τ) (call : TapeCall τ) (h : call.visible = false) :
    (r.ask call).2 = r := by
  cases call <;> first | rfl | contradiction

/-- Calls that cannot be seen may be left out. -/
theorem session_visible (r : Reel τ) (calls : List (TapeCall τ)) :
    (r.session calls).filter (·.1.visible) = r.session (calls.filter (·.visible)) := by
  induction calls generalizing r with
  | nil => rfl
  | cons call calls ih =>
    by_cases hvisible : call.visible = true
    · rw [session, List.filter_cons, List.filter_cons, if_pos hvisible, if_pos hvisible, ih]
      rfl
    · rw [session, List.filter_cons, List.filter_cons, if_neg hvisible, if_neg hvisible, ih,
        ask_of_not_visible r call (by simpa using hvisible)]

theorem session_offset_le (r : Reel τ) (calls : List (TapeCall τ)) :
    ∀ entry ∈ r.session calls, entry.2.offset ≤ entry.2.size := by
  induction calls generalizing r with
  | nil => simp [session]
  | cons call calls ih =>
    intro entry hentry
    rcases List.mem_cons.mp hentry with rfl | hrest
    · exact (r.ask call).2.offset_le
    · exact ih _ entry hrest

end Reel

namespace Tape

variable [FixedWidth τ]

def ask : TapeCall τ → TapeM τ (Answer τ)
  | .write x => do write x; return .done
  | .writeArray xs => do writeArray xs; return .done
  | .read => return .record (← read)
  | .readBack => return .record (← readBack)
  | .readArray count => return .records (← readArray count)
  | .next => return .next (← next?)
  | .seek index => do seek index; return .done
  | .truncate size => do truncate size; return .done
  | .flush => do flush; return .done
  | .releaseBlock => do releaseBlock; return .done

omit [FixedWidth τ] in
def note (answer : Except TapeError (Answer τ)) (t : Tape τ) : Note τ where
  answer
  size := t.size
  offset := t.offset
  canRead := t.canRead
  canReadBack := t.canReadBack

/-- Makes the calls one after the other, also after one that failed. -/
def session (t : Tape τ) : List (TapeCall τ) → SiteM (List (TapeCall τ × Note τ))
  | [] => return []
  | call :: calls => do
    let (answer, t) ← (ask call : TapeM τ (Answer τ)) t
    return (call, t.note answer) :: (← t.session calls)

def trial (blockSize : Nat) (calls : List (TapeCall τ)) :
    SiteM (Except TapeError (List (TapeCall τ × Note τ))) := do
  match ← temporary blockSize with
  | .error e => return .error e
  | .ok t => return .ok (← t.session calls)

variable {ref : Site} {t : Tape τ} {r : Reel τ}

theorem Turns.map {α β : Type} {work : TapeM τ α} {result : Except TapeError α} (f : α → β)
    (h : t.Turns ref work result r) :
    t.Turns ref (do return f (← work)) (result.map f) r := by
  refine Meets.run_bind h ?_ ?_
  · rintro a t' ⟨rfl, hout⟩
    exact Meets.pure ⟨rfl, hout⟩
  · rintro e t' ⟨rfl, hout⟩
    exact ⟨rfl, hout⟩

omit [FixedWidth τ] in
theorem Shows.note [FixedWidth τ] (h : t.Shows r) (answer : Except TapeError (Answer τ)) :
    t.note answer = r.note answer := by
  simp only [Tape.note, Reel.note, canRead, canReadBack, h.size_eq, h.offset_eq]

variable [LawfulFixedWidth τ]

theorem turns_ask (h : t.Shows r) (call : TapeCall τ) :
    t.Turns ref (ask call) (r.ask call).1 (r.ask call).2 := by
  cases call with
  | write x => exact (turns_write h x).map fun _ => Answer.done
  | writeArray xs => exact (turns_writeArray h xs).map fun _ => Answer.done
  | read => exact (turns_read h).map Answer.record
  | readBack => exact (turns_readBack h).map Answer.record
  | readArray count => exact (turns_readArray h count).map Answer.records
  | next => exact (turns_next? h).map Answer.next
  | seek index => exact (turns_seek h index).map fun _ => Answer.done
  | truncate size => exact (turns_truncate h size).map fun _ => Answer.done
  | flush => exact (turns_flush h).map fun _ => Answer.done
  | releaseBlock => exact (turns_releaseBlock h).map fun _ => Answer.done

theorem yields_session (h : t.Shows r) (calls : List (TapeCall τ)) :
    Yields ref (t.session calls) fun notes => notes = r.session calls := by
  induction calls generalizing t r with
  | nil => exact Meets.pure rfl
  | cons call calls ih =>
    unfold session
    refine Meets.bind (turns_ask h call) ?_
    rintro ⟨answer, t'⟩ ⟨hanswer, hshows, _⟩
    simp only at hanswer hshows ⊢
    refine (ih hshows).bind fun notes hnotes => Meets.pure ?_
    rw [hnotes, hshows.note, hanswer]
    rfl

theorem yields_trial (hwidth : 0 < width τ) (hscratch : ref.scratch.Sound) (blockSize : Nat)
    (calls : List (TapeCall τ)) :
    Yields ref (trial blockSize calls) fun out => out = .ok (Reel.empty.session calls) := by
  unfold trial
  refine (yields_temporary hwidth hscratch blockSize).bind ?_
  rintro _ ⟨t, rfl, hshows, -⟩
  exact (yields_session hshows calls).bind fun notes hnotes => Meets.pure (by rw [hnotes])

/-- A session with a new tape is noted as the session with an empty reel is, whatever the size of
a block. The cursor is never past the end, and the notes of the visible calls are the same in every
session that makes these visible calls. -/
theorem trial_agrees_with_reel (hwidth : 0 < width τ) (site : Site)
    (hscratch : site.scratch.Sound) (blockSize : Nat) (calls : List (TapeCall τ)) :
    (trial blockSize calls).Ensures site
      (fun out _ => out = .ok (Reel.empty.session calls)) (fun halt _ => site.Excuses halt) ∧
    (∀ entry ∈ Reel.empty.session calls, entry.2.offset ≤ entry.2.size) ∧
    ∀ (blockSize' : Nat) (calls' : List (TapeCall τ)),
      calls'.filter (·.visible) = calls.filter (·.visible) →
      (trial blockSize' calls').Ensures site
        (fun out _ => ∃ notes, out = .ok notes ∧
          notes.filter (·.1.visible) = (Reel.empty.session calls).filter (·.1.visible))
        (fun halt _ => site.Excuses halt) := by
  have hsession (blockSize : Nat) (calls : List (TapeCall τ)) :=
    (yields_trial hwidth hscratch blockSize calls).ensures (Site.Like.refl site)
  refine ⟨?_, Reel.session_offset_le _ _, fun blockSize' calls' hvisible => ?_⟩
  · exact (hsession blockSize calls).mono (fun _ _ h => h.1) (fun _ _ h => h)
  · refine (hsession blockSize' calls').mono (fun out _ h => ⟨_, h.1, ?_⟩) (fun _ _ h => h)
    rw [Reel.session_visible, Reel.session_visible, hvisible]

/-- A session with words in blocks of two, which leave and enter the cache on the way. -/
theorem trial_agrees_with_reel_words :
    (trial 20 (τ := (Layout.scalar (.unsigned .w64)).Value) [.writeArray [1#64, 2#64, 3#64],
      .readBack, .flush, .truncate 1, .truncate 4, .readArray 4, .next, .seek 9]).Ensures
      { ledger := default }
      (fun out _ => out = .ok (Reel.empty.session [.writeArray [1#64, 2#64, 3#64],
        .readBack, .flush, .truncate 1, .truncate 4, .readArray 4, .next, .seek 9]))
      (fun halt _ => Site.Excuses { ledger := default } halt) := by
  have hwidth : 0 < width (Layout.scalar (.unsigned .w64)).Value := Nat.succ_pos 7
  exact (trial_agrees_with_reel hwidth { ledger := default } Scratch.sound_reliable 20 _).1

end Tape

end BoundedMerge
