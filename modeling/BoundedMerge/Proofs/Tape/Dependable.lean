import BoundedMerge.Proofs.Site.Guards
import BoundedMerge.Proofs.Tape.Owed

/-!
A tape on a disk that serves whatever is read or written, and may only refuse to be resized. No
call that reads or writes records fails for the disk, and nothing that is written back is refused.
-/

namespace BoundedMerge

open FixedWidth SiteM Work

variable {α β τ : Type}

namespace Tape

def Relies (P : TapeError → Prop) (work : TapeM τ α) : Prop :=
  ∀ t : Tape τ, t.disk.Dependable →
    Loses (work t) fun out => out.2.disk.Dependable ∧ ∀ e, out.1 = .error e → P e

def Blameless (e : TapeError) : Prop := ∀ d, e ≠ .disk d

namespace Relies

variable {P P' : TapeError → Prop}

theorem mono {work : TapeM τ α} (h : Relies P work) (hP : ∀ e, P e → P' e) : Relies P' work := by
  intro t ht
  apply (h t ht).mono
  intro out hout
  exact ⟨hout.1, fun e he => hP e (hout.2 e he)⟩

theorem pure (a : α) : Relies P (pure a : TapeM τ α) :=
  fun _ ht => Loses.pure ⟨ht, fun _ he => nomatch he⟩

theorem throw_bind {e : TapeError} (h : P e) (next : α → TapeM τ β) :
    Relies P (throw e >>= next) := by
  intro t ht
  apply Loses.pure
  refine ⟨ht, ?_⟩
  intro e' he'
  cases he'
  exact h

theorem lift (work : SiteM α) : Relies P (liftM work : TapeM τ α) := by
  intro t ht
  rw [run_liftM]
  exact Loses.after fun a => Loses.pure ⟨ht, fun _ he => nomatch he⟩

theorem get {next : Tape τ → TapeM τ α}
    (hnext : ∀ t : Tape τ, t.disk.Dependable → Relies P (next t)) : Relies P (get >>= next) :=
  fun t ht => hnext t ht t ht

theorem set {t : Tape τ} (ht : t.disk.Dependable) : Relies P (set t : TapeM τ PUnit) :=
  fun _ _ => Loses.pure ⟨ht, fun _ he => nomatch he⟩

theorem bind {work : TapeM τ α} {next : α → TapeM τ β} (hwork : Relies P work)
    (hnext : ∀ a, Relies P (next a)) : Relies P (work >>= next) := by
  intro t ht
  rw [run_bind]
  apply (hwork t ht).bind
  intro out hout
  obtain ⟨outcome, t'⟩ := out
  obtain ⟨ht', hfails⟩ := hout
  cases outcome with
  | ok a => exact hnext a t' ht'
  | error e =>
    apply Loses.pure
    refine ⟨ht', ?_⟩
    intro e' he'
    cases he'
    exact hfails e rfl

theorem modify_last {f : Tape τ → Tape τ} (hf : ∀ t, (f t).disk = t.disk) :
    Relies P (modify f : TapeM τ PUnit) :=
  fun t ht => Loses.pure ⟨(hf t).symm ▸ ht, fun _ he => nomatch he⟩

/-- A change to anything but the disk. -/
theorem modify {f : Tape τ → Tape τ} {work : TapeM τ α} (hwork : Relies P work)
    (hf : ∀ t, (f t).disk = t.disk) : Relies P (do modify f; work) :=
  (modify_last hf).bind fun _ => hwork

end Relies

variable {P : TapeError → Prop}

theorem relies_orRelease {lease : Lease} {work : TapeM τ Unit} (hwork : Relies P work) :
    Relies P (orRelease lease work) := by
  intro t ht
  unfold orRelease
  rw [run_tryCatch]
  apply (hwork t ht).bind
  intro out hout
  obtain ⟨outcome, t'⟩ := out
  cases outcome with
  | ok _ => exact Loses.pure hout
  | error e =>
    simp only [run_bind, run_liftM, bind_assoc, pure_bind]
    exact Loses.after fun _ => Loses.pure hout

theorem relies_withBlock (work : Block τ → α × Block τ) :
    Relies P (withBlock work : TapeM τ α) := by
  unfold withBlock
  apply Relies.get
  intro t _
  cases t.block with
  | none => exact Relies.lift _
  | some b => exact Relies.modify (Relies.pure _) fun _ => rfl

variable [FixedWidth τ]

theorem relies_writeBack (b : Block τ) : Relies P (writeBack b : TapeM τ Unit) := by
  unfold writeBack
  split
  · intro t ht
    simp only [run_bind, run_get, pure_bind, onDisk_eq, ht.write_eq]
    exact Loses.pure ⟨ht.served _ _, fun _ he => nomatch he⟩
  · exact Relies.pure _

theorem relies_fetch (index : Nat) (lease : Lease) :
    Relies P (fetch index lease : TapeM τ Unit) := by
  intro t ht
  unfold fetch
  simp only [run_bind, run_get, pure_bind, onDisk_eq, ht.read_eq, run_modify]
  exact Loses.pure ⟨ht.served _ _, fun _ he => nomatch he⟩

theorem relies_load (index : Nat) : Relies P (load index : TapeM τ Unit) := by
  unfold load
  apply Relies.get
  intro t _
  cases t.block with
  | some b =>
    simp only
    split
    · have hexchange := (relies_writeBack b).bind fun _ => relies_fetch (P := P) index b.lease
      exact Relies.modify (relies_orRelease hexchange) fun _ => rfl
    · exact Relies.pure _
  | none =>
    apply Relies.get
    intro t _
    apply (Relies.lift _).bind
    intro _
    apply (Relies.lift _).bind
    intro lease
    exact relies_orRelease (relies_fetch index lease)

theorem relies_recordAt (index : Nat) : Relies P (recordAt index : TapeM τ τ) := by
  unfold recordAt
  apply Relies.get
  intro t _
  exact (relies_load _).bind fun _ => relies_withBlock _

theorem relies_read : Relies Blameless (read : TapeM τ τ) := by
  unfold read
  apply Relies.get
  intro t _
  split
  · exact Relies.throw_bind nofun _
  · exact (relies_recordAt _).bind fun x => Relies.modify (Relies.pure x) fun _ => rfl

theorem relies_readBack : Relies Blameless (readBack : TapeM τ τ) := by
  unfold readBack
  apply Relies.get
  intro t ht
  split
  · exact Relies.throw_bind nofun _
  · have hmoved : Disk.Dependable ({ t with offset := t.offset - 1 } : Tape τ).disk := ht
    exact (Relies.set hmoved).bind fun _ => relies_recordAt _

theorem relies_next? : Relies Blameless (next? : TapeM τ (Option τ)) := by
  unfold next?
  apply Relies.get
  intro t _
  split
  · rw [map_eq_pure_bind]
    exact relies_read.bind fun x => Relies.pure _
  · exact Relies.pure _

theorem relies_readEach (count : Nat) : Relies Blameless (readEach count : TapeM τ (List τ)) := by
  induction count with
  | zero => exact Relies.pure _
  | succ count ih => exact relies_read.bind fun x => ih.bind fun xs => Relies.pure _

theorem relies_readArray (count : Nat) : Relies Blameless (readArray count : TapeM τ (List τ)) := by
  unfold readArray
  apply Relies.get
  intro t _
  split
  · exact Relies.throw_bind nofun _
  · exact relies_readEach count

theorem relies_write (x : τ) : Relies P (write x : TapeM τ Unit) := by
  unfold write
  apply Relies.get
  intro t _
  apply (relies_load _).bind
  intro _
  exact (relies_withBlock _).bind fun _ => Relies.modify_last fun _ => rfl

theorem relies_writeArray (xs : List τ) : Relies P (writeArray xs : TapeM τ Unit) := by
  induction xs with
  | nil => exact Relies.pure _
  | cons x xs ih => exact (relies_write x).bind fun _ => ih

omit [FixedWidth τ] in
theorem relies_seek (index : Nat) : Relies Blameless (seek index : TapeM τ Unit) := by
  unfold seek
  apply Relies.get
  intro t ht
  split
  · exact Relies.throw_bind nofun _
  · have hmoved : Disk.Dependable ({ t with offset := index } : Tape τ).disk := ht
    exact Relies.set hmoved

theorem relies_flush : Relies P (flush : TapeM τ Unit) := by
  unfold flush
  apply Relies.get
  intro t _
  cases t.block with
  | none => exact Relies.pure _
  | some b => exact (relies_writeBack b).bind fun _ => Relies.modify_last fun _ => rfl

theorem relies_releaseBlock : Relies P (releaseBlock : TapeM τ Unit) := by
  unfold releaseBlock
  apply relies_flush.bind
  intro _
  apply Relies.get
  intro t _
  cases t.block with
  | none => exact Relies.modify (Relies.pure _) fun _ => rfl
  | some b => exact Relies.modify (Relies.lift _) fun _ => rfl

/-- The one request that may be refused is that for another length. -/
theorem relies_truncate (size : Nat) : Relies (fun _ => True) (truncate size : TapeM τ Unit) := by
  unfold truncate
  apply relies_releaseBlock.bind
  intro _
  apply (Relies.lift _).bind
  intro _
  have hresize : Relies (fun _ => True) (onDisk (Disk.resize (size * width τ)) : TapeM τ Unit) := by
    intro t ht
    rw [onDisk_eq]
    exact Loses.pure ⟨ht.resize _, fun _ _ => trivial⟩
  exact hresize.bind fun _ => Relies.modify_last fun _ => rfl

/-- A call that loads records is not refused by the disk. -/
theorem relies_ask (call : TapeCall τ) :
    Relies (fun e => call.loads → Blameless e) (ask call : TapeM τ (Answer τ)) := by
  have hloads {work : TapeM τ (Answer τ)} (h : Relies Blameless work) :
      Relies (fun e => call.loads → Blameless e) work := h.mono fun _ he _ => he
  cases call with
  | write x => exact hloads ((relies_write x).bind fun _ => Relies.pure _)
  | writeArray xs => exact hloads ((relies_writeArray xs).bind fun _ => Relies.pure _)
  | read => exact hloads (relies_read.bind fun _ => Relies.pure _)
  | readBack => exact hloads (relies_readBack.bind fun _ => Relies.pure _)
  | readArray count => exact hloads ((relies_readArray count).bind fun _ => Relies.pure _)
  | next => exact hloads (relies_next?.bind fun _ => Relies.pure _)
  | seek index => exact hloads ((relies_seek index).bind fun _ => Relies.pure _)
  | truncate size =>
    have hany := (relies_truncate (τ := τ) size).bind fun _ => Relies.pure (.done : Answer τ)
    exact hany.mono nofun
  | flush => exact relies_flush.bind fun _ => Relies.pure _
  | releaseBlock => exact relies_releaseBlock.bind fun _ => Relies.pure _

end Tape

end BoundedMerge
