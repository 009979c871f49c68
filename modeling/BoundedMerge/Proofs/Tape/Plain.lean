import BoundedMerge.Proofs.Site.Plain
import BoundedMerge.Proofs.Tape.Upholds

/-!
Tapes whose work is plain. What a tape asks of the site is the memory of its block and nothing
else; its disk is a part of the tape.
-/

namespace BoundedMerge

open Work

variable {α τ : Type}

namespace Tape

theorem plain_onDisk (request : Disk → Except DiskError α × Disk) :
    Plain (onDisk request : TapeM τ α) := by
  intro t
  rw [onDisk_eq]
  exact SiteM.Plain.pure _

theorem plain_withBlock (work : Block τ → α × Block τ) : Plain (withBlock work : TapeM τ α) := by
  unfold withBlock
  apply Plain.get
  intro t
  cases t.block with
  | none => exact Plain.lift (SiteM.Plain.halt _)
  | some b => exact fun _ => SiteM.Plain.pure _

variable [FixedWidth τ]

theorem plain_writeBack (b : Block τ) : Plain (writeBack b : TapeM τ Unit) := by
  unfold writeBack
  split
  · exact Plain.get fun t => plain_onDisk _
  · exact Plain.pure _

theorem plain_fetch (index : Nat) (lease : Lease) : Plain (fetch index lease : TapeM τ Unit) := by
  unfold fetch
  apply Plain.get
  intro t
  exact (plain_onDisk _).bind fun image => Plain.modify _

theorem plain_load (index : Nat) : Plain (load index : TapeM τ Unit) := by
  unfold load
  apply Plain.get
  intro t
  cases t.block with
  | some b =>
    simp only
    split
    · apply (Plain.modify _).bind
      intro _
      have hexchange := (plain_writeBack b).bind fun _ => plain_fetch index b.lease
      exact hexchange.rethrow (SiteM.Plain.release b.lease)
    · exact Plain.pure _
  | none =>
    apply Plain.get
    intro t
    apply (Plain.lift (SiteM.Plain.provide _)).bind
    intro _
    apply (Plain.lift (SiteM.Plain.take _)).bind
    intro lease
    exact (plain_fetch index lease).rethrow (SiteM.Plain.release lease)

theorem plain_read : Plain (read : TapeM τ τ) := by
  have hrecord (index : Nat) : Plain (recordAt index : TapeM τ τ) := by
    unfold recordAt
    apply Plain.get
    intro t
    exact (plain_load _).bind fun _ => plain_withBlock _
  unfold read
  apply Plain.get
  intro t
  split
  · exact Plain.throw _
  · apply (hrecord t.offset).bind
    intro x
    exact (Plain.modify _).bind fun _ => Plain.pure x

theorem plain_next? : Plain (next? : TapeM τ (Option τ)) := by
  unfold next?
  apply Plain.get
  intro t
  split
  · rw [map_eq_pure_bind]
    exact plain_read.bind fun x => Plain.pure (some x)
  · exact Plain.pure none

theorem plain_write (x : τ) : Plain (write x : TapeM τ Unit) := by
  unfold write
  apply Plain.get
  intro t
  apply (plain_load _).bind
  intro _
  apply (plain_withBlock _).bind
  intro _
  exact Plain.modify _

theorem plain_flush : Plain (flush : TapeM τ Unit) := by
  unfold flush
  apply Plain.get
  intro t
  cases t.block with
  | none => exact Plain.pure _
  | some b => exact (plain_writeBack b).bind fun _ => Plain.modify _

theorem plain_releaseBlock : Plain (releaseBlock : TapeM τ Unit) := by
  unfold releaseBlock
  apply plain_flush.bind
  intro _
  apply Plain.get
  intro t
  apply (Plain.modify _).bind
  intro _
  cases t.block with
  | none => exact Plain.pure _
  | some b => exact Plain.lift (SiteM.Plain.release b.lease)

theorem plain_close (t : Tape τ) : SiteM.Plain t.close := by
  unfold close
  apply (plain_flush t).bind
  intro out
  obtain ⟨outcome, t'⟩ := out
  simp only
  cases t'.block with
  | none =>
    cases outcome with
    | ok _ => exact SiteM.Plain.pure _
    | error e => exact (SiteM.Plain.report _).bind fun _ => SiteM.Plain.pure _
  | some b =>
    have hgive : SiteM.Plain (do b.lease.release; return t'.disk : SiteM Disk) :=
      (SiteM.Plain.release b.lease).bind fun _ => SiteM.Plain.pure _
    cases outcome with
    | ok _ => exact hgive
    | error e => exact (SiteM.Plain.report _).bind fun _ => hgive

end Tape

end BoundedMerge
