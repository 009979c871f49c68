import BoundedMerge.Proofs.Site.Reports
import BoundedMerge.Proofs.Tape.Budget
import BoundedMerge.Proofs.Tape.Upholds

/-!
How far a tape has got. Whatever its disk holds or refuses, an operation that succeeds moves the
cursor as it should: a record that is read leaves one less, a record that is written moves the end
of a tape that is written at its end, and work on the block moves nothing.
-/

namespace BoundedMerge

open Work

variable {α τ : Type} {stall : Prop}

namespace Tape

def left (t : Tape τ) : Nat := t.size - t.offset

theorem Stays.refl (t : Tape τ) : t.Stays t := ⟨rfl, rfl⟩

theorem Stays.trans {t t' t'' : Tape τ} (h : t.Stays t') (h' : t'.Stays t'') : t.Stays t'' :=
  ⟨h'.1.trans h.1, h'.2.trans h.2⟩

theorem Stays.left_eq {t t' : Tape τ} (h : t.Stays t') : t'.left = t.left := by
  rw [left, left, h.1, h.2]

theorem quiet_onDisk (request : Disk → Except DiskError α × Disk) (t : Tape τ) :
    Quiet stall (onDisk request : TapeM τ α) t fun _ t' => t.Stays t' := by
  unfold Quiet
  rw [onDisk_eq]
  exact SiteM.Quiet.pure fun _ _ => ⟨rfl, rfl⟩

variable [FixedWidth τ]

theorem quiet_writeBack (b : Block τ) (t : Tape τ) :
    Quiet stall (writeBack b : TapeM τ Unit) t fun _ t' => t.Stays t' := by
  unfold writeBack
  split
  · exact Quiet.get.mpr (quiet_onDisk _ t)
  · exact Quiet.pure (Stays.refl t)

theorem quiet_fetch (index : Nat) (lease : Lease) (t : Tape τ) :
    Quiet stall (fetch index lease : TapeM τ Unit) t fun _ t' => t.Stays t' := by
  unfold fetch
  rw [Quiet.get]
  apply (quiet_onDisk _ t).bind
  intro image t' hstays
  exact Quiet.modify_last hstays

omit [FixedWidth τ] in
theorem quiet_orRelease {lease : Lease} {work : TapeM τ Unit} {t : Tape τ}
    {Q : Unit → Tape τ → Prop} (h : Quiet stall work t Q) :
    Quiet stall (orRelease lease work) t Q :=
  h.rethrow fun _ _ => Quiet.after_throw (SiteM.Quiet.release lease)

theorem quiet_load (index : Nat) (t : Tape τ) :
    Quiet stall (load index : TapeM τ Unit) t fun _ t' => t.Stays t' := by
  unfold load
  rw [Quiet.get]
  cases t.block with
  | some b =>
    simp only
    split
    · rw [Quiet.modify]
      apply quiet_orRelease
      apply (quiet_writeBack b _).bind
      intro _ t' hstays
      exact (quiet_fetch index b.lease t').mono fun _ _ hstays' => hstays.trans hstays'
    · exact Quiet.pure (Stays.refl t)
  | none =>
    rw [Quiet.get]
    apply Quiet.lift (SiteM.Quiet.provide _)
    intro _ _
    apply Quiet.lift (SiteM.Quiet.take _)
    intro lease _
    exact quiet_orRelease (quiet_fetch index lease t)

omit [FixedWidth τ] in
theorem quiet_withBlock (work : Block τ → α × Block τ) (t : Tape τ) :
    Quiet stall (withBlock work : TapeM τ α) t fun _ t' => t.Stays t' := by
  unfold withBlock
  rw [Quiet.get]
  cases t.block with
  | some b => exact Quiet.pure ⟨rfl, rfl⟩
  | none => exact Quiet.halt nofun

theorem quiet_recordAt (index : Nat) (t : Tape τ) :
    Quiet stall (recordAt index : TapeM τ τ) t fun _ t' => t.Stays t' := by
  unfold recordAt
  rw [Quiet.get]
  apply (quiet_load _ t).bind
  intro _ t' hstays
  exact (quiet_withBlock _ t').mono fun _ _ hstays' => hstays.trans hstays'

/-- A record that is read was behind the cursor. -/
theorem quiet_read (t : Tape τ) :
    Quiet stall (read : TapeM τ τ) t fun _ t' =>
      t.offset < t.size ∧ t'.size = t.size ∧ t'.offset = t.offset + 1 := by
  unfold read
  rw [Quiet.get]
  split
  · exact Quiet.throw_bind
  · next hin =>
    apply (quiet_recordAt t.offset t).bind
    intro x t' hstays
    rw [Quiet.modify]
    exact Quiet.pure ⟨Nat.lt_of_not_le hin, hstays.1, congrArg (· + 1) hstays.2⟩

/-- The next record is one of those that were left, and there is none only if none was left. -/
theorem quiet_next? (t : Tape τ) :
    Quiet stall (next? : TapeM τ (Option τ)) t fun x t' =>
      t'.left + (if x.isSome then 1 else 0) = t.left ∧ (x = none → t'.left = 0) := by
  unfold next?
  rw [Quiet.get]
  split
  · rw [map_eq_pure_bind]
    apply (quiet_read t).bind
    intro x t' hread
    obtain ⟨hlt, hsize, hoffset⟩ := hread
    refine Quiet.pure ⟨?_, nofun⟩
    simp only [left, hsize, hoffset, Option.isSome_some, if_true]
    omega
  · next hend =>
    have hnone : t.left = 0 := by
      simp only [canRead, decide_eq_true_eq] at hend
      rw [left]
      omega
    exact Quiet.pure ⟨rfl, fun _ => hnone⟩

/-- The tape is written `count` records further, and at its end if it was before. -/
def Grows (t t' : Tape τ) (count : Nat) : Prop :=
  t'.offset = t.offset + count ∧ (t.size = t.offset → t'.size = t'.offset)

omit [FixedWidth τ] in
theorem Stays.grows {t t' : Tape τ} (h : t.Stays t') : t.Grows t' 0 :=
  ⟨h.2, fun hend => by rw [h.1, h.2, hend]⟩

omit [FixedWidth τ] in
theorem Grows.trans {t t' t'' : Tape τ} {m n : Nat} (h : t.Grows t' m) (h' : t'.Grows t'' n) :
    t.Grows t'' (m + n) :=
  ⟨by rw [h'.1, h.1, Nat.add_assoc], fun hend => h'.2 (h.2 hend)⟩

theorem quiet_write (x : τ) (t : Tape τ) :
    Quiet stall (write x : TapeM τ Unit) t fun _ t' => t.Grows t' 1 := by
  unfold write
  rw [Quiet.get]
  apply (quiet_load _ t).bind
  intro _ t₁ hstays
  apply (quiet_withBlock _ t₁).bind
  intro _ t₂ hstays'
  obtain ⟨hsize, hoffset⟩ := hstays.trans hstays'
  refine Quiet.modify_last ⟨congrArg (· + 1) hoffset, fun hend => ?_⟩
  simp only [hsize, hoffset]
  omega

theorem quiet_writeArray (xs : List τ) (t : Tape τ) :
    Quiet stall (writeArray xs : TapeM τ Unit) t fun _ t' => t.Grows t' xs.length := by
  induction xs generalizing t with
  | nil => exact Quiet.pure (Stays.refl t).grows
  | cons x xs ih =>
    apply (quiet_write x t).bind
    intro _ t' hgrows
    apply (ih t').mono
    intro _ t'' hgrows'
    rw [List.length_cons, Nat.add_comm]
    exact hgrows.trans hgrows'

omit [FixedWidth τ] in
theorem quiet_seek (index : Nat) (t : Tape τ) :
    Quiet stall (seek index : TapeM τ Unit) t fun _ t' => t'.size = t.size ∧ t'.offset = index := by
  unfold seek
  rw [Quiet.get]
  split
  · exact Quiet.throw_bind
  · exact Quiet.set_last ⟨rfl, rfl⟩

theorem quiet_flush (t : Tape τ) :
    Quiet stall (flush : TapeM τ Unit) t fun _ t' => t.Stays t' := by
  unfold flush
  rw [Quiet.get]
  cases t.block with
  | none => exact Quiet.pure (Stays.refl t)
  | some b =>
    apply (quiet_writeBack b t).bind
    intro _ t' hstays
    exact Quiet.modify_last hstays

theorem quiet_releaseBlock (t : Tape τ) :
    Quiet stall (releaseBlock : TapeM τ Unit) t fun _ t' => t.Stays t' := by
  unfold releaseBlock
  apply (quiet_flush t).bind
  intro _ t' hstays
  rw [Quiet.get, Quiet.modify]
  cases t'.block with
  | none => exact Quiet.pure hstays
  | some b => exact Quiet.lift_last (SiteM.Quiet.release b.lease) fun _ _ => hstays

/-- What becomes of the last block is no plan. -/
theorem quiet_close (t : Tape τ) : SiteM.Quiet stall t.close fun _ => True := by
  unfold close
  apply (quiet_flush t).bind_run
  intro outcome t' _
  cases hblock : t'.block with
  | none =>
    cases outcome with
    | ok _ =>
      simp only [hblock]
      exact SiteM.Quiet.pure trivial
    | error e =>
      apply (SiteM.Quiet.report rfl).bind
      simp only [hblock]
      exact fun _ _ => SiteM.Quiet.pure trivial
  | some b =>
    have hgive : SiteM.Quiet stall (do b.lease.release; return t'.disk : SiteM Disk)
        fun _ => True := (SiteM.Quiet.release b.lease).bind fun _ _ => SiteM.Quiet.pure trivial
    cases outcome with
    | ok _ =>
      simp only [hblock]
      exact hgive
    | error e =>
      apply (SiteM.Quiet.report rfl).bind
      simp only [hblock]
      exact fun _ _ => hgive

/-- A new tape is empty. -/
theorem quiet_temporary (blockSize : Nat) :
    SiteM.Quiet stall (temporary blockSize : SiteM (Except TapeError (Tape τ))) fun out =>
      ∀ t, out = .ok t → t.size = 0 ∧ t.offset = 0 := by
  unfold temporary
  apply SiteM.Quiet.newFile.bind
  intro file _
  cases file with
  | error e => exact SiteM.Quiet.pure (by simp)
  | ok disk =>
    apply (SiteM.Quiet.assert _ _).bind
    intro _ _
    apply SiteM.Quiet.pure
    intro t ht
    cases ht
    exact ⟨rfl, rfl⟩

end Tape

end BoundedMerge
