import BoundedMerge.Proofs.Site.Settles
import BoundedMerge.Proofs.Tape.Budget
import BoundedMerge.Proofs.Tape.Session
import BoundedMerge.Proofs.Tape.Upholds

/-!
The memory of a tape. A tape holds the block that it caches, and the lease of the block is for its
size. Every call leaves it so, on any disk and with any limit: where a block leaves the cache
because it cannot be written back, or because another one cannot be read, its lease is given back.
-/

namespace BoundedMerge

open SiteM Holder

variable {α τ : Type} [FixedWidth τ]

namespace Tape

instance : Holder (Tape τ) where
  held t := if t.block.isSome then t.blockSize else 0
  Paid t := ∀ b ∈ t.block, b.lease.bytes = t.blockSize

variable {t : Tape τ} {b : Block τ}

theorem held_block (hpaid : Paid t) (h : t.block = some b) : Holder.held t = b.lease.bytes := by
  rw [hpaid b h]
  simp only [Holder.held, h, Option.isSome_some, if_true]

theorem held_vacant (h : t.block = none) : Holder.held t = 0 := by
  simp only [Holder.held, h, Option.isSome_none, Bool.false_eq_true, if_false]

theorem paid_vacant (h : t.block = none) : Paid t := by
  intro b hb
  rw [h] at hb
  contradiction

section Pure

/-- To write a block back is between the tape and its disk. -/
theorem writeBack_eq_pure (b : Block τ) (t : Tape τ) : ∃ outcome disk,
    (writeBack b : TapeM τ Unit) t =
      (pure (outcome, { t with disk }) : SiteM (Except TapeError Unit × Tape τ)) := by
  unfold writeBack
  simp only [Work.run_bind, Work.run_ite, Work.run_get, pure_bind, onDisk_eq]
  split
  · exact ⟨_, _, rfl⟩
  · exact ⟨_, t.disk, rfl⟩

theorem fetch_eq_pure (index : Nat) (lease : Lease) (t : Tape τ) : ∃ out,
    (fetch index lease : TapeM τ Unit) t =
      (pure out : SiteM (Except TapeError Unit × Tape τ)) ∧ t.Fetches lease out := by
  unfold fetch
  simp only [Work.run_bind, Work.run_get, pure_bind, onDisk_eq]
  cases (Disk.read (index * t.blockSize) t.blockSize t.disk).1 with
  | error e => exact ⟨_, rfl, _, rfl⟩
  | ok image => exact ⟨_, rfl, _, _, rfl, rfl⟩

/-- One block leaves the cache, and another one takes its lease over. -/
theorem exchange_eq_pure (index : Nat) (b : Block τ) (t : Tape τ) : ∃ out,
    (do writeBack b; fetch index b.lease : TapeM τ Unit) t =
      (pure out : SiteM (Except TapeError Unit × Tape τ)) ∧ t.Fetches b.lease out := by
  obtain ⟨outcome, disk, hback⟩ := writeBack_eq_pure b t
  rw [Work.run_bind, hback, pure_bind]
  cases outcome with
  | error e => exact ⟨_, rfl, disk, rfl⟩
  | ok _ =>
    obtain ⟨out, hrun, disk', hout⟩ := fetch_eq_pure index b.lease { t with disk }
    exact ⟨out, hrun, disk', hout⟩

end Pure

/-- The lease is that of the block which is then cached, or it was given back. -/
theorem settles_orRelease {lease : Lease} {work : TapeM τ Unit} (hblock : t.block = none)
    (hlease : lease.bytes = t.blockSize) {out : Except TapeError Unit × Tape τ}
    (hrun : work t = (pure out : SiteM (Except TapeError Unit × Tape τ)))
    (hfetches : t.Fetches lease out) :
    Settles lease.bytes (orRelease lease work t) (fun out => Paid out.2) fun out =>
      Holder.held out.2 := by
  obtain ⟨outcome, t'⟩ := out
  obtain ⟨disk, hout⟩ := hfetches
  unfold orRelease
  rw [Work.run_tryCatch, hrun, pure_bind]
  cases outcome with
  | ok _ =>
    obtain ⟨b, rfl, rfl⟩ := hout
    have hpaid : Paid { t with disk, block := some b } := by
      intro b' hb'
      obtain rfl := Option.some.inj hb'
      exact hlease
    exact Settles.pure hpaid (held_block hpaid rfl).symm
  | error e =>
    obtain rfl := hout
    simp only [Work.run_bind, Work.run_liftM, bind_assoc, pure_bind]
    refine (Settles.release lease).bind fun _ _ => ?_
    exact Settles.pure (paid_vacant hblock) (held_vacant hblock).symm

theorem balances_load (index : Nat) : Balances (load index : TapeM τ Unit) := by
  apply Balances.of_settles
  intro t ht
  unfold load
  simp only [Work.run_bind, Work.run_get, pure_bind]
  cases hblock : t.block with
  | some b =>
    by_cases hindex : b.index ≠ index
    · rw [held_block ht hblock]
      simp only [if_pos hindex, Work.run_bind, Work.run_modify, pure_bind]
      obtain ⟨out, hrun, hfetches⟩ := exchange_eq_pure index b { t with block := none }
      exact settles_orRelease rfl (ht b hblock) hrun hfetches
    · simp only [if_neg hindex]
      exact Settles.pure ht rfl
  | none =>
    rw [held_vacant hblock]
    simp only [Work.run_bind, Work.run_get, Work.run_liftM, bind_assoc, pure_bind]
    refine (Settles.provide _).bind fun _ _ => ?_
    refine (Settles.take _).bind fun lease hlease => ?_
    obtain ⟨out, hrun, hfetches⟩ := fetch_eq_pure index lease t
    rw [← hlease]
    exact settles_orRelease hblock hlease hrun hfetches

theorem balances_withBlock {work : Block τ → α × Block τ}
    (hwork : ∀ b, (work b).2.lease = b.lease) : Balances (withBlock work : TapeM τ α) := by
  apply Balances.of_settles
  intro t ht
  unfold withBlock
  simp only [Work.run_bind, Work.run_get, pure_bind]
  cases hblock : t.block with
  | none =>
    simp only [Work.run_liftM]
    exact Settles.halt_bind _
  | some b =>
    simp only [Work.run_bind, Work.run_modify, pure_bind]
    have hpaid : Paid { t with block := some (work b).2 } := by
      intro b' hb'
      obtain rfl := Option.some.inj hb'
      rw [hwork b]
      exact ht b hblock
    refine Settles.pure hpaid ?_
    rw [held_block ht hblock, held_block hpaid rfl, hwork b]

theorem balances_recordAt (index : Nat) : Balances (recordAt index : TapeM τ τ) :=
  Balances.get fun _ => (balances_load _).bind fun _ => balances_withBlock fun _ => rfl

/-- Neither the block nor its size is touched. -/
theorem balances_modify {f : Tape τ → Tape τ} (hitems : ∀ t, (f t).blockItems = t.blockItems)
    (hblock : ∀ t, (f t).block = t.block) : Balances (modify f : TapeM τ Unit) := by
  apply Balances.modify
  intro t ht
  refine ⟨?_, ?_⟩
  · simpa only [Paid, blockSize, hitems, hblock] using ht
  · simp only [Holder.held, blockSize, hitems, hblock]

theorem balances_read : Balances (read : TapeM τ τ) := by
  refine Balances.get fun t => Balances.guarded ?_
  refine (balances_recordAt _).bind fun x => Balances.bind ?_ fun _ => Balances.pure x
  exact balances_modify (fun _ => rfl) fun _ => rfl

theorem balances_readBack : Balances (readBack : TapeM τ τ) := by
  apply Balances.of_settles
  intro t ht
  unfold readBack
  simp only [Work.run_bind, Work.run_get, pure_bind]
  split
  · exact Settles.pure ht rfl
  · simp only [Work.run_bind, Work.run_set, pure_bind]
    have hmoved : Paid { t with offset := t.offset - 1 } := ht
    exact (balances_recordAt _).settles hmoved

theorem balances_next? : Balances (next? : TapeM τ (Option τ)) :=
  Balances.get fun _ => Balances.ite (balances_read.map _) (Balances.pure none)

theorem balances_readEach (count : Nat) : Balances (readEach count : TapeM τ (List τ)) := by
  induction count with
  | zero => exact Balances.pure []
  | succ count ih => exact balances_read.bind fun x => ih.bind fun xs => Balances.pure (x :: xs)

theorem balances_readArray (count : Nat) : Balances (readArray count : TapeM τ (List τ)) :=
  Balances.get fun _ => Balances.guarded (balances_readEach count)

theorem balances_write (x : τ) : Balances (write x : TapeM τ Unit) :=
  Balances.get fun _ => (balances_load _).bind fun _ => (balances_withBlock fun _ => rfl).bind
    fun _ => balances_modify (fun _ => rfl) fun _ => rfl

theorem balances_writeArray (xs : List τ) : Balances (writeArray xs : TapeM τ Unit) := by
  induction xs with
  | nil => exact Balances.pure ()
  | cons x xs ih => exact (balances_write x).bind fun _ => ih

theorem balances_seek (index : Nat) : Balances (seek index : TapeM τ Unit) := by
  apply Balances.of_settles
  intro t ht
  unfold seek
  simp only [Work.run_bind, Work.run_get, pure_bind]
  split
  · exact Settles.pure ht rfl
  · exact Settles.pure ht rfl

theorem balances_flush : Balances (flush : TapeM τ Unit) := by
  apply Balances.of_settles
  intro t ht
  unfold flush
  simp only [Work.run_bind, Work.run_get, pure_bind]
  cases hblock : t.block with
  | none => exact Settles.pure ht rfl
  | some b =>
    obtain ⟨outcome, disk, hrun⟩ := writeBack_eq_pure b t
    simp only [Work.run_bind, hrun, pure_bind]
    cases outcome with
    | error e => exact Settles.pure ht rfl
    | ok _ =>
      have hpaid : Paid { t with disk, block := some { b with dirty := false } } := by
        intro b' hb'
        obtain rfl := Option.some.inj hb'
        exact ht b hblock
      refine Settles.pure hpaid ?_
      rw [held_block ht hblock, held_block hpaid rfl]

theorem balances_releaseBlock : Balances (releaseBlock : TapeM τ Unit) := by
  refine balances_flush.bind fun _ => Balances.of_settles fun t ht => ?_
  simp only [Work.run_bind, Work.run_get, Work.run_modify, pure_bind]
  have hvacant : Holder.held ({ t with block := none } : Tape τ) = 0 := held_vacant rfl
  cases hblock : t.block with
  | none =>
    rw [held_vacant hblock]
    exact Settles.pure (paid_vacant rfl) hvacant.symm
  | some b =>
    rw [held_block ht hblock]
    simp only [Work.run_liftM]
    exact (Settles.release b.lease).bind fun _ _ => Settles.pure (paid_vacant rfl) hvacant.symm

theorem balances_onDisk (request : Disk → Except DiskError α × Disk) :
    Balances (onDisk request : TapeM τ α) := by
  apply Balances.of_settles
  intro t ht
  rw [onDisk_eq]
  exact Settles.pure ht rfl

theorem balances_truncate (size : Nat) : Balances (truncate size : TapeM τ Unit) :=
  balances_releaseBlock.bind fun _ => (Balances.liftM (Settles.count _)).bind fun _ =>
    (balances_onDisk _).bind fun _ => balances_modify (fun _ => rfl) fun _ => rfl

/-- Whatever a tape is asked, it holds the block that it caches, and nothing else. -/
theorem balances_ask (call : TapeCall τ) : Balances (ask call : TapeM τ (Answer τ)) := by
  cases call with
  | write x => exact (balances_write x).bind fun _ => Balances.pure _
  | writeArray xs => exact (balances_writeArray xs).bind fun _ => Balances.pure _
  | read => exact balances_read.bind fun _ => Balances.pure _
  | readBack => exact balances_readBack.bind fun _ => Balances.pure _
  | readArray count => exact (balances_readArray count).bind fun _ => Balances.pure _
  | next => exact balances_next?.bind fun _ => Balances.pure _
  | seek index => exact (balances_seek index).bind fun _ => Balances.pure _
  | truncate size => exact (balances_truncate size).bind fun _ => Balances.pure _
  | flush => exact balances_flush.bind fun _ => Balances.pure _
  | releaseBlock => exact balances_releaseBlock.bind fun _ => Balances.pure _

/-- A tape that is closed gives its block back, whether it could be saved or not. -/
theorem settles_close (ht : Paid t) :
    Settles (Holder.held t) t.close (fun _ => True) fun _ => 0 := by
  unfold close
  refine (balances_flush.settles ht).bind fun out hpaid => ?_
  obtain ⟨outcome, t'⟩ := out
  have hreport (e : TapeError) : Settles (Holder.held t') (Site.report (.lostBlock e))
      (fun _ => True) fun _ => Holder.held t' := Settles.report rfl
  simp only
  cases hblock : t'.block with
  | none =>
    have hdone : Settles (Holder.held t') (pure t'.disk) (fun _ => True) fun _ => 0 :=
      Settles.pure trivial (held_vacant hblock)
    cases outcome with
    | ok _ => exact hdone
    | error e => exact (hreport e).bind fun _ _ => hdone
  | some b =>
    have hgive : Settles (Holder.held t') (do b.lease.release; return t'.disk) (fun _ => True)
        fun _ => 0 := by
      rw [held_block hpaid hblock]
      exact (Settles.release b.lease).bind fun _ _ => Settles.pure trivial rfl
    cases outcome with
    | ok _ => exact hgive
    | error e => exact (hreport e).bind fun _ _ => hgive

/-- To close a tape is always possible. -/
theorem returns_close (t : Tape τ) : Returns t.close := by
  obtain ⟨outcome, t', hrun, -, -⟩ := t.flush_eq
  have hgive (b : Block τ) : Returns (do b.lease.release; return t'.disk) :=
    (Returns.release b.lease).bind fun _ => Returns.pure _
  unfold close
  simp only [hrun, pure_bind]
  cases t'.block with
  | none =>
    cases outcome with
    | ok _ => exact Returns.pure _
    | error e => exact (Returns.report _).bind fun _ => Returns.pure _
  | some b =>
    cases outcome with
    | ok _ => exact hgive b
    | error e => exact (Returns.report _).bind fun _ => hgive b

/-- Nothing is charged for a tape before it is read or written. -/
theorem settles_openNamed (path : String) (file : Except DiskError Disk) (blockSize : Nat) :
    Settles 0 (openNamed path file blockSize : SiteM (Except TapeError (Tape τ)))
      (fun out => ∀ t, out = .ok t → t.block = none) fun _ => 0 := by
  unfold openNamed
  refine (Settles.assert _ _).bind fun _ _ => ?_
  cases file with
  | error e => exact Settles.pure (by simp) rfl
  | ok disk =>
    simp only
    split
    · exact Settles.pure (by simp) rfl
    · refine Settles.pure ?_ rfl
      intro t ht
      obtain rfl := Except.ok.inj ht
      rfl

theorem settles_temporary (blockSize : Nat) :
    Settles 0 (temporary blockSize : SiteM (Except TapeError (Tape τ)))
      (fun out => ∀ t, out = .ok t → t.block = none) fun _ => 0 := by
  unfold temporary
  refine Settles.newFile.bind fun file _ => ?_
  cases file with
  | error e => exact Settles.pure (by simp) rfl
  | ok disk =>
    refine (Settles.assert _ _).bind fun _ _ => Settles.pure ?_ rfl
    intro t ht
    obtain rfl := Except.ok.inj ht
    rfl

end Tape

end BoundedMerge
