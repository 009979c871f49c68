import BoundedMerge.Proofs.Site.Echoes
import BoundedMerge.Proofs.Tape.Turns
import BoundedMerge.Proofs.Tape.Upholds

/-!
A tape beside the same tape on a disk that refuses nothing. Whatever is done to both: if it
succeeds on the one it gives the same on the other, and leaves the two alike.
-/

namespace BoundedMerge

open SiteM

namespace Tape

variable {α β τ : Type}

def steady (t : Tape τ) : Tape τ := { t with disk := t.disk.steady }

/-- The tape holds the records of the reel, whatever its disk may refuse: were it to refuse nothing,
the tape would show them. -/
def Holds [FixedWidth τ] (t : Tape τ) (r : Reel τ) : Prop := t.steady.Shows r

theorem Holds.move [FixedWidth τ] {t : Tape τ} {r : Reel τ} (h : t.Holds r) (offset : Nat)
    (hle : offset ≤ r.records.length) :
    Holds { t with offset } { records := r.records, offset, offset_le := hle } :=
  Shows.move h offset hle

theorem steady_of_reliable {t : Tape τ} (h : t.disk.Reliable) : t.steady = t := by
  obtain ⟨⟨bytes, longest, refuse, requests⟩, path, blockItems, size, offset, block⟩ := t
  obtain ⟨rfl, hrefuse⟩ := h
  have hnone : refuse = fun _ _ => none := by
    funext n r
    exact hrefuse n r
  rw [hnone]
  rfl

def Echoes (work : TapeM τ α) : Prop := Work.Echoes steady id work work

/-- A change that has nothing to do with the disk. -/
theorem Echoes.modify {m : Tape τ → Tape τ} {next : TapeM τ α} (h : Echoes next)
    (hm : ∀ t, (m t).steady = m t.steady) : Echoes (do modify m; next) :=
  (Work.Echoes.modify hm).bind fun _ => h

theorem echoes_onDisk {request : Disk → Except DiskError α × Disk}
    (h : ∀ d a, (request d).1 = .ok a → request d.steady = (.ok a, (request d).2.steady)) :
    Echoes (onDisk request : TapeM τ α) := by
  intro t
  rw [onDisk_eq, onDisk_eq]
  cases hanswer : (request t.disk).1 with
  | error e => exact Echoes.of_loses (Loses.pure ⟨_, rfl⟩)
  | ok a =>
    have hsteady : request t.steady.disk = (.ok a, (request t.disk).2.steady) := h _ _ hanswer
    rw [hsteady]
    exact SiteM.Echoes.pure ⟨a, rfl, rfl⟩

theorem echoes_withBlock (work : Block τ → α × Block τ) :
    Echoes (withBlock work : TapeM τ α) := by
  apply Work.Echoes.get
  intro t
  cases hblock : t.block with
  | none =>
    have hsteady : t.steady.block = none := hblock
    rw [hsteady]
    exact Work.Echoes.blind (Blind.halt _)
  | some b =>
    have hsteady : t.steady.block = some b := hblock
    rw [hsteady]
    exact Echoes.modify (Work.Echoes.pure (work b).1) fun _ => rfl

variable [FixedWidth τ]

theorem echoes_writeBack (b : Block τ) : Echoes (writeBack b) := by
  unfold writeBack
  split
  · apply Work.Echoes.get
    intro t
    exact echoes_onDisk fun d _ h => d.write_steady h
  · exact Work.Echoes.pure ()

theorem echoes_fetch (index : Nat) (lease : Lease) : Echoes (fetch index lease : TapeM τ Unit) := by
  apply Work.Echoes.get
  intro t
  apply (echoes_onDisk fun d _ h => d.read_steady h).bind
  intro data
  exact Work.Echoes.modify fun _ => rfl

omit [FixedWidth τ] in
theorem echoes_orRelease {lease : Lease} {work : TapeM τ Unit} (h : Echoes work) :
    Echoes (orRelease lease work) := by
  apply Work.Echoes.rethrow h
  intro e
  exact Work.Fails.after fun _ => Work.Fails.throw e

theorem echoes_load (index : Nat) : Echoes (load index : TapeM τ Unit) := by
  apply Work.Echoes.get
  intro t
  have hsteady : t.steady.block = t.block := rfl
  rw [hsteady]
  cases t.block with
  | some b =>
    simp only
    split
    · have hreload : Echoes (orRelease b.lease do writeBack b; fetch index b.lease) :=
        echoes_orRelease ((echoes_writeBack b).bind fun _ => echoes_fetch index b.lease)
      exact hreload.modify fun _ => rfl
    · exact Work.Echoes.pure ()
  | none =>
    apply Work.Echoes.get
    intro t
    apply Work.Echoes.bind (Work.Echoes.blind (Blind.provide _))
    intro _
    apply Work.Echoes.bind (Work.Echoes.blind (Blind.take _))
    intro lease
    exact echoes_orRelease (echoes_fetch index lease)

theorem echoes_recordAt (index : Nat) : Echoes (recordAt index : TapeM τ τ) := by
  apply Work.Echoes.get
  intro t
  exact (echoes_load _).bind fun _ => echoes_withBlock _

theorem echoes_read : Echoes (read : TapeM τ τ) := by
  apply Work.Echoes.get
  intro t
  have hsize : t.steady.size = t.size := rfl
  have hoffset : t.steady.offset = t.offset := rfl
  rw [hsize, hoffset]
  split
  · exact Work.Echoes.throw _ _
  · apply (echoes_recordAt t.offset).bind
    intro x
    exact Echoes.modify (Work.Echoes.pure x) fun _ => rfl

theorem echoes_next? : Echoes (next? : TapeM τ (Option τ)) := by
  apply Work.Echoes.get
  intro t
  have hread : t.steady.canRead = t.canRead := rfl
  rw [hread]
  split
  · rw [map_eq_pure_bind]
    exact echoes_read.bind fun x => Work.Echoes.pure (some x)
  · exact Work.Echoes.pure none

theorem echoes_write (x : τ) : Echoes (write x) := by
  apply Work.Echoes.get
  intro t
  apply (echoes_load _).bind
  intro _
  apply (echoes_withBlock _).bind
  intro _
  exact Work.Echoes.modify fun _ => rfl

theorem echoes_writeArray (records : List τ) : Echoes (writeArray records) := by
  induction records with
  | nil => exact Work.Echoes.pure ()
  | cons x records ih =>
    rw [writeArray]
    exact (echoes_write x).bind fun _ => ih

omit [FixedWidth τ] in
theorem echoes_seek (index : Nat) : Echoes (seek index : TapeM τ Unit) := by
  apply Work.Echoes.get
  intro t
  have hsize : t.steady.size = t.size := rfl
  rw [hsize]
  split
  · exact Work.Echoes.throw _ _
  · exact Work.Echoes.set rfl

theorem echoes_flush : Echoes (flush : TapeM τ Unit) := by
  apply Work.Echoes.get
  intro t
  have hsteady : t.steady.block = t.block := rfl
  rw [hsteady]
  cases t.block with
  | none => exact Work.Echoes.pure ()
  | some b =>
    apply (echoes_writeBack b).bind
    intro _
    exact Work.Echoes.modify fun _ => rfl

theorem echoes_releaseBlock : Echoes (releaseBlock : TapeM τ Unit) := by
  apply echoes_flush.bind
  intro _
  apply Work.Echoes.get
  intro t
  have hsteady : t.steady.block = t.block := rfl
  rw [hsteady]
  cases t.block with
  | none => exact Echoes.modify (Work.Echoes.pure ()) fun _ => rfl
  | some b => exact Echoes.modify (Work.Echoes.blind (Blind.release b.lease)) fun _ => rfl

/-- Closing a tape never fails, though a tape may lose its last block on the way. -/
theorem echoes_close (t : Tape τ) :
    SiteM.Echoes t.close t.steady.close (fun _ => False) fun _ _ => True := by
  obtain ⟨outcome, t₁, hflush, hlease, -⟩ := t.flush_eq
  obtain ⟨outcome', t₂, hflush', hlease', hcases⟩ := t.steady.flush_eq
  have hok : outcome' = .ok () := hcases.resolve_right fun ⟨d, _, hlost⟩ =>
    not_losesBlock t.disk.reliable_steady.dependable hlost
  have hsame : t₁.block.map Block.lease = t₂.block.map Block.lease := by
    rw [hlease, hlease']
    rfl
  unfold close
  rw [hflush, hflush', hok]
  simp only [pure_bind]
  cases hblock : t₁.block with
  | none =>
    rw [hblock, Option.map_none, eq_comm, Option.map_eq_none_iff] at hsame
    rw [hsame]
    cases outcome with
    | ok _ => exact SiteM.Echoes.pure trivial
    | error e => exact SiteM.Echoes.report _ (SiteM.Echoes.pure trivial)
  | some b =>
    rw [hblock, Option.map_some, eq_comm, Option.map_eq_some_iff] at hsame
    obtain ⟨b', hblock', hleases⟩ := hsame
    rw [hblock']
    simp only [hleases]
    have hrelease : SiteM.Echoes (do b.lease.release; return t₁.disk)
        (do b.lease.release; return t₂.disk) (fun _ => False) fun _ _ => True := by
      apply SiteM.Echoes.bind' (Blind.release b.lease)
      intro _ _ _
      exact SiteM.Echoes.pure trivial
    cases outcome with
    | ok _ => exact hrelease
    | error e => exact SiteM.Echoes.report _ hrelease

theorem echoes_temporary (blockSize : Nat) :
    SiteM.Echoes (temporary blockSize : SiteM (Except TapeError (Tape τ))) (temporary blockSize)
      (fun made => ∃ e, made = .error e)
      (fun made made' => ∃ t, made = .ok t ∧ made' = .ok t.steady) := by
  unfold temporary
  apply echoes_newFile.bind
  · intro made hlost
    obtain ⟨e, rfl⟩ := hlost
    exact Loses.pure ⟨_, rfl⟩
  · intro made made' hmade
    obtain ⟨d, rfl, rfl⟩ := hmade
    apply SiteM.Echoes.bind' (Blind.assert _ _)
    intro _ _ _
    exact SiteM.Echoes.pure ⟨_, rfl, rfl⟩

end Tape

end BoundedMerge
