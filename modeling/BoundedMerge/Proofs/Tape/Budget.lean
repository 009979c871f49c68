import BoundedMerge.Proofs.Site.Tallies
import BoundedMerge.Tape.Basic

/-!
What a tape pays for. A tape that `Owes` has blocks of a given size and paid for the one it holds.
Work on it `Pays` if the bytes in use are afterwards those of the rest and the block that is then
held, on any disk. Blocks are the one thing a tape is charged for, so room for a block is enough
for any work.
-/

namespace BoundedMerge

open SiteM FixedWidth

variable {α β τ : Type} [FixedWidth τ] {ref : Site} {size rest : Nat}

namespace Tape

/-- Blocks of the tape have `size` bytes, and the block that is held is paid for. -/
structure Owes (ref : Site) (size : Nat) (t : Tape τ) : Prop where
  blockSize_eq : t.blockSize = size
  lease_eq : ∀ b ∈ t.block, b.lease.bytes = ref.charged size

/-- Work that accounts for the block of the tape, with `rest` bytes in use elsewhere. -/
def Pays (ref : Site) (size rest : Nat) (work : TapeM τ α) : Prop :=
  ∀ t : Tape τ, t.Owes ref size → Tallies ref (rest + t.held) (work t) fun out used =>
    used = rest + out.2.held ∧ out.2.Owes ref size

variable {t : Tape τ}

theorem Owes.held_le (h : t.Owes ref size) : t.held ≤ ref.charged size := by
  unfold held
  cases hblock : t.block with
  | none => exact Nat.zero_le _
  | some b => exact Nat.le_of_eq (h.lease_eq b hblock)

omit [FixedWidth τ] in
theorem held_of_none (h : t.block = none) : t.held = 0 := by
  rw [held, h]
  rfl

theorem Owes.of_none (hsize : t.blockSize = size) (h : t.block = none) : t.Owes ref size :=
  ⟨hsize, fun b hb => by rw [h] at hb; contradiction⟩

theorem Owes.backed (h : t.Owes ref size) (b : Block τ) (hb : t.block = some b) :
    b.lease.Backed ref ∧ b.lease.bytes = t.held := by
  refine ⟨fun hignore => ?_, ?_⟩
  · rw [h.lease_eq b hb, Site.charged, if_pos hignore]
  · rw [held, hb]
    rfl

namespace Pays

theorem pure (a : α) : Pays ref size rest (pure a : TapeM τ α) :=
  fun _ ht => Tallies.pure ⟨rfl, ht⟩

theorem bind {work : TapeM τ α} {next : α → TapeM τ β} (h : Pays ref size rest work)
    (hnext : ∀ a, Pays ref size rest (next a)) : Pays ref size rest (work >>= next) := by
  intro t ht
  refine Tallies.run_bind (h t ht) ?_ (fun _ _ _ hout => hout)
  rintro a t' _ ⟨rfl, ht'⟩
  exact hnext a t' ht'

theorem get {work : Tape τ → TapeM τ α} (h : ∀ t, Pays ref size rest (work t)) :
    Pays ref size rest (get >>= work) := fun t ht => h t t ht

theorem modify {f : Tape τ → Tape τ} (hitems : ∀ t, (f t).blockItems = t.blockItems)
    (hblock : ∀ t, (f t).block = t.block) : Pays ref size rest (modify f : TapeM τ Unit) := by
  intro t ht
  refine Tallies.pure ⟨?_, ?_, ?_⟩
  · simp only [held, hblock]
  · simpa only [blockSize, hitems] using ht.blockSize_eq
  · simpa only [hblock] using ht.lease_eq

theorem ite {c : Prop} [Decidable c] {x y : TapeM τ α} (hx : Pays ref size rest x)
    (hy : Pays ref size rest y) : Pays ref size rest (if c then x else y) := by
  split
  · exact hx
  · exact hy

end Pays

omit [FixedWidth τ] in
/-- A request changes the disk of the tape, whether it is served or not. -/
theorem tallies_onDisk {used : Nat} (request : Disk → Except DiskError α × Disk) (t : Tape τ) :
    Tallies ref used ((onDisk request : TapeM τ α) t) fun out used' =>
      used' = used ∧ ∃ disk, out.2 = { t with disk } := by
  unfold onDisk
  simp only [Work.run_bind, Work.run_get, Work.run_set, pure_bind]
  rcases request t.disk with ⟨e | a, disk⟩
  · exact Tallies.pure ⟨rfl, disk, rfl⟩
  · exact Tallies.pure ⟨rfl, disk, rfl⟩

theorem tallies_writeBack {used : Nat} (b : Block τ) (t : Tape τ) :
    Tallies ref used ((writeBack b : TapeM τ Unit) t) fun out used' =>
      used' = used ∧ ∃ disk, out.2 = { t with disk } := by
  unfold writeBack
  rw [Work.run_ite]
  split
  · simp only [Work.run_bind, Work.run_get, pure_bind]
    exact tallies_onDisk _ t
  · exact Tallies.pure ⟨rfl, t.disk, rfl⟩

/-- A block was cached for the lease; or the work failed, and the cache is as it was. -/
def Fetches (t : Tape τ) (lease : Lease) (out : Except TapeError Unit × Tape τ) : Prop :=
  ∃ disk, match out with
    | (.ok _, after) => ∃ b, b.lease = lease ∧ after = { t with disk, block := some b }
    | (.error _, after) => after = { t with disk }

theorem tallies_fetch {used : Nat} (index : Nat) (lease : Lease) (t : Tape τ) :
    Tallies ref used ((fetch index lease : TapeM τ Unit) t) fun out used' =>
      used' = used ∧ t.Fetches lease out := by
  unfold fetch
  simp only [Work.run_bind, Work.run_get, Work.run_modify, pure_bind]
  refine (tallies_onDisk _ t).bind ?_
  rintro ⟨e | image, _⟩ _ ⟨rfl, disk, rfl⟩
  · exact Tallies.pure ⟨rfl, disk, rfl⟩
  · exact Tallies.pure ⟨rfl, disk, _, rfl, rfl⟩

def Stays (t after : Tape τ) : Prop := after.size = t.size ∧ after.offset = t.offset

/-- The lease is that of the block which is then held, or was given back. -/
theorem tallies_orRelease {lease : Lease} {work : TapeM τ Unit} (hsize : t.blockSize = size)
    (hblock : t.block = none) (hlease : lease.bytes = ref.charged size)
    (h : Tallies ref (rest + lease.bytes) (work t) fun out used =>
      used = rest + lease.bytes ∧ t.Fetches lease out) :
    Tallies ref (rest + lease.bytes) ((orRelease lease work) t) fun out used =>
      (used = rest + out.2.held ∧ out.2.Owes ref size) ∧ t.Stays out.2 := by
  have hbacked : lease.Backed ref := fun hignore => by rw [hlease, Site.charged, if_pos hignore]
  unfold orRelease
  refine Tallies.run_tryCatch h ?_ ?_
  · rintro _ _ _ ⟨rfl, disk, b, hb, rfl⟩
    refine ⟨⟨by simp only [held, Option.map_some, Option.getD_some, hb], hsize, ?_⟩, rfl, rfl⟩
    rintro _ ⟨⟩
    rw [hb, hlease]
  · rintro e _ _ ⟨rfl, disk, rfl⟩
    simp only [Work.run_bind, Work.run_liftM, bind_assoc, pure_bind]
    refine (Tallies.release lease hbacked (Nat.le_add_left _ _)).bind fun _ used hused => ?_
    refine Tallies.pure ⟨⟨?_, Owes.of_none hsize hblock⟩, rfl, rfl⟩
    rw [held_of_none (t := { t with disk }) hblock]
    omega

theorem tallies_load (ht : t.Owes ref size) (index : Nat)
    (hroom : rest + ref.charged size ≤ ref.ledger.limit) :
    Tallies ref (rest + t.held) ((load index : TapeM τ Unit) t) fun out used =>
      (used = rest + out.2.held ∧ out.2.Owes ref size) ∧ t.Stays out.2 := by
  unfold load
  simp only [Work.run_bind, Work.run_get, pure_bind]
  cases hblock : t.block with
  | some b =>
    obtain ⟨hbacked, hheld⟩ := ht.backed b hblock
    simp only
    by_cases hindex : b.index ≠ index
    · rw [if_pos hindex, ← hheld]
      simp only [Work.run_bind, Work.run_modify, pure_bind]
      refine tallies_orRelease (t := { t with block := none }) ht.blockSize_eq rfl
        (ht.lease_eq b hblock) ?_
      refine Tallies.run_bind (tallies_writeBack b _) ?_ ?_
      · rintro _ _ _ ⟨rfl, disk, rfl⟩
        refine (tallies_fetch index b.lease _).mono ?_
        rintro ⟨_ | _, _⟩ _ ⟨rfl, disk', hout⟩
        · exact ⟨rfl, disk', hout⟩
        · exact ⟨rfl, disk', hout⟩
      · rintro e _ _ ⟨rfl, disk, rfl⟩
        exact ⟨rfl, disk, rfl⟩
    · rw [if_neg hindex]
      exact Tallies.pure ⟨⟨rfl, ht⟩, rfl, rfl⟩
  | none =>
    have hheld := held_of_none hblock
    simp only [Work.run_bind, Work.run_get, Work.run_liftM, bind_assoc, pure_bind, hheld,
      Nat.add_zero, ht.blockSize_eq]
    refine (Tallies.provide _).bind ?_
    rintro _ _ rfl
    refine (Tallies.take size hroom).bind ?_
    rintro lease _ ⟨hlease, rfl⟩
    exact tallies_orRelease ht.blockSize_eq hblock hlease (tallies_fetch index lease t)

theorem tallies_withBlock (ht : t.Owes ref size) {work : Block τ → α × Block τ}
    (hwork : ∀ b, (work b).2.lease = b.lease) :
    Tallies ref (rest + t.held) ((withBlock work : TapeM τ α) t) fun out used =>
      (used = rest + out.2.held ∧ out.2.Owes ref size) ∧ t.Stays out.2 := by
  unfold withBlock
  simp only [Work.run_bind, Work.run_get, pure_bind]
  cases hblock : t.block with
  | none => exact Tallies.run_liftM (Tallies.halt (by simp))
  | some b =>
    obtain ⟨-, hheld⟩ := ht.backed b hblock
    simp only [Work.run_bind, Work.run_modify, pure_bind]
    refine Tallies.pure ⟨⟨?_, ht.blockSize_eq, ?_⟩, rfl, rfl⟩
    · rw [← hheld, ← hwork b]
      rfl
    · rintro _ ⟨⟩
      rw [hwork b, ht.lease_eq b hblock]

theorem tallies_recordAt (ht : t.Owes ref size) (index : Nat)
    (hroom : rest + ref.charged size ≤ ref.ledger.limit) :
    Tallies ref (rest + t.held) ((recordAt index : TapeM τ τ) t) fun out used =>
      (used = rest + out.2.held ∧ out.2.Owes ref size) ∧ t.Stays out.2 := by
  unfold recordAt
  simp only [Work.run_bind, Work.run_get, pure_bind]
  refine (tallies_load ht _ hroom).bind ?_
  rintro ⟨e | _, t'⟩ _ ⟨⟨rfl, ht'⟩, hstays⟩
  · exact Tallies.pure ⟨⟨rfl, ht'⟩, hstays⟩
  · refine (tallies_withBlock ht' fun _ => rfl).mono ?_
    rintro out used ⟨hout, hstays'⟩
    exact ⟨hout, hstays'.1.trans hstays.1, hstays'.2.trans hstays.2⟩

/-- A record that is read moves the cursor by one. -/
theorem tallies_read (ht : t.Owes ref size) (hroom : rest + ref.charged size ≤ ref.ledger.limit) :
    Tallies ref (rest + t.held) ((read : TapeM τ τ) t) fun out used =>
      (used = rest + out.2.held ∧ out.2.Owes ref size) ∧ out.2.size = t.size ∧
        ∀ x, out.1 = .ok x → out.2.offset = t.offset + 1 := by
  unfold read
  simp only [Work.run_bind, Work.run_get, pure_bind]
  split
  · exact Tallies.pure ⟨⟨rfl, ht⟩, rfl, fun x hx => by cases hx⟩
  · simp only [Work.run_bind, Work.run_pure, Work.run_modify, pure_bind]
    refine (tallies_recordAt ht _ hroom).bind ?_
    rintro ⟨e | x, t'⟩ _ ⟨⟨rfl, ht'⟩, hstays⟩
    · exact Tallies.pure ⟨⟨rfl, ht'⟩, hstays.1, fun x hx => by cases hx⟩
    · exact Tallies.pure ⟨⟨rfl, ht'.blockSize_eq, ht'.lease_eq⟩, hstays.1,
        fun _ _ => congrArg (· + 1) hstays.2⟩

theorem pays_load (index : Nat) (hroom : rest + ref.charged size ≤ ref.ledger.limit) :
    Pays ref size rest (load index : TapeM τ Unit) :=
  fun _ ht => (tallies_load ht index hroom).mono fun _ _ hout => hout.1

theorem pays_withBlock {work : Block τ → α × Block τ} (hwork : ∀ b, (work b).2.lease = b.lease) :
    Pays ref size rest (withBlock work : TapeM τ α) :=
  fun _ ht => (tallies_withBlock ht hwork).mono fun _ _ hout => hout.1

theorem pays_read (hroom : rest + ref.charged size ≤ ref.ledger.limit) :
    Pays ref size rest (read : TapeM τ τ) :=
  fun _ ht => (tallies_read ht hroom).mono fun _ _ hout => hout.1

theorem pays_next? (hroom : rest + ref.charged size ≤ ref.ledger.limit) :
    Pays ref size rest (next? : TapeM τ (Option τ)) := by
  refine Pays.get fun t => Pays.ite ?_ (Pays.pure none)
  rw [map_eq_pure_bind]
  exact (pays_read hroom).bind fun x => Pays.pure (some x)

theorem pays_write (x : τ) (hroom : rest + ref.charged size ≤ ref.ledger.limit) :
    Pays ref size rest (write x : TapeM τ Unit) :=
  Pays.get fun _ => (pays_load _ hroom).bind fun _ => (pays_withBlock fun _ => rfl).bind fun _ =>
    Pays.modify (fun _ => rfl) fun _ => rfl

theorem pays_writeArray (xs : List τ) (hroom : rest + ref.charged size ≤ ref.ledger.limit) :
    Pays ref size rest (writeArray xs : TapeM τ Unit) := by
  induction xs with
  | nil => exact Pays.pure ()
  | cons x xs ih => exact (pays_write x hroom).bind fun _ => ih

theorem pays_seek (index : Nat) : Pays ref size rest (seek index : TapeM τ Unit) := by
  intro t ht
  unfold seek
  simp only [Work.run_bind, Work.run_get, pure_bind]
  split
  · exact Tallies.pure ⟨rfl, ht⟩
  · exact Tallies.pure ⟨rfl, ht.blockSize_eq, ht.lease_eq⟩

theorem pays_flush : Pays ref size rest (flush : TapeM τ Unit) := by
  intro t ht
  unfold flush
  simp only [Work.run_bind, Work.run_get, pure_bind]
  cases hblock : t.block with
  | none => exact Tallies.pure ⟨rfl, ht⟩
  | some b =>
    obtain ⟨-, hheld⟩ := ht.backed b hblock
    refine (tallies_writeBack b t).bind ?_
    rintro ⟨e | _, _⟩ _ ⟨rfl, disk, rfl⟩
    · exact Tallies.pure ⟨rfl, ht.blockSize_eq, ht.lease_eq⟩
    · refine Tallies.pure ⟨?_, ht.blockSize_eq, ?_⟩
      · rw [← hheld]
        rfl
      · rintro _ ⟨⟩
        exact ht.lease_eq b hblock

/-- If the tape can be flushed, no block is held any more. -/
theorem tallies_releaseBlock (ht : t.Owes ref size) :
    Tallies ref (rest + t.held) ((releaseBlock : TapeM τ Unit) t) fun out used =>
      used = rest + out.2.held ∧ out.2.Owes ref size ∧ (out.1 = .ok () → out.2.block = none) := by
  unfold releaseBlock
  refine Tallies.run_bind (pays_flush t ht) ?_ ?_
  · rintro _ t' _ ⟨rfl, ht'⟩
    simp only at ht'
    simp only [Work.run_bind, Work.run_get, Work.run_modify, pure_bind]
    cases hblock : t'.block with
    | none =>
      refine Tallies.pure ⟨?_, Owes.of_none ht'.blockSize_eq rfl, fun _ => rfl⟩
      simp only [held, hblock]
    | some b =>
      obtain ⟨hbacked, hheld⟩ := ht'.backed b hblock
      refine Tallies.run_liftM ((Tallies.release b.lease hbacked ?_).mono ?_)
      · rw [hheld]
        exact Nat.le_add_left _ _
      · intro _ used (hused : used + b.lease.bytes = rest + t'.held)
        refine ⟨?_, Owes.of_none ht'.blockSize_eq rfl, fun _ => rfl⟩
        rw [held_of_none (t := { t' with block := none }) rfl]
        omega
  · rintro e t' _ ⟨rfl, ht'⟩
    exact ⟨rfl, ht', fun h => by cases h⟩

theorem tallies_close (ht : t.Owes ref size) :
    Tallies ref (rest + t.held) t.close fun _ used => used = rest := by
  unfold close
  refine (pays_flush t ht).bind ?_
  rintro ⟨outcome, t'⟩ _ ⟨rfl, ht'⟩
  simp only at ht' ⊢
  have hreport (e : TapeError) : Tallies ref (rest + t'.held) (Site.report (.lostBlock e))
      fun _ used => used = rest + t'.held := Tallies.report rfl
  cases hblock : t'.block with
  | none =>
    have hnone := held_of_none hblock
    cases outcome with
    | ok _ =>
      simp only
      exact Tallies.pure (by omega)
    | error e =>
      simp only
      exact (hreport e).bind fun _ used hused => Tallies.pure (by omega)
  | some b =>
    obtain ⟨hbacked, hheld⟩ := ht'.backed b hblock
    have hgive (used : Nat) (hused : used = rest + t'.held) : Tallies ref used (do
        b.lease.release
        return t'.disk) fun _ used => used = rest := by
      refine (Tallies.release b.lease hbacked (by omega)).bind ?_
      intro _ used' (hused' : used' + b.lease.bytes = used)
      exact Tallies.pure (by omega)
    cases outcome with
    | ok _ =>
      simp only
      exact hgive _ rfl
    | error e =>
      simp only
      exact (hreport e).bind fun _ used hused => hgive used hused

end Tape

end BoundedMerge
