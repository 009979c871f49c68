import BoundedMerge.Proofs.Site.Yields
import BoundedMerge.Proofs.Tape.Pledge

/-!
The operations of a tape, on a disk that may refuse anything. Each of them leaves the tape
honouring what is owed afterwards: all that was owed before, unless the disk refused a request
while a block was to be reached and another one was unsaved.
-/

namespace BoundedMerge

open FixedWidth SiteM

variable {α β τ : Type}

namespace Tape

variable {ref : Site} {t : Tape τ} {b : Block τ} {p : Pledge τ}

/-- Work on the tape that keeps the size of its blocks, with `Q` if it succeeds and `E` if it
fails. -/
def Upholds (ref : Site) (t : Tape τ) (work : TapeM τ α) (Q : α → Tape τ → Prop)
    (E : TapeError → Tape τ → Prop) : Prop :=
  Yields ref (work t) fun out => out.2.blockItems = t.blockItems ∧
    match out.1 with
    | .ok a => Q a out.2
    | .error e => E e out.2

section Rules

variable {Q Q' : α → Tape τ → Prop} {E E' : TapeError → Tape τ → Prop}

theorem Upholds.mono {work : TapeM τ α} (h : t.Upholds ref work Q E)
    (hQ : ∀ a t', t'.blockItems = t.blockItems → Q a t' → Q' a t')
    (hE : ∀ e t', t'.blockItems = t.blockItems → E e t' → E' e t') :
    t.Upholds ref work Q' E' := by
  apply Meets.mono h
  intro out hout
  obtain ⟨outcome, t'⟩ := out
  refine ⟨hout.1, ?_⟩
  cases outcome with
  | ok a => exact hQ a t' hout.1 hout.2
  | error e => exact hE e t' hout.1 hout.2

theorem Upholds.pure {a : α} (h : Q a t) : t.Upholds ref (pure a) Q E := Meets.pure ⟨rfl, h⟩

theorem Upholds.throw {e : TapeError} (h : E e t) : t.Upholds ref (throw e : TapeM τ α) Q E :=
  Meets.pure ⟨rfl, h⟩

theorem Upholds.bind {work : TapeM τ α} {next : α → TapeM τ β} {R : β → Tape τ → Prop}
    (h : t.Upholds ref work Q E)
    (hnext : ∀ a t', t'.blockItems = t.blockItems → Q a t' → t'.Upholds ref (next a) R E) :
    t.Upholds ref (work >>= next) R E := by
  apply Meets.run_bind h
  · intro a t' hout
    apply Meets.mono (hnext a t' hout.1 hout.2)
    intro out hrest
    exact ⟨hrest.1.trans hout.1, hrest.2⟩
  · intro e t' hout
    exact hout

theorem Upholds.get {work : Tape τ → TapeM τ α} :
    t.Upholds ref (get >>= work) Q E ↔ t.Upholds ref (work t) Q E := Iff.rfl

theorem Upholds.modify {f : Tape τ → Tape τ} {work : TapeM τ α}
    (hitems : (f t).blockItems = t.blockItems) (h : (f t).Upholds ref work Q E) :
    t.Upholds ref (do modify f; work) Q E := by
  apply Meets.mono h
  intro out hout
  exact ⟨hout.1.trans hitems, hout.2⟩

theorem Upholds.set {t' : Tape τ} {work : TapeM τ α} (hitems : t'.blockItems = t.blockItems)
    (h : t'.Upholds ref work Q E) : t.Upholds ref (do set t'; work) Q E := by
  apply Meets.mono h
  intro out hout
  exact ⟨hout.1.trans hitems, hout.2⟩

/-- Work at the site does not touch the tape. -/
theorem Upholds.lift {work : SiteM α} {next : α → TapeM τ β} {R : β → Tape τ → Prop}
    (h : Yields ref work fun _ => True) (hnext : ∀ a, t.Upholds ref (next a) R E) :
    t.Upholds ref (liftM work >>= next) R E := by
  unfold Upholds
  simp only [Work.run_bind, Work.run_liftM, bind_assoc, pure_bind]
  exact h.bind fun a _ => hnext a

/-- A handler that gives the lease back and fails as before. -/
theorem Upholds.orRelease {lease : Lease} {work : TapeM τ Unit} {Q : Unit → Tape τ → Prop}
    (h : t.Upholds ref work Q E) : t.Upholds ref (orRelease lease work) Q E := by
  apply Meets.run_tryCatch h
  · intro a t' hout
    exact hout
  · intro e t' hout
    apply Meets.run_bind (P := fun out => out = (.ok (), t'))
    · exact Meets.run_liftM ((Yields.release lease).mono fun _ _ => rfl)
    · intro a t'' hsame
      cases hsame
      exact Meets.pure hout
    · intro e t'' hsame
      cases hsame

end Rules

theorem onDisk_eq (request : Disk → Except DiskError α × Disk) :
    (onDisk request : TapeM τ α) t =
      (pure ((request t.disk).1.mapError .disk, { t with disk := (request t.disk).2 }) :
        SiteM _) := by
  unfold onDisk
  simp only [Work.run_bind, Work.run_get, Work.run_set, pure_bind]
  cases (request t.disk).1 <;> rfl

variable [FixedWidth τ]

/-- The disk refuses the records of the block that the tape has changed. -/
def LosesBlock (t : Tape τ) (d : DiskError) : Prop :=
  ∃ b, t.block = some b ∧ b.dirty = true ∧
    (t.disk.write (b.index * t.blockItems * width τ) (encodeAll
      (b.image (min t.blockItems (t.size - b.index * t.blockItems))))).1 = .error d

theorem not_losesBlock (h : t.disk.Dependable) {d : DiskError} : ¬t.LosesBlock d := by
  rintro ⟨b, -, -, hrefused⟩
  rw [h.write_eq] at hrefused
  contradiction

/-- A flush touches no more than the disk of the tape and the mark of its block. It fails only for
a block that the disk refuses. -/
theorem flush_eq (t : Tape τ) : ∃ outcome t',
    (flush : TapeM τ Unit) t = (pure (outcome, t') : SiteM _) ∧
      t'.block.map Block.lease = t.block.map Block.lease ∧
      (outcome = .ok () ∨ ∃ d, outcome = .error (.disk d) ∧ t.LosesBlock d) := by
  unfold flush
  simp only [Work.run_bind, Work.run_get, pure_bind]
  cases hblock : t.block with
  | none => exact ⟨.ok (), t, rfl, by rw [hblock], .inl rfl⟩
  | some b =>
    simp only [Work.run_bind, writeBack, Work.run_ite]
    split
    · next hdirty =>
      simp only [Work.run_get, pure_bind, onDisk_eq]
      generalize hrequest : t.disk.write _ _ = answer
      obtain ⟨outcome, disk⟩ := answer
      cases outcome with
      | error d =>
        exact ⟨.error (.disk d), { t with disk }, rfl, by rw [← hblock],
          .inr ⟨d, rfl, b, hblock, hdirty, congrArg Prod.fst hrequest⟩⟩
      | ok _ => exact ⟨.ok (), _, rfl, rfl, .inl rfl⟩
    · exact ⟨.ok (), _, rfl, rfl, .inl rfl⟩

def Refused (p : Pledge τ) (e : TapeError) (t : Tape τ) : Prop :=
  (∃ d, e = .disk d) ∧ t.Honours p

theorem upholds_fetch (h : t.Secures none p) (hblock : t.block = none) (index : Nat)
    (lease : Lease) :
    t.Upholds ref (fetch index lease)
      (fun _ t' => t'.Honours p ∧ ∃ b, t'.block = some b ∧ b.index = index) (Refused p) := by
  obtain ⟨hbytes, hdata⟩ := t.disk.read_cases (index * t.blockSize) t.blockSize
  unfold Upholds fetch
  simp only [Work.run_bind, Work.run_get, pure_bind, onDisk_eq]
  cases hread : (t.disk.read (index * t.blockSize) t.blockSize).1 with
  | error e =>
    refine Meets.pure ⟨rfl, ⟨e, rfl⟩, ?_⟩
    have hsame := h.redisk hbytes
    rw [Honours]
    simpa only [hblock] using hsame
  | ok data =>
    simp only [Except.mapError, Work.run_modify]
    refine Meets.pure ⟨rfl, ?_, _, rfl, rfl⟩
    rw [hdata data hread]
    exact ((h.fetched index lease).redisk hbytes).recache _

theorem upholds_fetch_reach {items index : Nat} (h : t.Secures none (p.reach items index))
    (hblock : t.block = none) (lease : Lease) :
    t.Upholds ref (fetch index lease)
      (fun _ t' => t'.Honours (p.reach items index) ∧ ∃ b, t'.block = some b ∧ b.index = index)
      (Refused (p.miss items index)) := by
  apply (upholds_fetch h hblock index lease).mono
  · intro _ t' _ hout
    exact hout
  · intro e t' _ hout
    exact ⟨hout.1, hout.2.missed⟩

variable [CanonicalFixedWidth τ]

theorem upholds_writeBack (h : t.Secures (some b) p) :
    t.Upholds ref (writeBack b)
      (fun _ t' => t'.Secures (some { b with dirty := false }) p.saved ∧ t'.block = t.block)
      (fun e t' => (∃ d, e = .disk d) ∧ t'.Secures (some b) p ∧ t'.block = t.block) := by
  obtain ⟨count, hbytes, hall⟩ :=
    t.disk.write_cases (b.index * t.blockItems * width τ) (t.spill b)
  unfold Upholds writeBack
  rw [Work.run_ite]
  split
  · simp only [Work.run_bind, Work.run_get, pure_bind, onDisk_eq]
    change Yields ref (Pure.pure ((t.disk.write (b.index * t.blockItems * width τ)
      (t.spill b)).1.mapError TapeError.disk, _)) _
    cases hwrite : (t.disk.write (b.index * t.blockItems * width τ) (t.spill b)).1 with
    | error e =>
      refine Meets.pure ⟨rfl, ⟨e, rfl⟩, ?_, rfl⟩
      exact (h.spilled count).redisk hbytes
    | ok _ =>
      refine Meets.pure ⟨rfl, ?_, rfl⟩
      rw [hall hwrite] at hbytes
      exact h.saved.redisk hbytes
  · next hdirty =>
    rw [Bool.not_eq_true] at hdirty
    have hclean : { b with dirty := false } = b := by rw [← hdirty]
    rw [hclean]
    refine Meets.pure ⟨rfl, ?_, rfl⟩
    apply h.settled
    intro b' hb'
    cases hb'
    exact hdirty

theorem upholds_load (h : t.Honours p) (index : Nat) :
    t.Upholds ref (load index)
      (fun _ t' => t'.Honours (p.reach t.blockItems index) ∧
        ∃ b, t'.block = some b ∧ b.index = index)
      (Refused (p.miss t.blockItems index)) := by
  unfold load
  rw [Upholds.get]
  unfold Honours at h
  cases hblock : t.block with
  | some b =>
    rw [hblock] at h
    simp only
    by_cases hindex : b.index = index
    · rw [if_neg (not_not.mpr hindex)]
      refine Upholds.pure ⟨?_, b, hblock, hindex⟩
      rw [Honours, hblock]
      apply h.reached
      intro b' hb'
      cases hb'
      exact hindex
    · rw [if_pos hindex]
      apply Upholds.modify rfl
      apply Upholds.orRelease
      have hsaved : Upholds ref { t with block := none } (writeBack b)
          (fun _ t' => t'.Secures none (p.reach t.blockItems index) ∧ t'.block = none)
          (Refused (p.miss t.blockItems index)) := by
        apply (upholds_writeBack (h.recache none)).mono
        · intro _ t' _ hout
          have hclean : ∀ b' ∈ some { b with dirty := false }, b'.dirty = false := by
            intro b' hb'
            cases hb'
            rfl
          exact ⟨(hout.1.settled hclean _).forget hclean, hout.2⟩
        · intro e t' hitems hout
          obtain ⟨hdisk, hkept, hnone⟩ := hout
          have hlost := hkept.lost hindex
          rw [hitems] at hlost
          refine ⟨hdisk, ?_⟩
          rw [Honours, hnone]
          exact hlost
      apply hsaved.bind
      intro _ t' _ hout
      exact upholds_fetch_reach hout.1 hout.2 b.lease
  | none =>
    rw [hblock] at h
    have hreach := h.settled (by intro b hb; contradiction)
      (p.unsaved.filter (· / t.blockItems = index))
    rw [Upholds.get]
    apply Upholds.lift (Yields.provide _)
    intro _
    apply Upholds.lift (Yields.take _)
    intro lease
    exact Upholds.orRelease (upholds_fetch_reach hreach hblock lease)

end Tape

end BoundedMerge
