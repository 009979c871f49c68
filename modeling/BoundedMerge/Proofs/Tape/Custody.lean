import BoundedMerge.Proofs.Tape.Turns
import BoundedMerge.Proofs.Tape.Upholds

/-!
Reading, writing and saving, on a disk that may refuse anything. What is owed moves on with the
cursor: a record that is read is the one owed at its place, and a record whose write succeeds is
owed from then on. A call that fails stops at the cursor, where a refusal of the disk may have
cost what was unsaved in another block. Saving that succeeds leaves everything on the disk, and
saving that fails costs nothing.
-/

namespace BoundedMerge

open FixedWidth SiteM

variable {α β τ : Type}

namespace Pledge

/-- What is owed after a call failed at the cursor, where `lapse` says what becomes of it if the
disk refused to reach a block. -/
def failed (lapse : Nat → Nat → Pledge τ → Pledge τ) (items : Nat) (e : TapeError)
    (p : Pledge τ) : Pledge τ :=
  match e with
  | .disk _ => lapse items (p.offset / items) p
  | _ => p

def Owes (p : Pledge τ) (i : Nat) (x : τ) : Prop := ∀ y, p.record i = some y → x = y

def reads (items : Nat) : Nat → Pledge τ → Pledge τ
  | 0, p => p
  | count + 1, p => reads items count ((p.reach items (p.offset / items)).move (p.offset + 1))

def writes (items : Nat) : List τ → Pledge τ → Pledge τ
  | [], p => p
  | x :: xs, p => writes items xs ((p.reach items (p.offset / items)).put x)

def readsBack (items : Nat) (p : Pledge τ) : Pledge τ :=
  (p.move (p.offset - 1)).reach items ((p.offset - 1) / items)

@[simp] theorem offset_reads (items count : Nat) (p : Pledge τ) :
    (p.reads items count).offset = p.offset + count := by
  induction count generalizing p with
  | zero => rfl
  | succ count ih =>
    rw [reads, ih]
    simp only [move]
    omega

@[simp] theorem record_reads (items count : Nat) (p : Pledge τ) :
    (p.reads items count).record = p.record := by
  induction count generalizing p with
  | zero => rfl
  | succ count ih =>
    rw [reads, ih]
    rfl

@[simp] theorem size_reads (items count : Nat) (p : Pledge τ) :
    (p.reads items count).size = p.size := by
  induction count generalizing p with
  | zero => rfl
  | succ count ih =>
    rw [reads, ih]
    rfl

@[simp] theorem offset_writes (items : Nat) (xs : List τ) (p : Pledge τ) :
    (p.writes items xs).offset = p.offset + xs.length := by
  induction xs generalizing p with
  | nil => rfl
  | cons x xs ih =>
    rw [writes, ih, List.length_cons]
    simp only [put, reach]
    omega

end Pledge

namespace Tape

variable [FixedWidth τ] [CanonicalFixedWidth τ] {ref : Site} {t : Tape τ} {p : Pledge τ}

/-- The block at the cursor. -/
theorem upholds_loadHere (h : t.Honours p) :
    t.Upholds ref (load (p.offset / t.blockItems))
      (fun _ t' => t'.Honours (p.reach t.blockItems (p.offset / t.blockItems)) ∧
        ∃ b, t'.block = some b ∧ b.index = p.offset / t.blockItems)
      (fun e t' => t'.Honours (p.failed .miss t.blockItems e)) := by
  apply (upholds_load h (p.offset / t.blockItems)).mono
  · intro _ t' _ hout
    exact hout
  · intro e t' _ hout
    obtain ⟨⟨d, rfl⟩, hkept⟩ := hout
    exact hkept

/-- The record at the cursor. -/
theorem upholds_recordAt (h : t.Honours p) (hlt : p.offset < p.size) :
    t.Upholds ref (recordAt p.offset)
      (fun x t' => p.Owes p.offset x ∧
        t'.Honours (p.reach t.blockItems (p.offset / t.blockItems)))
      (fun e t' => t'.Honours (p.failed .miss t.blockItems e)) := by
  unfold recordAt
  rw [Upholds.get]
  apply (upholds_loadHere h).bind
  intro _ t' hitems hout
  obtain ⟨hkept, b, hblock, hindex⟩ := hout
  unfold Honours at hkept
  rw [hblock] at hkept
  unfold Upholds
  rw [withBlock_eq hblock]
  refine Meets.pure ⟨rfl, ?_, hkept.recache _⟩
  intro x hx
  have hget := hkept.cached b rfl p.offset hlt x hx (by rw [hindex, hitems])
  rw [← hget, hitems]

theorem upholds_read (h : t.Honours p) :
    t.Upholds ref read
      (fun x t' => p.Owes p.offset x ∧ t'.Honours (p.reads t.blockItems 1))
      (fun e t' => t'.Honours (p.failed .miss t.blockItems e)) := by
  unfold read
  rw [Upholds.get]
  by_cases hend : t.size ≤ t.offset
  · rw [if_pos hend]
    exact Upholds.throw h
  · rw [if_neg hend, h.offset_eq]
    have hlt : p.offset < p.size := by
      have hsize := h.size_eq
      have hoffset := h.offset_eq
      omega
    apply (upholds_recordAt h hlt).bind
    intro x t' _ hout
    apply Upholds.modify rfl
    apply Upholds.pure
    refine ⟨hout.1, ?_⟩
    rw [hout.2.offset_eq]
    exact hout.2.move _ hlt

theorem upholds_readBack (h : t.Honours p) :
    t.Upholds ref readBack
      (fun x t' => p.Owes (p.offset - 1) x ∧ t'.Honours (p.readsBack t.blockItems))
      (fun e t' => t'.Honours ((p.move t'.offset).failed .miss t.blockItems e)) := by
  have hoffset := h.offset_eq
  have hle := h.offset_le
  unfold readBack
  rw [Upholds.get]
  by_cases hstart : t.offset = 0
  · rw [if_pos hstart]
    apply Upholds.throw
    exact h.move _ (by omega)
  · rw [if_neg hstart]
    have hmove : Honours { t with offset := p.offset - 1 } (p.move (p.offset - 1)) :=
      h.move (p.offset - 1) (by omega)
    have hlt : (p.move (p.offset - 1)).offset < (p.move (p.offset - 1)).size := by
      simp only [Pledge.move]
      omega
    have hrecord : Upholds ref { t with offset := p.offset - 1 } (recordAt (p.offset - 1))
        (fun x t' => p.Owes (p.offset - 1) x ∧ t'.Honours (p.readsBack t.blockItems))
        (fun e t' => t'.Honours ((p.move t'.offset).failed .miss t.blockItems e)) := by
      apply (upholds_recordAt hmove hlt).mono
      · intro x t' _ hout
        exact hout
      · intro e t' _ hout
        have hplace : t'.offset = p.offset - 1 := by
          have hout' := Secures.offset_eq hout
          cases e <;> exact hout'
        rw [hplace]
        exact hout
    rw [hoffset]
    exact Upholds.set rfl hrecord

theorem upholds_next? (h : t.Honours p) :
    t.Upholds ref next?
      (fun x? t' => match x? with
        | some x => p.Owes p.offset x ∧ t'.Honours (p.reads t.blockItems 1)
        | none => t'.Honours p)
      (fun e t' => t'.Honours (p.failed .miss t.blockItems e)) := by
  unfold next?
  rw [Upholds.get]
  split
  · rw [map_eq_pure_bind]
    apply (upholds_read h).bind
    intro x t' _ hout
    exact Upholds.pure hout
  · exact Upholds.pure h

theorem upholds_readEach (h : t.Honours p) (count : Nat) :
    t.Upholds ref (readEach count)
      (fun xs t' => xs.length = count ∧
        (∀ (k : Nat) (hk : k < xs.length), p.Owes (p.offset + k) xs[k]) ∧
        t'.Honours (p.reads t.blockItems count))
      (fun e t' => ∃ k, t'.Honours ((p.reads t.blockItems k).failed .miss t.blockItems e)) := by
  induction count generalizing t p with
  | zero =>
    apply Upholds.pure
    exact ⟨rfl, fun k hk => absurd hk (Nat.not_lt_zero k), h⟩
  | succ count ih =>
    have hread : t.Upholds ref read
        (fun x t' => p.Owes p.offset x ∧ t'.Honours (p.reads t.blockItems 1))
        (fun e t' => ∃ k,
          t'.Honours ((p.reads t.blockItems k).failed .miss t.blockItems e)) := by
      apply (upholds_read h).mono
      · intro x t' _ hout
        exact hout
      · intro e t' _ hout
        exact ⟨0, hout⟩
    apply hread.bind
    intro x t' hitems hout
    obtain ⟨hx, hkept⟩ := hout
    have hrest := ih hkept
    rw [hitems] at hrest
    have hrest' : t'.Upholds ref (readEach count)
        (fun xs t'' => xs.length = count ∧
          (∀ (k : Nat) (hk : k < xs.length), p.Owes (p.offset + 1 + k) xs[k]) ∧
          t''.Honours (p.reads t.blockItems (count + 1)))
        (fun e t'' => ∃ k,
          t''.Honours ((p.reads t.blockItems k).failed .miss t.blockItems e)) := by
      apply hrest.mono
      · intro xs t'' _ hxs
        exact hxs
      · intro e t'' _ hk
        obtain ⟨k, hk⟩ := hk
        exact ⟨k + 1, hk⟩
    apply hrest'.bind
    intro xs t'' _ hxs
    obtain ⟨hlength, howed, hkept'⟩ := hxs
    apply Upholds.pure
    refine ⟨by rw [List.length_cons, hlength], ?_, hkept'⟩
    intro k hk
    cases k with
    | zero => exact hx
    | succ k =>
      rw [List.getElem_cons_succ, Nat.add_comm k 1, ← Nat.add_assoc]
      exact howed k _

theorem upholds_readArray (h : t.Honours p) (count : Nat) :
    t.Upholds ref (readArray count)
      (fun xs t' => xs.length = count ∧
        (∀ (k : Nat) (hk : k < xs.length), p.Owes (p.offset + k) xs[k]) ∧
        t'.Honours (p.reads t.blockItems count))
      (fun e t' => ∃ k, t'.Honours ((p.reads t.blockItems k).failed .miss t.blockItems e)) := by
  unfold readArray
  rw [Upholds.get]
  split
  · apply Upholds.throw
    exact ⟨0, h⟩
  · exact upholds_readEach h count

theorem upholds_write (h : t.Honours p) (x : τ) :
    t.Upholds ref (write x) (fun _ t' => t'.Honours (p.writes t.blockItems [x]))
      (fun e t' => t'.Honours (p.failed .miss t.blockItems e)) := by
  unfold write
  rw [Upholds.get, h.offset_eq]
  apply (upholds_loadHere h).bind
  intro _ t' hitems hout
  obtain ⟨hkept, b, hblock, hindex⟩ := hout
  unfold Honours at hkept
  rw [hblock, ← hitems] at hkept
  have hplace : t'.offset = p.offset := hkept.offset_eq
  rw [← hplace, ← hitems] at hindex
  have hwritten := (hkept.written hindex x).recache (some (b.set (t'.offset % t'.blockItems) x))
  have hput : p.writes t'.blockItems [x] =
      (p.reach t'.blockItems (p.offset / t'.blockItems)).put x := rfl
  rw [← hitems, hput, ← hplace]
  unfold Upholds
  simp only [Work.run_bind, withBlock_eq hblock, pure_bind, Work.run_modify]
  rw [← hplace] at hwritten
  exact Meets.pure ⟨rfl, hwritten⟩

theorem upholds_writeArray (h : t.Honours p) (xs : List τ) :
    t.Upholds ref (writeArray xs) (fun _ t' => t'.Honours (p.writes t.blockItems xs))
      (fun e t' => ∃ k ≤ xs.length,
        t'.Honours ((p.writes t.blockItems (xs.take k)).failed .miss t.blockItems e)) := by
  induction xs generalizing t p with
  | nil => exact Upholds.pure h
  | cons x xs ih =>
    have hwrite : t.Upholds ref (write x) (fun _ t' => t'.Honours (p.writes t.blockItems [x]))
        (fun e t' => ∃ k ≤ (x :: xs).length,
          t'.Honours ((p.writes t.blockItems ((x :: xs).take k)).failed .miss t.blockItems e)) := by
      apply (upholds_write h x).mono
      · intro _ t' _ hout
        exact hout
      · intro e t' _ hout
        exact ⟨0, Nat.zero_le _, hout⟩
    apply hwrite.bind
    intro _ t' hitems hout
    have hrest := ih hout
    rw [hitems] at hrest
    apply hrest.mono
    · intro _ t'' _ hkept
      exact hkept
    · intro e t'' _ hkept
      obtain ⟨k, hk, hkept⟩ := hkept
      exact ⟨k + 1, Nat.succ_le_succ hk, hkept⟩

omit [CanonicalFixedWidth τ] in
theorem upholds_seek (h : t.Honours p) (index : Nat) :
    t.Upholds ref (seek index) (fun _ t' => t'.Honours (p.move index))
      (fun _ t' => t'.Honours p) := by
  unfold seek
  rw [Upholds.get]
  split
  · exact Upholds.throw h
  · next hle =>
    rw [h.size_eq] at hle
    have hmove : Honours { t with offset := index } (p.move index) := h.move index (by omega)
    exact Meets.pure ⟨rfl, hmove⟩

/-- If it succeeds everything is on the disk. -/
theorem upholds_flush (h : t.Honours p) :
    t.Upholds ref flush
      (fun _ t' => t'.Honours p.saved ∧ t'.Secures none p.saved)
      (fun _ t' => t'.Honours p) := by
  unfold flush
  rw [Upholds.get]
  unfold Honours at h
  cases hblock : t.block with
  | none =>
    rw [hblock] at h
    have hsaved := h.settled (by intro b hb; contradiction) []
    apply Upholds.pure
    refine ⟨?_, hsaved⟩
    rw [Honours, hblock]
    exact hsaved
  | some b =>
    rw [hblock] at h
    have hback : t.Upholds ref (writeBack b)
        (fun _ t' => t'.Secures (some { b with dirty := false }) p.saved)
        (fun _ t' => t'.Honours p) := by
      apply (upholds_writeBack h).mono
      · intro _ t' _ hout
        exact hout.1
      · intro e t' _ hout
        rw [Honours, hout.2.2, hblock]
        exact hout.2.1
    apply hback.bind
    intro _ t' _ hout
    have hclean : ∀ b' ∈ some { b with dirty := false }, b'.dirty = false := by
      intro b' hb'
      cases hb'
      rfl
    exact Upholds.modify rfl
      (Upholds.pure ⟨hout.recache _, (hout.forget hclean).recache _⟩)

/-- If it succeeds no block is cached. -/
theorem upholds_releaseBlock (h : t.Honours p) :
    t.Upholds ref releaseBlock
      (fun _ t' => t'.Secures none p.saved ∧ t'.block = none)
      (fun _ t' => t'.Honours p) := by
  unfold releaseBlock
  apply (upholds_flush h).bind
  intro _ t' _ hout
  rw [Upholds.get]
  have hnone : Secures { t' with block := none } none p.saved := hout.2.recache none
  apply Upholds.modify rfl
  cases t'.block with
  | none => exact Upholds.pure ⟨hnone, rfl⟩
  | some b => exact Meets.run_liftM ((Yields.release b.lease).mono fun _ _ => ⟨rfl, hnone, rfl⟩)

theorem upholds_truncate (h : t.Honours p) (size : Nat) :
    t.Upholds ref (truncate size) (fun _ t' => t'.Honours (p.truncate size))
      (fun _ t' => t'.Honours p) := by
  unfold truncate
  apply (upholds_releaseBlock h).bind
  intro _ t' _ hout
  obtain ⟨hsaved, hblock⟩ := hout
  apply Upholds.lift (Yields.count _)
  intro _
  unfold Upholds
  simp only [Work.run_bind, onDisk_eq, pure_bind]
  rcases t'.disk.resize_cases (size * width τ) with ⟨e, herror, hbytes⟩ | ⟨hok, hbytes⟩
  · rw [herror]
    have hkept : t'.Secures none p := hsaved.settled (by intro b hb; contradiction) p.unsaved
    have hsame : Honours { t' with disk := (t'.disk.resize (size * width τ)).2 } p := by
      rw [Honours, hblock]
      exact (hkept.redisk hbytes).recache none
    exact Meets.pure ⟨rfl, hsame⟩
  · rw [hok]
    have hcut : Honours { t' with
        disk := (t'.disk.resize (size * width τ)).2
        size, offset := min t'.offset size } (p.truncate size) := by
      rw [Honours, hblock]
      exact ((hsaved.truncated size).redisk hbytes).recache none
    exact Meets.pure ⟨rfl, hcut⟩

end Tape

end BoundedMerge
