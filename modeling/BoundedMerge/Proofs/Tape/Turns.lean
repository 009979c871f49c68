import BoundedMerge.Proofs.Site.Yields
import BoundedMerge.Proofs.Tape.Keeps

/-!
The operations of a tape, on a disk that refuses nothing. Each of them gives what its namesake
gives for the reel that the tape shows, and leaves the tape showing what that reel has become,
whatever the size of a block and whichever block is cached.
-/

namespace BoundedMerge.Tape

open FixedWidth SiteM

variable {α τ : Type} {ref : Site} {t : Tape τ} {b : Block τ} {r : Reel τ}

/-- The requests that a reliable disk serves. -/
theorem onDisk_read (h : t.disk.Reliable) (offset count : Nat) :
    (onDisk (Disk.read offset count) : TapeM τ (Array UInt8)) t =
      (pure (.ok (t.disk.bytes.read offset count),
        { t with disk := { t.disk with requests := t.disk.requests + 1 } }) : SiteM _) := by
  simp [onDisk, h.dependable.read_eq]

theorem onDisk_write (h : t.disk.Reliable) (offset : Nat) (data : List UInt8) :
    (onDisk (Disk.write offset data) : TapeM τ Unit) t =
      (pure (.ok (), { t with disk := { t.disk with
        bytes := t.disk.bytes.write offset data, requests := t.disk.requests + 1 } }) :
          SiteM _) := by
  simp [onDisk, h.dependable.write_eq]

theorem onDisk_resize (h : t.disk.Reliable) (size : Nat) :
    (onDisk (Disk.resize size) : TapeM τ Unit) t =
      (pure (.ok (), { t with disk := { t.disk with
        bytes := t.disk.bytes.resize size, requests := t.disk.requests + 1 } }) : SiteM _) := by
  simp [onDisk, Disk.resize_of_reliable _ h]

theorem withBlock_eq (h : t.block = some b) (work : Block τ → α × Block τ) :
    (withBlock work : TapeM τ α) t =
      (pure (.ok (work b).1, { t with block := some (work b).2 }) : SiteM _) := by
  simp [withBlock, h]

variable [FixedWidth τ]

/-- Work on the tape that gives `result` and leaves the tape showing `r`, with blocks of the same
size. -/
def Turns (ref : Site) (t : Tape τ) (work : TapeM τ α) (result : Except TapeError α)
    (r : Reel τ) : Prop :=
  Yields ref (work t) fun out =>
    out.1 = result ∧ out.2.Shows r ∧ out.2.blockItems = t.blockItems

theorem Turns.bind {β : Type} {work : TapeM τ α} {next : α → TapeM τ β} {a : α}
    {result : Except TapeError β} {r' : Reel τ} (h : t.Turns ref work (.ok a) r)
    (hnext : ∀ t' : Tape τ, t'.Shows r → t'.Turns ref (next a) result r') :
    t.Turns ref (work >>= next) result r' := by
  refine Meets.run_bind h ?_ ?_
  · rintro _ t' ⟨⟨⟩, hshows, hitems⟩
    refine (hnext t' hshows).mono ?_
    rintro out ⟨hout, hafter, hsame⟩
    exact ⟨hout, hafter, hsame.trans hitems⟩
  · rintro e t' ⟨⟨⟩, _⟩

theorem Turns.pure {a : α} (h : t.Shows r) : t.Turns ref (pure a) (.ok a) r :=
  Meets.pure ⟨rfl, h, rfl⟩

theorem Turns.throw {e : TapeError} (h : t.Shows r) :
    t.Turns ref (throw e : TapeM τ α) (.error e) r :=
  Meets.pure ⟨rfl, h, rfl⟩

theorem Turns.get {work : Tape τ → TapeM τ α} {result : Except TapeError α} :
    t.Turns ref (get >>= work) result r ↔ t.Turns ref (work t) result r := Iff.rfl

theorem Turns.modify {f : Tape τ → Tape τ} {work : TapeM τ α} {result : Except TapeError α}
    (hitems : (f t).blockItems = t.blockItems) (h : (f t).Turns ref work result r) :
    t.Turns ref (do modify f; work) result r := by
  refine Meets.mono h ?_
  rintro out ⟨hout, hshows, hsame⟩
  exact ⟨hout, hshows, hsame.trans hitems⟩

theorem Turns.set {t' : Tape τ} {work : TapeM τ α} {result : Except TapeError α}
    (hitems : t'.blockItems = t.blockItems) (h : t'.Turns ref work result r) :
    t.Turns ref (do set t'; work) result r := by
  refine Meets.mono h ?_
  rintro out ⟨hout, hshows, hsame⟩
  exact ⟨hout, hshows, hsame.trans hitems⟩

variable [LawfulFixedWidth τ]

theorem yields_writeBack (h : t.Keeps (some b) r) :
    Yields ref ((writeBack b : TapeM τ Unit) t) fun out =>
      out.1 = .ok () ∧ out.2.Keeps (some { b with dirty := false }) r ∧
        out.2.block = t.block ∧ out.2.blockItems = t.blockItems := by
  unfold writeBack
  rw [Work.run_ite]
  split
  · simp only [Work.run_bind, Work.run_get, pure_bind, onDisk_write h.reliable]
    exact Meets.pure ⟨rfl, h.saved.served _, rfl, rfl⟩
  · next hdirty =>
    have hclean : { b with dirty := false } = b := by
      rw [Bool.not_eq_true] at hdirty
      rw [← hdirty]
    rw [Work.run_pure, hclean]
    exact Meets.pure ⟨rfl, h, rfl, rfl⟩

def Caches (t : Tape τ) (index : Nat) (r : Reel τ) : Prop :=
  t.Shows r ∧ ∃ b, t.block = some b ∧ b.index = index

omit [LawfulFixedWidth τ] in
theorem yields_fetch (h : t.Keeps none r) (index : Nat) (lease : Lease) :
    Yields ref ((fetch index lease : TapeM τ Unit) t) fun out =>
      out.1 = .ok () ∧ out.2.Caches index r ∧ out.2.blockItems = t.blockItems := by
  unfold fetch
  simp only [Work.run_bind, Work.run_get, Work.run_modify, pure_bind, onDisk_read h.reliable]
  exact Meets.pure
    ⟨rfl, ⟨((h.fetched index lease).served _).recache _, _, rfl, rfl⟩, rfl⟩

omit [FixedWidth τ] [LawfulFixedWidth τ] in
/-- The lease is not touched unless the work fails. -/
theorem yields_orRelease {lease : Lease} {work : TapeM τ Unit}
    {Q : Except TapeError Unit × Tape τ → Prop} (h : Yields ref (work t) Q)
    (hok : ∀ out, Q out → out.1 = .ok ()) : Yields ref ((orRelease lease work) t) Q := by
  refine h.run_tryCatch (fun _ _ hout => hout) ?_
  intro e t' hout
  have := hok _ hout
  contradiction

theorem yields_load (h : t.Shows r) (index : Nat) :
    Yields ref ((load index : TapeM τ Unit) t) fun out =>
      out.1 = .ok () ∧ out.2.Caches index r ∧ out.2.blockItems = t.blockItems := by
  unfold load
  simp only [Work.run_bind, Work.run_get, pure_bind]
  unfold Shows at h
  cases hblock : t.block with
  | some b =>
    rw [hblock] at h
    simp only [Work.run_ite]
    split
    · simp only [Work.run_bind, Work.run_modify, pure_bind]
      refine yields_orRelease ?_ (fun _ hout => hout.1)
      refine Meets.run_bind (yields_writeBack (h.recache none)) ?_ ?_
      · rintro _ t' ⟨_, hkeeps, _, hitems⟩
        refine (yields_fetch (hkeeps.forget rfl) index b.lease).mono ?_
        rintro out ⟨hok, hcaches, hout⟩
        exact ⟨hok, hcaches, hout.trans hitems⟩
      · rintro e t' ⟨hout, _⟩
        contradiction
    · next hindex =>
      rw [Work.run_pure]
      refine Meets.pure ⟨rfl, ⟨?_, b, hblock, by simpa using hindex⟩, rfl⟩
      rw [Shows, hblock]
      exact h
  | none =>
    rw [hblock] at h
    simp only [Work.run_bind, Work.run_liftM, bind_assoc, pure_bind]
    refine (Yields.provide _).bind fun _ _ => ?_
    refine (Yields.take _).bind fun lease _ => ?_
    exact yields_orRelease (yields_fetch h index lease) (fun _ hout => hout.1)

theorem turns_recordAt (h : t.Shows r) (i : Nat) (x : τ) (hx : r.records[i]? = some x) :
    t.Turns ref (recordAt i) (.ok x) r := by
  unfold Turns recordAt
  simp only [Work.run_bind, Work.run_get, pure_bind]
  refine (yields_load h (i / t.blockItems)).bind ?_
  rintro ⟨_, t'⟩ ⟨rfl, ⟨hshows, b, hblock, hindex⟩, hitems⟩
  simp only at hblock hitems hshows ⊢
  have hget : b.get (i % t'.blockItems) = x := by
    rw [Shows, hblock] at hshows
    exact hshows.cached b rfl i x hx (by rw [hindex, hitems])
  rw [hitems] at hget
  rw [withBlock_eq hblock]
  refine Meets.pure ⟨by rw [hget], ?_, hitems⟩
  rw [Shows, hblock] at hshows
  exact hshows.recache _

omit [LawfulFixedWidth τ] in
/-- Moving the cursor of tape and reel to the same place. -/
theorem Shows.move (h : t.Shows r) (offset : Nat) (hle : offset ≤ r.records.length) :
    Shows { t with offset } { records := r.records, offset, offset_le := hle } :=
  ⟨h.width_pos, h.items_pos, h.reliable, h.trim, h.size_eq, rfl, h.bounded, h.stored, h.cached⟩

theorem turns_read (h : t.Shows r) : t.Turns ref read r.read.1 r.read.2 := by
  unfold read
  rw [Turns.get]
  by_cases hend : r.offset < r.records.length
  · rw [Reel.read, dif_pos hend, if_neg (by rw [h.size_eq, h.offset_eq]; omega), h.offset_eq]
    refine (turns_recordAt h r.offset _ (List.getElem?_eq_getElem hend)).bind fun t' hshows => ?_
    refine Turns.modify rfl (Turns.pure ?_)
    rw [hshows.offset_eq]
    exact hshows.move _ hend
  · rw [Reel.read, dif_neg hend, if_pos (by rw [h.size_eq, h.offset_eq]; omega)]
    exact Turns.throw h

theorem turns_next? (h : t.Shows r) : t.Turns ref next? r.next?.1 r.next?.2 := by
  unfold next?
  rw [Turns.get]
  by_cases hend : r.offset < r.records.length
  · have hread : t.canRead = true := by simpa [canRead, h.size_eq, h.offset_eq] using hend
    rw [Reel.next?, dif_pos hend, if_pos hread, map_eq_pure_bind]
    have hturns : t.Turns ref read r.read.1 r.read.2 := turns_read h
    rw [Reel.read, dif_pos hend] at hturns
    exact hturns.bind fun _ hshows => Turns.pure hshows
  · have hread : ¬ t.canRead = true := by simpa [canRead, h.size_eq, h.offset_eq] using hend
    rw [Reel.next?, dif_neg hend, if_neg hread]
    exact Turns.pure h

theorem turns_readBack (h : t.Shows r) : t.Turns ref readBack r.readBack.1 r.readBack.2 := by
  have hle := r.offset_le
  unfold readBack
  rw [Turns.get]
  by_cases hstart : 0 < r.offset
  · rw [Reel.readBack, dif_pos hstart, if_neg (by rw [h.offset_eq]; omega), h.offset_eq]
    have hmove := h.move (r.offset - 1) (by omega)
    have hlt : r.offset - 1 < r.records.length := by omega
    exact Turns.set rfl
      (turns_recordAt hmove (r.offset - 1) _ (List.getElem?_eq_getElem hlt))
  · rw [Reel.readBack, dif_neg hstart, if_pos (by rw [h.offset_eq]; omega)]
    exact Turns.throw h

theorem turns_readEach (h : t.Shows r) (count : Nat) (hle : r.offset + count ≤ r.records.length) :
    t.Turns ref (readEach count) (.ok (r.rest.take count)) (r.skip count hle) := by
  induction count generalizing t r with
  | zero => exact Turns.pure h
  | succ count ih =>
    have hend : r.offset < r.records.length := by omega
    have hturns : t.Turns ref read r.read.1 r.read.2 := turns_read h
    have hnext : (r.skip 1 hend).offset + count ≤ (r.skip 1 hend).records.length := by
      rw [Reel.skip_offset, Reel.skip_records]
      omega
    have hrest : r.rest.take (count + 1) =
        r.records[r.offset] :: (r.skip 1 hend).rest.take count := by
      rw [Reel.rest, List.drop_eq_getElem_cons hend]
      rfl
    have hskip : r.skip (count + 1) hle = (r.skip 1 hend).skip count hnext := by
      ext1
      · rfl
      · simp only [Reel.skip_offset]
        omega
    rw [Reel.read, dif_pos hend] at hturns
    rw [hrest, hskip]
    refine hturns.bind fun t' hshows => (ih hshows hnext).bind fun _ hshows' => Turns.pure hshows'

theorem turns_readArray (h : t.Shows r) (count : Nat) :
    t.Turns ref (readArray count) (r.readArray count).1 (r.readArray count).2 := by
  have hle := r.offset_le
  unfold readArray
  rw [Turns.get]
  by_cases hend : r.offset + count ≤ r.records.length
  · rw [Reel.readArray, dif_pos hend, if_neg (by rw [h.size_eq, h.offset_eq]; omega)]
    exact turns_readEach h count hend
  · rw [Reel.readArray, dif_neg hend, if_pos (by rw [h.size_eq, h.offset_eq]; omega)]
    exact Turns.throw h

theorem turns_write (h : t.Shows r) (x : τ) : t.Turns ref (write x) (.ok ()) (r.write x) := by
  unfold Turns write
  simp only [Work.run_bind, Work.run_get, pure_bind]
  refine (yields_load h (t.offset / t.blockItems)).bind ?_
  rintro ⟨_, t'⟩ ⟨rfl, ⟨hshows, b, hblock, hindex⟩, hitems⟩
  simp only at hblock hitems hshows ⊢
  rw [withBlock_eq hblock, pure_bind]
  refine Meets.pure ⟨rfl, ?_, hitems⟩
  have hoffset : t.offset = t'.offset := by rw [h.offset_eq, hshows.offset_eq]
  rw [Shows, hblock] at hshows
  rw [hoffset, ← hitems] at hindex ⊢
  exact (hshows.written hindex x).recache _

theorem turns_writeArray (h : t.Shows r) (xs : List τ) :
    t.Turns ref (writeArray xs) (.ok ()) (r.writeArray xs) := by
  induction xs generalizing t r with
  | nil =>
    rw [Reel.writeArray_nil]
    exact Turns.pure h
  | cons x xs ih =>
    rw [← Reel.write_writeArray]
    exact (turns_write h x).bind fun _ hshows => ih hshows

omit [LawfulFixedWidth τ] in
theorem turns_seek (h : t.Shows r) (index : Nat) :
    t.Turns ref (seek index) (r.seek index).1 (r.seek index).2 := by
  unfold seek
  rw [Turns.get]
  by_cases hend : index ≤ r.records.length
  · rw [Reel.seek, dif_pos hend, if_neg (by rw [h.size_eq]; omega)]
    exact Meets.pure ⟨rfl, h.move index hend, rfl⟩
  · rw [Reel.seek, dif_neg hend, if_pos (by rw [h.size_eq]; omega), h.size_eq]
    exact Turns.throw h

/-- Afterwards the disk has every record. -/
theorem yields_flush (h : t.Shows r) :
    Yields ref ((flush : TapeM τ Unit) t) fun out =>
      out.1 = .ok () ∧ out.2.Shows r ∧ out.2.Keeps none r ∧
        out.2.blockItems = t.blockItems := by
  unfold flush
  simp only [Work.run_bind, Work.run_get, pure_bind]
  unfold Shows at h
  cases hblock : t.block with
  | none =>
    rw [hblock] at h
    refine Meets.pure ⟨rfl, ?_, h, rfl⟩
    rw [Shows, hblock]
    exact h
  | some b =>
    rw [hblock] at h
    simp only [Work.run_bind]
    refine (yields_writeBack h).bind ?_
    rintro ⟨_, t'⟩ ⟨rfl, hkeeps, _, hitems⟩
    simp only at hkeeps hitems ⊢
    exact Meets.pure ⟨rfl, hkeeps.recache _, (hkeeps.forget rfl).recache _, hitems⟩

theorem turns_flush (h : t.Shows r) : t.Turns ref flush (.ok ()) r :=
  (yields_flush h).mono fun _ hout => ⟨hout.1, hout.2.1, hout.2.2.2⟩

/-- Afterwards no block is cached. -/
theorem yields_releaseBlock (h : t.Shows r) :
    Yields ref ((releaseBlock : TapeM τ Unit) t) fun out =>
      out.1 = .ok () ∧ out.2.Shows r ∧ out.2.block = none ∧
        out.2.blockItems = t.blockItems := by
  unfold releaseBlock
  simp only [Work.run_bind, Work.run_get, pure_bind]
  refine (yields_flush h).bind ?_
  rintro ⟨_, t'⟩ ⟨rfl, _, hkeeps, hitems⟩
  simp only at hkeeps hitems ⊢
  cases t'.block with
  | none => exact Meets.pure ⟨rfl, hkeeps.recache none, rfl, hitems⟩
  | some b =>
    refine Meets.run_liftM ((Yields.release b.lease).mono fun _ _ => ?_)
    exact ⟨rfl, hkeeps.recache none, rfl, hitems⟩

theorem turns_releaseBlock (h : t.Shows r) : t.Turns ref releaseBlock (.ok ()) r :=
  (yields_releaseBlock h).mono fun _ hout => ⟨hout.1, hout.2.1, hout.2.2.2⟩

theorem turns_truncate (h : t.Shows r) (size : Nat) :
    t.Turns ref (truncate size) (.ok ()) (r.truncate size) := by
  unfold Turns truncate
  simp only [Work.run_bind, Work.run_liftM, bind_assoc, pure_bind]
  refine (yields_releaseBlock h).bind ?_
  rintro ⟨_, t'⟩ ⟨rfl, hshows, hblock, hitems⟩
  simp only at hshows hblock hitems ⊢
  refine (Yields.count _).bind fun _ _ => ?_
  rw [onDisk_resize hshows.reliable, pure_bind]
  refine Meets.pure ⟨rfl, ?_, hitems⟩
  rw [Shows, hblock] at hshows
  rw [Shows, hblock]
  exact ((hshows.truncated size).served (t'.disk.requests + 1)).recache none

/-- A tape that is closed leaves all its records on the disk. -/
theorem yields_close (h : t.Shows r) :
    Yields ref t.close fun d => ∀ i x, r.records[i]? = some x → d.bytes.record τ i = x := by
  unfold close
  refine (yields_flush h).bind ?_
  rintro ⟨_, t'⟩ ⟨rfl, _, hkeeps, _⟩
  have hstored : ∀ i x, r.records[i]? = some x → t'.disk.bytes.record τ i = x :=
    fun i x hx => (hkeeps.stored i x hx (by simp)).2
  simp only
  cases t'.block with
  | none => exact Meets.pure hstored
  | some b => exact (Yields.release b.lease).bind fun _ _ => Meets.pure hstored

omit [LawfulFixedWidth τ] in
theorem yields_temporary (hwidth : 0 < width τ) (hscratch : ref.scratch.Sound)
    (blockSize : Nat) :
    Yields ref (temporary blockSize : SiteM (Except TapeError (Tape τ))) fun out =>
      ∃ t : Tape τ, out = .ok t ∧ t.Shows Reel.empty ∧ t.block = none ∧
        t.blockItems = itemsPerBlock (width τ) blockSize := by
  unfold temporary
  refine (Yields.newFile (Q := fun made => ∃ d, made = .ok d ∧ d.Fresh) hscratch).bind ?_
  rintro _ ⟨d, rfl, hfresh⟩
  refine (Yields.assert .emptyRecord (by simpa using hwidth)).bind fun _ _ => ?_
  refine Meets.pure ⟨_, rfl, ?_, rfl, rfl⟩
  refine ⟨hwidth, ?_, hfresh.reliable, hfresh.trim, rfl, rfl, ?_, ?_, ?_⟩
  · exact Nat.lt_of_lt_of_le Nat.one_pos (Nat.le_max_left 1 _)
  · simp only [ofDisk, hfresh.size_eq, Nat.zero_le]
  · intro i x hx
    simp [Reel.empty] at hx
  · intro b hb
    simp [ofDisk] at hb

end BoundedMerge.Tape
