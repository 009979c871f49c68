import BoundedMerge.Proofs.Tape.Custody

/-!
A tape at rest: everything that it owes is on its disk, and the disk serves every read that begins
within its bytes. Such a tape can be read without failure and stays at rest. A file that is opened
is at rest, and the records read are those that its bytes stand for.
-/

namespace BoundedMerge

open FixedWidth SiteM

variable {τ : Type}

namespace Disk

/-- Every read that begins within the bytes is served, however many requests were made before. -/
def Serves (d : Disk) : Prop :=
  ∀ requests offset count, offset ≤ d.bytes.size →
    ({ d with requests }.read offset count).1 = .ok (d.bytes.read offset count)

/-- A file that refuses only what is beyond the longest file, and is not longer itself. -/
structure Regular (d : Disk) : Prop where
  refuse_none : ∀ n r, d.refuse n r = none
  fits : ∀ longest ∈ d.longest, d.bytes.size ≤ longest

theorem Regular.serves {d : Disk} (h : d.Regular) : d.Serves := by
  intro requests offset count hoffset
  have hfit : (d.longest.bind fun longest => misfit? longest (.read offset count)) = none := by
    cases hlongest : d.longest with
    | none => rfl
    | some longest =>
      have hle := h.fits longest (by rw [hlongest]; rfl)
      exact if_neg (by omega)
  simp only [read, serve, h.refuse_none, hfit, Option.or_none]

theorem Serves.read_eq {d : Disk} (h : d.Serves) {offset count : Nat}
    (hoffset : offset ≤ d.bytes.size) : d.read offset count =
      (.ok (d.bytes.read offset count), { d with requests := d.requests + 1 }) := by
  have hok := h d.requests offset count hoffset
  unfold read serve at hok ⊢
  dsimp only at hok ⊢
  split at hok
  · cases hok
  · rfl

end Disk

def SparseBytes.records (τ : Type) [FixedWidth τ] (b : SparseBytes) : List τ :=
  List.ofFn fun i : Fin (b.size / width τ) => b.record τ i

namespace Tape

variable [FixedWidth τ] {ref : Site} {t : Tape τ} {records : List τ}

/-- The records stand on the disk, which can be read, and no block was changed. -/
structure Rests (t : Tape τ) (records : List τ) : Prop where
  width_pos : 0 < width τ
  items_pos : 0 < t.blockItems
  serves : t.disk.Serves
  size_eq : t.size = records.length
  full : t.size * width τ ≤ t.disk.bytes.size
  stored : ∀ (i : Nat) (h : i < records.length), t.disk.bytes.record τ i = records[i]
  clean : ∀ b ∈ t.block, b.dirty = false
  cached : ∀ b ∈ t.block, ∀ (i : Nat) (h : i < records.length), i / t.blockItems = b.index →
    b.get (i % t.blockItems) = records[i]

theorem Rests.move (h : t.Rests records) (offset : Nat) : Rests { t with offset } records :=
  ⟨h.width_pos, h.items_pos, h.serves, h.size_eq, h.full, h.stored, h.clean, h.cached⟩

theorem Rests.uncache (h : t.Rests records) : Rests { t with block := none } records :=
  ⟨h.width_pos, h.items_pos, h.serves, h.size_eq, h.full, h.stored, nofun, nofun⟩

def RestsAt (t : Tape τ) (index : Nat) (records : List τ) : Prop :=
  t.Rests records ∧ ∃ b, t.block = some b ∧ b.index = index

/-- The block of a record begins within the bytes. -/
theorem Rests.begins (h : t.Rests records) {i : Nat} (hi : i < t.size) :
    i / t.blockItems * t.blockSize ≤ t.disk.bytes.size := by
  refine le_trans ?_ h.full
  rw [blockSize, ← Nat.mul_assoc]
  exact Nat.mul_le_mul_right _ ((Nat.div_mul_le_self i t.blockItems).trans hi.le)

theorem upholds_fetch_rests (h : t.Rests records) {i : Nat} (hi : i < t.size) (lease : Lease) :
    t.Upholds ref (fetch (i / t.blockItems) lease)
      (fun _ t' => t'.RestsAt (i / t.blockItems) records ∧ t'.offset = t.offset)
      (fun _ _ => False) := by
  unfold Upholds fetch
  simp only [Work.run_bind, Work.run_get, pure_bind, onDisk_eq, h.serves.read_eq (h.begins hi),
    Except.mapError, Work.run_modify]
  refine Meets.pure ⟨rfl, ⟨⟨h.width_pos, h.items_pos, h.serves, h.size_eq, h.full, h.stored, ?_,
    ?_⟩, _, rfl, rfl⟩, rfl⟩
  · intro b hb
    cases hb
    rfl
  · intro b hb j hj hin
    cases hb
    have hplace := place_of_index hin
    have hend : (j + 1) * width τ ≤ t.disk.bytes.size :=
      (Nat.mul_le_mul_right _ (by rw [h.size_eq]; exact hj)).trans h.full
    rw [← h.stored j hj]
    simp only [Block.get, blockSize, ← Nat.mul_assoc]
    rw [SparseBytes.decodeAll_read _ _ _ _ h.width_pos (Nat.mod_lt j h.items_pos), ← hplace]
    rwa [← hplace]

theorem upholds_load_rests (h : t.Rests records) {i : Nat} (hi : i < t.size) :
    t.Upholds ref (load (i / t.blockItems))
      (fun _ t' => t'.RestsAt (i / t.blockItems) records ∧ t'.offset = t.offset)
      (fun _ _ => False) := by
  unfold load
  rw [Upholds.get]
  cases hblock : t.block with
  | some b =>
    simp only
    by_cases hindex : b.index = i / t.blockItems
    · rw [if_neg (not_not.mpr hindex)]
      exact Upholds.pure ⟨⟨h, b, hblock, hindex⟩, rfl⟩
    · rw [if_pos hindex]
      apply Upholds.modify rfl
      apply Upholds.orRelease
      have hsaved : writeBack b = (pure () : TapeM τ Unit) := by
        unfold writeBack
        rw [h.clean b (by rw [hblock]; rfl)]
        rfl
      rw [hsaved, pure_bind]
      exact upholds_fetch_rests h.uncache hi b.lease
  | none =>
    rw [Upholds.get]
    apply Upholds.lift (Yields.provide _)
    intro _
    apply Upholds.lift (Yields.take _)
    intro lease
    exact Upholds.orRelease (upholds_fetch_rests h hi lease)

/-- The record at the cursor is read, and the cursor moves past it. -/
theorem upholds_read_rests (h : t.Rests records) (hlt : t.offset < records.length) :
    t.Upholds ref read
      (fun x t' => x = records[t.offset] ∧ t'.Rests records ∧ t'.offset = t.offset + 1)
      (fun _ _ => False) := by
  have hsize : t.offset < t.size := by
    rw [h.size_eq]
    exact hlt
  unfold read
  rw [Upholds.get, if_neg (Nat.not_le.mpr hsize)]
  have hrecord : t.Upholds ref (recordAt t.offset)
      (fun x t' => x = records[t.offset] ∧ t'.Rests records ∧ t'.offset = t.offset)
      (fun _ _ => False) := by
    unfold recordAt
    rw [Upholds.get]
    apply (upholds_load_rests h hsize).bind
    intro _ t' hitems hout
    obtain ⟨⟨hrests, b, hblock, hindex⟩, hoffset⟩ := hout
    unfold Upholds
    rw [withBlock_eq hblock]
    refine Meets.pure ⟨rfl, ?_, ?_, hoffset⟩
    · rw [← hitems] at hindex ⊢
      exact hrests.cached b (by rw [hblock]; rfl) t.offset hlt hindex.symm
    · rwa [← hblock]
  apply hrecord.bind
  intro x t' _ hout
  obtain ⟨hx, hrests, hoffset⟩ := hout
  apply Upholds.modify rfl
  apply Upholds.pure
  exact ⟨hx, hrests.move _, congrArg (· + 1) hoffset⟩

theorem upholds_readEach_rests (h : t.Rests records) (count : Nat)
    (hle : t.offset + count ≤ records.length) :
    t.Upholds ref (readEach count)
      (fun xs t' => xs = (records.drop t.offset).take count ∧ t'.Rests records)
      (fun _ _ => False) := by
  induction count generalizing t with
  | zero => exact Upholds.pure ⟨List.take_zero.symm, h⟩
  | succ count ih =>
    have hlt : t.offset < records.length := by omega
    unfold readEach
    apply (upholds_read_rests h hlt).bind
    intro x t' _ hout
    obtain ⟨rfl, hrests, hoffset⟩ := hout
    have hrest := ih hrests (by omega)
    rw [hoffset] at hrest
    apply hrest.bind
    intro xs t'' _ hout
    obtain ⟨rfl, hafter⟩ := hout
    apply Upholds.pure
    refine ⟨?_, hafter⟩
    rw [List.drop_eq_getElem_cons hlt, List.take_succ_cons]

/-- The tape gives these records when it is read from the cursor to the end, and each of them when
it is read at its place. -/
structure Delivers (ref : Site) (t : Tape τ) (records : List τ) : Prop where
  size_eq : t.size = records.length
  readRest : Yields ref ((readRest : TapeM τ (List τ)) t) fun out => out.1 = .ok records
  readAt : ∀ (i : Nat) (h : i < records.length),
    Yields ref ((do seek i; read : TapeM τ τ) t) fun out => out.1 = .ok records[i]

theorem Rests.delivers (h : t.Rests records) (hoffset : t.offset = 0) :
    t.Delivers ref records := by
  have hcount : t.size - t.offset = records.length := by
    rw [hoffset, h.size_eq, Nat.sub_zero]
  have hall : t.Upholds ref (readEach (t.size - t.offset)) _ _ :=
    upholds_readEach_rests h (t.size - t.offset) (by omega)
  refine ⟨h.size_eq, Meets.mono hall ?_, fun i hi => ?_⟩
  · intro out hout
    obtain ⟨outcome, t'⟩ := out
    cases outcome with
    | error e => exact hout.2.elim
    | ok xs =>
      have hxs : xs = (records.drop t.offset).take (t.size - t.offset) := hout.2.1
      rw [hcount, hoffset, List.drop_zero, List.take_length] at hxs
      exact congrArg Except.ok hxs
  · have hseek : t.Upholds ref (seek i) (fun _ t' => t'.Rests records ∧ t'.offset = i)
        (fun _ _ => False) := by
      unfold seek
      have hle : ¬ t.size < i := by
        rw [h.size_eq]
        omega
      rw [Upholds.get, if_neg hle]
      exact Meets.pure ⟨rfl, h.move i, rfl⟩
    have hread : t.Upholds ref (do seek i; read) (fun x _ => x = records[i])
        (fun _ _ => False) := by
      apply hseek.bind
      intro _ t' _ hout
      obtain ⟨hrests, rfl⟩ := hout
      apply (upholds_read_rests hrests hi).mono
      · exact fun x t'' _ hout => hout.1
      · exact fun _ _ _ hout => hout
    apply Meets.mono hread
    intro out hout
    obtain ⟨outcome, t'⟩ := out
    cases outcome with
    | error e => exact hout.2.elim
    | ok x => exact congrArg Except.ok hout.2

/-- A file that is opened. -/
theorem rests_ofDisk (hwidth : 0 < width τ) {disk : Disk} (hserves : disk.Serves)
    (path : Option String) (blockSize : Nat) :
    (ofDisk disk path blockSize : Tape τ).Rests (disk.bytes.records τ) := by
  refine ⟨hwidth, Nat.le_max_left _ _, hserves, List.length_ofFn.symm, Nat.div_mul_le_self _ _, ?_,
    nofun, nofun⟩
  intro i hi
  simp only [SparseBytes.records, List.getElem_ofFn]
  rfl

/-- A file is opened exactly if its bytes are those of whole records, and then it is read as the
records that its bytes stand for. -/
theorem yields_openNamed (hwidth : 0 < width τ) (path : String) (disk : Disk) (blockSize : Nat) :
    Yields ref (openNamed path (.ok disk) blockSize : SiteM (Except TapeError (Tape τ)))
      fun out =>
        (width τ ∣ disk.bytes.size → ∃ t, out = .ok t ∧ t.size * width τ = disk.bytes.size ∧
          (disk.Serves → t.Delivers ref (disk.bytes.records τ))) ∧
        (¬ width τ ∣ disk.bytes.size →
          out = .error (.disk (.ragged path disk.bytes.size (width τ)))) := by
  unfold openNamed
  refine (Yields.assert _ (decide_eq_true hwidth)).bind fun _ _ => ?_
  dsimp only
  by_cases hwhole : width τ ∣ disk.bytes.size
  · rw [if_neg (not_not.mpr (Nat.mod_eq_zero_of_dvd hwhole))]
    refine Meets.pure ⟨fun _ => ⟨_, rfl, Nat.div_mul_cancel hwhole, fun hserves => ?_⟩,
      fun hragged => absurd hwhole hragged⟩
    exact (rests_ofDisk hwidth hserves _ _).delivers rfl
  · rw [if_pos (fun hmod => hwhole (Nat.dvd_of_mod_eq_zero hmod))]
    exact Meets.pure ⟨fun hdvd => absurd hdvd hwhole, fun _ => rfl⟩

end Tape

end BoundedMerge
