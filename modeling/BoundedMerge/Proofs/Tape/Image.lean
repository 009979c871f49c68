import BoundedMerge.Proofs.Tape.Balance
import BoundedMerge.Proofs.Tape.Dependable
import BoundedMerge.Proofs.Tape.Journey
import BoundedMerge.Proofs.Tape.Rest

/-!
The file behind a tape. Whenever a flush succeeds, and when the tape is closed, the file consists of
the records of the tape, one behind the other, and whoever opens it again, with blocks of any size,
reads the same records. Only a disk that refuses to take records can spoil that, and when the tape
is closed this is reported.
-/

namespace BoundedMerge

open FixedWidth SiteM

variable {τ : Type}

namespace SparseBytes

theorem length_toList (b : SparseBytes) : b.toList.length = b.size := by
  rw [toList, List.length_map, List.length_range]

theorem slice_eq_toList (b : SparseBytes) (offset count : Nat) (h : offset + count ≤ b.size) :
    b.slice offset count = (b.toList.drop offset).take count := by
  apply List.ext_getElem
  · rw [length_slice, List.length_take, List.length_drop, length_toList]
    omega
  · intro i _ _
    simp only [getElem_slice, toList, List.getElem_take, List.getElem_drop, List.getElem_map,
      List.getElem_range]

variable [FixedWidth τ] [LawfulFixedWidth τ]

/-- Records that are written one behind the other are the records of the file. -/
theorem records_of_toList {b : SparseBytes} {all : List τ} (hwidth : 0 < width τ)
    (h : b.toList = encodeAll all) : b.size = all.length * width τ ∧ b.records τ = all := by
  have hsize : b.size = all.length * width τ := by
    rw [← length_encodeAll, ← h, length_toList]
  have hcount : b.size / width τ = all.length := by
    rw [hsize, Nat.mul_div_cancel _ hwidth]
  refine ⟨hsize, List.ext_getElem (by rw [records, List.length_ofFn, hcount]) ?_⟩
  intro i _ hi
  have hend : i * width τ + width τ ≤ b.size := by
    rw [hsize, ← Nat.succ_mul]
    exact Nat.mul_le_mul_right _ hi
  simp only [records, List.getElem_ofFn, record]
  rw [slice_eq_toList b _ _ hend, h, encodeAll_slot all i hi, decode_encode]

end SparseBytes

namespace Pledge

/-- What is owed when all the calls are made. -/
def ends [FixedWidth τ] (lapse : Nat → Nat → Pledge τ → Pledge τ) (items : Nat) (p : Pledge τ)
    (entries : List (Entry τ)) : Pledge τ :=
  entries.foldl (fun p e => p.after lapse items e) p

theorem ends_miss_eq_reach [FixedWidth τ] {items : Nat} {p : Pledge τ} {entries : List (Entry τ)}
    (hspared : p.Along .miss items (Spared items) entries) :
    p.ends .miss items entries = p.ends .reach items entries := by
  induction entries generalizing p with
  | nil => rfl
  | cons e entries ih =>
    obtain ⟨hspared, hrest⟩ := hspared
    simp only [ends, List.foldl_cons] at ih ⊢
    rw [ih hrest, after_miss_eq_reach hspared]

/-- A history without failures costs nothing, and what is owed in the end is what was granted. -/
theorem ends_of_granted [FixedWidth τ] {lapse : Nat → Nat → Pledge τ → Pledge τ} {items : Nat}
    {p : Pledge τ} {entries : List (Entry τ)} {steps : List (TapeCall τ × Answer τ)}
    (h : entries.map (fun e => (e.call, e.note.answer)) = steps.map fun s => (s.1, .ok s.2)) :
    p.Along lapse items (Spared items) entries ∧
      p.ends lapse items entries = steps.foldl (fun p s => p.granted items s.1 s.2) p := by
  induction entries generalizing p steps with
  | nil =>
    obtain rfl := List.map_eq_nil_iff.mp h.symm
    exact ⟨trivial, rfl⟩
  | cons e entries ih =>
    cases steps with
    | nil => contradiction
    | cons step steps =>
      simp only [List.map_cons, List.cons.injEq, Prod.mk.injEq] at h
      obtain ⟨⟨hcall, hanswer⟩, hrest⟩ := h
      have hafter : p.after lapse items e = p.granted items step.1 step.2 := by
        rw [after, hanswer, hcall]
      obtain ⟨hspared, hends⟩ := ih (p := p.after lapse items e) hrest
      refine ⟨⟨?_, hspared⟩, ?_⟩
      · intro d hd
        rw [hanswer] at hd
        contradiction
      · rw [List.foldl_cons, ← hafter]
        exact hends
theorem Lists.unique {p : Pledge τ} {all all' : List τ} (h : p.Lists all) (h' : p.Lists all') :
    all = all' := by
  apply List.ext_getElem (h.1.symm.trans h'.1)
  intro i hi hi'
  exact Option.some.inj ((h.2 i hi).symm.trans (h'.2 i hi'))

/-- What two facts of every entry imply together. -/
theorem Along.imp₂ [FixedWidth τ] {lapse : Nat → Nat → Pledge τ → Pledge τ} {items : Nat}
    {P Q R : Pledge τ → Entry τ → Prop} {p : Pledge τ} {entries : List (Entry τ)}
    (hP : p.Along lapse items P entries) (hQ : p.Along lapse items Q entries)
    (h : ∀ p e, P p e → Q p e → R p e) : p.Along lapse items R entries := by
  induction entries generalizing p with
  | nil => trivial
  | cons e entries ih => exact ⟨h p e hP.1 hQ.1, ih hP.2 hQ.2⟩

theorem Whole.ends [FixedWidth τ] {items : Nat} {p : Pledge τ} {entries : List (Entry τ)}
    (h : p.Whole) (hle : p.offset ≤ p.size) (hkept : p.Kept .reach items entries) :
    (p.ends .reach items entries).Whole := by
  induction entries generalizing p with
  | nil => exact h
  | cons e entries ih => exact ih (h.after items e hle) hkept.1.offset_le hkept.2

end Pledge

namespace Tape

variable [FixedWidth τ] {ref : Site} {t : Tape τ} {p : Pledge τ}

/-- Makes the calls one after the other, looks at the disk after each of them, and keeps the
tape. -/
def voyage (t : Tape τ) : List (TapeCall τ) → SiteM (List (Entry τ) × Tape τ)
  | [] => return ([], t)
  | call :: calls => do
    let (answer, t) ← (ask call : TapeM τ (Answer τ)) t
    let (entries, last) ← t.voyage calls
    return (⟨call, t.note answer, t.disk⟩ :: entries, last)

/-- It is the journey with these calls. -/
theorem journey_eq_voyage (t : Tape τ) (calls : List (TapeCall τ)) :
    t.journey calls = Prod.fst <$> t.voyage calls := by
  induction calls generalizing t with
  | nil => rfl
  | cons call calls ih =>
    simp only [journey, voyage, map_bind, map_pure, ih, bind_map_left]

/-- The file consists of the records that are owed, of which there are `size`. -/
def Images (p : Pledge τ) (size : Nat) (disk : Disk) : Prop :=
  ∃ all, p.Lists all ∧ all.length = size ∧ disk.bytes.toList = encodeAll all

variable [CanonicalFixedWidth τ]

theorem yields_voyage (h : t.Honours p) (calls : List (TapeCall τ)) :
    Yields ref (t.voyage calls) fun out =>
      out.1.map Entry.call = calls ∧ p.Kept .miss t.blockItems out.1 ∧
        out.2.Honours (p.ends .miss t.blockItems out.1) := by
  induction calls generalizing t p with
  | nil => exact Meets.pure ⟨rfl, trivial, h⟩
  | cons call calls ih =>
    unfold voyage
    apply (yields_ask h call).bind
    intro out hout
    obtain ⟨outcome, t'⟩ := out
    obtain ⟨hitems, q, hafter, hhonours, hmet⟩ := hout
    have hrest := ih hhonours
    rw [hitems] at hrest
    apply hrest.bind
    intro rest hrest
    obtain ⟨hcalls, hkept, hends⟩ := hrest
    rw [← hafter] at hmet hkept hends
    apply Meets.pure
    exact ⟨congrArg (call :: ·) hcalls, ⟨hmet, hkept⟩, hends⟩

omit [FixedWidth τ] [CanonicalFixedWidth τ] in
theorem ensures_returnBlock (block : Option (Block τ)) (disk : Disk) (site : Site) :
    Ensures (do
      match block with
      | none => pure ()
      | some b => b.lease.release
      return disk) site
      (fun out after => out = disk ∧
        ∃ news, after.journal.toList = site.journal.toList ++ news) (fun _ _ => False) := by
  cases block with
  | none => exact ensures_pure.mpr ⟨rfl, [], (List.append_nil _).symm⟩
  | some b =>
    refine ensures_bind.mpr (b.lease.ensures_release.mono ?_ fun _ _ h => h)
    exact fun _ after h => ensures_pure.mpr ⟨rfl, h⟩

/-- A tape that is closed leaves the file with all that is owed. Only if the disk refuses its last
block it does not, and reports the loss. -/
theorem ensures_close (h : t.Honours p) (hwhole : p.Whole) (site : Site) :
    (close t).Ensures site
      (fun disk after => Images p t.size disk ∨ ∃ d, t.LosesBlock d ∧
        Event.lostBlock (.disk d) ∈ after.journal.toList.drop site.journal.size)
      (fun _ _ => False) := by
  obtain ⟨outcome, t', hrun, -, hcases⟩ := t.flush_eq
  have hflush : t.Upholds site flush _ _ := upholds_flush h
  have hout := hflush site (Site.Like.refl site)
  rw [hrun, ensures_pure] at hout
  obtain ⟨⟨-, hout⟩, -⟩ := hout
  unfold close
  rw [hrun, pure_bind]
  rcases hcases with hok | ⟨d, herror, hlost⟩
  · cases hok
    have hstored := (hout.2).all_stored
    obtain ⟨all, hall⟩ := hwhole.lists
    refine (ensures_returnBlock t'.block t'.disk site).mono ?_ fun _ _ h => h
    intro disk after hdisk
    obtain ⟨rfl, -⟩ := hdisk
    exact .inl ⟨all, hall, hall.1.symm.trans h.size_eq.symm, hstored.whole all hall⟩
  · cases herror
    refine ensures_bind.mpr (ensures_modify.mpr ?_)
    refine (ensures_returnBlock t'.block t'.disk _).mono ?_ fun _ _ h => h
    intro disk after hdisk
    obtain ⟨-, news, hnews⟩ := hdisk
    refine .inr ⟨d, hlost, ?_⟩
    rw [hnews, Array.toList_push, List.append_assoc, List.drop_left' (Array.length_toList ..)]
    exact List.mem_cons_self

omit [CanonicalFixedWidth τ] in
/-- Calls at a tape on a dependable disk spare everything, whatever is owed. -/
theorem loses_voyage_dependable (h : t.disk.Dependable) (p : Pledge τ) (items : Nat)
    (calls : List (TapeCall τ)) :
    Loses (t.voyage calls) fun out =>
      out.2.disk.Dependable ∧ p.Along .miss items (Pledge.Spared items) out.1 := by
  induction calls generalizing t p with
  | nil => exact Loses.pure ⟨h, trivial⟩
  | cons call calls ih =>
    unfold voyage
    apply (relies_ask call t h).bind
    intro out hout
    obtain ⟨answer, t'⟩ := out
    obtain ⟨hdisk, hanswer⟩ := hout
    apply (ih hdisk (p.after .miss items ⟨call, t'.note answer, t'.disk⟩)).bind
    intro rest hrest
    obtain ⟨hlast, hspared⟩ := hrest
    refine Loses.pure ⟨hlast, ?_, hspared⟩
    intro d hd hloads
    exact absurd rfl (hanswer (.disk d) hd hloads d)

/-- A file that consists of records is opened with blocks of any size, and read as these. -/
theorem yields_reopen (hwidth : 0 < width τ) {copy : Disk} {all : List τ}
    (hall : copy.bytes.toList = encodeAll all) (path : String) (blockSize : Nat) :
    Yields ref (openNamed path (.ok copy) blockSize : SiteM (Except TapeError (Tape τ)))
      fun out => ∃ t, out = .ok t ∧ t.size = all.length ∧
        (copy.Regular → t.Delivers ref all) := by
  obtain ⟨hsize, hrecords⟩ := SparseBytes.records_of_toList hwidth hall
  apply (yields_openNamed hwidth path copy blockSize).mono
  intro out hout
  obtain ⟨t, hopened, hcount, hdelivers⟩ := hout.1 (by rw [hsize]; exact Nat.dvd_mul_left ..)
  rw [hrecords] at hdelivers
  rw [hsize] at hcount
  exact ⟨t, hopened, Nat.eq_of_mul_eq_mul_right hwidth hcount, fun h => hdelivers h.serves⟩

/-- After every call that saves and succeeds, the file consists of the records that are owed. -/
def ImagesAlong (items : Nat) (p : Pledge τ) (entries : List (Entry τ)) : Prop :=
  p.Along .reach items (fun p e => e.call.saves → (∃ answer, e.note.answer = .ok answer) →
    Images (p.after .reach items e) e.note.size e.disk) entries

/-- On any disk: if no call was refused while records were unsaved in another block than its own,
nothing but the last block can be missing in the file. -/
theorem ensures_voyage (hwidth : 0 < width τ) (site : Site) (disk : Disk) (records : List τ)
    (path : Option String) (blockSize : Nat) (calls : List (TapeCall τ)) :
    (voyage (ofDisk { disk with bytes := .ofList (encodeAll records) } path blockSize)
      calls).Ensures site
      (fun out after => out.1.map Entry.call = calls ∧
        ((Pledge.ofRecords records).Along .miss (itemsPerBlock (width τ) blockSize)
            (Pledge.Spared (itemsPerBlock (width τ) blockSize)) out.1 →
          ImagesAlong (itemsPerBlock (width τ) blockSize) (Pledge.ofRecords records) out.1 ∧
          (close out.2).Ensures after
            (fun file last =>
              Images ((Pledge.ofRecords records).ends .reach (itemsPerBlock (width τ) blockSize)
                out.1) out.2.size file ∨
              ∃ d, out.2.LosesBlock d ∧
                Event.lostBlock (.disk d) ∈ last.journal.toList.drop after.journal.size)
            (fun _ _ => False)))
      (fun halt _ => site.Excuses halt) := by
  have hstart := honours_ofDisk hwidth disk records path blockSize
  have hwhole : (Pledge.ofRecords records).Whole := by
    intro i hi
    exact Option.isSome_iff_exists.mpr ⟨_, List.getElem?_eq_getElem hi⟩
  apply ((yields_voyage hstart calls).ensures (Site.Like.refl site)).mono
  · intro out after hout
    obtain ⟨⟨hcalls, hkept, hends⟩, -⟩ := hout
    refine ⟨hcalls, fun hspared => ?_⟩
    have hreach := Pledge.Along.reach hspared hkept
    have hlists := hreach.lists hwhole (Nat.zero_le _)
    have hends : out.2.Honours ((Pledge.ofRecords records).ends .reach
        (itemsPerBlock (width τ) blockSize) out.1) := by
      rw [← Pledge.ends_miss_eq_reach hspared]
      exact hends
    refine ⟨hreach.imp₂ hlists ?_,
      ensures_close hends (hwhole.ends (Nat.zero_le _) hreach) after⟩
    intro p e hmet hlists hsaves hanswer
    obtain ⟨answer, hanswer⟩ := hanswer
    obtain ⟨all, hall⟩ := hlists
    exact ⟨all, hall, hall.1.symm.trans hmet.size_eq.symm,
      (hmet.saved hsaves answer hanswer).whole all hall⟩
  · exact fun halt after hhalt => hhalt

/-- The file behind a tape. On a disk that serves whatever is read or written, the file consists of
the records of the tape after each call that saves them, and when the tape is closed. On a disk that
may refuse anything this is so if no call was refused while records were unsaved in another block
than its own, and if the disk takes the last block; that it does not is reported. Whoever opens a
file with these bytes, with blocks of any size, reads the same records. Any other file is opened
exactly if its bytes are those of whole records, and is read as them. -/
theorem file_is_image (hwidth : 0 < width τ) (site : Site) (disk : Disk) (records : List τ)
    (path : Option String) (blockSize : Nat) (calls : List (TapeCall τ)) :
    (disk.Dependable →
      (voyage (ofDisk { disk with bytes := .ofList (encodeAll records) } path blockSize)
        calls).Ensures site
        (fun out after => out.1.map Entry.call = calls ∧
          ImagesAlong (itemsPerBlock (width τ) blockSize) (Pledge.ofRecords records) out.1 ∧
          (close out.2).Ensures after
            (fun file _ => Images ((Pledge.ofRecords records).ends .reach
              (itemsPerBlock (width τ) blockSize) out.1) out.2.size file)
            (fun _ _ => False))
        (fun halt _ => site.Excuses halt)) ∧
    (voyage (ofDisk { disk with bytes := .ofList (encodeAll records) } path blockSize)
      calls).Ensures site
      (fun out after => out.1.map Entry.call = calls ∧
        ((Pledge.ofRecords records).Along .miss (itemsPerBlock (width τ) blockSize)
            (Pledge.Spared (itemsPerBlock (width τ) blockSize)) out.1 →
          ImagesAlong (itemsPerBlock (width τ) blockSize) (Pledge.ofRecords records) out.1 ∧
          (close out.2).Ensures after
            (fun file last =>
              Images ((Pledge.ofRecords records).ends .reach (itemsPerBlock (width τ) blockSize)
                out.1) out.2.size file ∨
              ∃ d, out.2.LosesBlock d ∧
                Event.lostBlock (.disk d) ∈ last.journal.toList.drop after.journal.size)
            (fun _ _ => False)))
      (fun halt _ => site.Excuses halt) ∧
    (∀ (copy : Disk) (all : List τ), copy.bytes.toList = encodeAll all →
      ∀ (name : String) (blockSize' : Nat),
        Yields site (openNamed name (.ok copy) blockSize' : SiteM (Except TapeError (Tape τ)))
          fun out => ∃ t, out = .ok t ∧ t.size = all.length ∧
            (copy.Regular → t.Delivers site all)) ∧
    ∀ (file : Disk) (name : String) (blockSize' : Nat),
      Yields site (openNamed name (.ok file) blockSize' : SiteM (Except TapeError (Tape τ)))
        fun out =>
          (¬ width τ ∣ file.bytes.size →
            out = .error (.disk (.ragged name file.bytes.size (width τ)))) ∧
          (width τ ∣ file.bytes.size → ∃ t, out = .ok t ∧
            t.size * width τ = file.bytes.size ∧
            (file.Regular → t.Delivers site (file.bytes.records τ))) := by
  have hany := ensures_voyage hwidth site disk records path blockSize calls
  refine ⟨fun hdisk => ?_, hany,
    fun copy all hall name blockSize' => yields_reopen hwidth hall name blockSize',
    fun file name blockSize' => ?_⟩
  · have hstart : (ofDisk { disk with bytes := .ofList (encodeAll records) } path blockSize :
        Tape τ).disk.Dependable := hdisk.served _ _
    have hspared := loses_voyage_dependable hstart (Pledge.ofRecords records)
      (itemsPerBlock (width τ) blockSize) calls site
    apply (hany.and hspared).mono
    · rintro out after ⟨⟨hcalls, himages⟩, hlast, hspared⟩
      obtain ⟨halong, hclose⟩ := himages hspared
      refine ⟨hcalls, halong, hclose.mono ?_ fun _ _ hh => hh⟩
      rintro file last (hfile | ⟨d, hlost, -⟩)
      · exact hfile
      · exact absurd hlost (not_losesBlock hlast)
    · exact fun _ _ hh => hh.1
  · apply (yields_openNamed hwidth name file blockSize').mono
    intro out hout
    refine ⟨hout.2, fun hdvd => ?_⟩
    obtain ⟨t, hopened, hcount, hdelivers⟩ := hout.1 hdvd
    exact ⟨t, hopened, hcount, fun h => hdelivers h.serves⟩

def wordHistory : List (TapeCall Word × Answer Word) :=
  [(.seek 1, .done), (.write 1#64, .done), (.flush, .done), (.write 2#64, .done)]

/-- Two words behind one that was there, with blocks of two words, and a flush between them. -/
theorem file_is_image_words :
    0 < width Word ∧ Disk.Dependable {} ∧
    (voyage (ofDisk { bytes := .ofList (encodeAll ([7#64] : List Word)) } none 16 : Tape Word)
      [.seek 1, .write 1#64, .flush, .write 2#64]).Ensures { ledger := default }
      (fun out after => (close out.2).Ensures after
        (fun file _ => file.bytes.toList = encodeAll ([7#64, 1#64, 2#64] : List Word))
        (fun _ _ => False))
      (fun _ _ => False) := by
  have hdisk : Disk.Dependable {} := ⟨rfl, fun _ _ _ => rfl, fun _ _ _ => rfl⟩
  refine ⟨width_word_pos, hdisk, ?_⟩
  have himage := (file_is_image width_word_pos { ledger := default } {} [7#64] none 16
    [.seek 1, .write 1#64, .flush, .write 2#64]).1 hdisk
  have hgranted : (voyage (ofDisk { bytes := .ofList (encodeAll ([7#64] : List Word)) } none 16 :
      Tape Word) [.seek 1, .write 1#64, .flush, .write 2#64]).Ensures { ledger := default }
      (fun out _ => out.1.map (fun e => (e.call, e.note.answer)) =
        wordHistory.map fun s => (s.1, .ok s.2))
      (fun _ _ => False) := by
    unfold Ensures
    with_unfolding_all rfl
  refine (himage.and hgranted).mono ?_ fun _ _ h => h.2
  intro out after hout
  obtain ⟨⟨-, -, hclose⟩, hgranted⟩ := hout
  refine hclose.mono ?_ fun _ _ h => h
  intro file last hfile
  rw [(Pledge.ends_of_granted hgranted).2] at hfile
  obtain ⟨all, hall, -, hbytes⟩ := hfile
  have howed : (wordHistory.foldl (fun p s => p.granted (itemsPerBlock (width Word) 16) s.1 s.2)
      (Pledge.ofRecords ([7#64] : List Word))).Lists [7#64, 1#64, 2#64] := by
    refine ⟨rfl, fun i hi => ?_⟩
    match i, hi with
    | 0, _ | 1, _ | 2, _ => rfl
  rw [hbytes, hall.unique howed]

end Tape

end BoundedMerge
