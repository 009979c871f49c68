import BoundedMerge.Proofs.Tape.Custody
import BoundedMerge.Proofs.Tape.Session

/-!
What is owed in the course of a session. With each call the user learns from the answer and the
cursor what is owed from then on. An entry of the session is as it was owed if the records that it
gives are the accepted ones, and if what it reports as saved is on the disk. A call that the disk
refused may have cost what was unsaved in another block; without such a call nothing is lost.
-/

namespace BoundedMerge

open FixedWidth

variable {τ : Type}

structure Entry (τ : Type) where
  call : TapeCall τ
  note : Note τ
  disk : Disk

namespace TapeCall

def loads : TapeCall τ → Bool
  | seek _ | truncate _ | flush | releaseBlock => false
  | _ => true

/-- The call asks for nothing but that everything is saved. -/
def saves : TapeCall τ → Bool
  | flush | releaseBlock => true
  | _ => false

/-- The place of the first record that the call gives, for a cursor at `offset`. -/
def origin (offset : Nat) : TapeCall τ → Nat
  | readBack => offset - 1
  | _ => offset

end TapeCall

def Answer.given : Answer τ → List τ
  | .done => []
  | .record x => [x]
  | .records xs => xs
  | .next x => x.toList

def Entry.given (e : Entry τ) : List τ :=
  match e.note.answer with
  | .ok answer => answer.given
  | .error _ => []

namespace Pledge

def Lists (p : Pledge τ) (records : List τ) : Prop :=
  p.size = records.length ∧ ∀ (i : Nat) (h : i < records.length), p.record i = some records[i]

/-- How far a call came that failed, as the cursor tells. -/
def reached (items : Nat) (p : Pledge τ) (offset : Nat) : TapeCall τ → Pledge τ
  | .writeArray xs => p.writes items (xs.take (offset - p.offset))
  | .readArray _ => p.reads items (offset - p.offset)
  | .readBack => p.move offset
  | _ => p

def refused (lapse : Nat → Nat → Pledge τ → Pledge τ) (items : Nat) (p : Pledge τ) (offset : Nat)
    (call : TapeCall τ) (e : TapeError) : Pledge τ :=
  if call.loads then (p.reached items offset call).failed lapse items e else p

theorem offset_failed_miss (p : Pledge τ) (items : Nat) (e : TapeError) :
    (p.failed .miss items e).offset = p.offset := by
  cases e <;> rfl

def Whole (p : Pledge τ) : Prop := ∀ i < p.size, (p.record i).isSome

theorem Whole.lists {p : Pledge τ} (h : p.Whole) : ∃ all, p.Lists all := by
  refine ⟨List.ofFn fun i : Fin p.size => (p.record i).get (h i i.isLt), ?_, ?_⟩
  · exact List.length_ofFn.symm
  · intro i hi
    rw [List.getElem_ofFn, Option.some_get]

theorem Whole.put {p : Pledge τ} (h : p.Whole) (x : τ) (hle : p.offset ≤ p.size) :
    (p.put x).Whole := by
  intro i hi
  simp only [Pledge.put] at hi ⊢
  split
  · rfl
  · exact h i (by omega)

theorem Whole.reads {p : Pledge τ} (h : p.Whole) (items count : Nat) :
    (p.reads items count).Whole := by
  rw [Whole, record_reads, size_reads]
  exact h

theorem Whole.writes {p : Pledge τ} (h : p.Whole) (items : Nat) (xs : List τ)
    (hle : p.offset ≤ p.size) : (p.writes items xs).Whole := by
  induction xs generalizing p with
  | nil => exact h
  | cons x xs ih =>
    have hreach : (p.reach items (p.offset / items)).Whole := h
    exact ih (hreach.put x hle) (Nat.le_max_right _ _)

variable [FixedWidth τ]

def granted (items : Nat) (p : Pledge τ) : TapeCall τ → Answer τ → Pledge τ
  | .write x, _ => p.writes items [x]
  | .writeArray xs, _ => p.writes items xs
  | .read, _ => p.reads items 1
  | .readBack, _ => p.readsBack items
  | .readArray count, _ => p.reads items count
  | .next, answer => p.reads items answer.given.length
  | .seek index, _ => p.move index
  | .truncate size, _ => p.truncate size
  | .flush, _ | .releaseBlock, _ => p.saved

/-- What is owed after a call, where `lapse` says what becomes of it if the disk refused to reach
a block. -/
def after (lapse : Nat → Nat → Pledge τ → Pledge τ) (items : Nat) (p : Pledge τ)
    (e : Entry τ) : Pledge τ :=
  match e.note.answer with
  | .ok answer => p.granted items e.call answer
  | .error error => p.refused lapse items e.note.offset e.call error

/-- The disk has every record that is owed, and holds nothing else if all of them are. -/
structure Stored (p : Pledge τ) (disk : Disk) : Prop where
  placed : ∀ i < p.size, ∀ x, p.record i = some x → (i + 1) * width τ ≤ disk.bytes.size ∧
    disk.bytes.slice (i * width τ) (width τ) = encode x
  whole : ∀ records, p.Lists records → disk.bytes.toList = encodeAll records

/-- The entry is as it was owed, for what is owed before the call and after it. -/
structure Met (before after : Pledge τ) (e : Entry τ) : Prop where
  size_eq : e.note.size = after.size
  offset_eq : e.note.offset = after.offset
  offset_le : after.offset ≤ after.size
  given : ∀ (k : Nat) (h : k < e.given.length),
    before.Owes (e.call.origin before.offset + k) e.given[k]
  saved : e.call.saves → ∀ answer, e.note.answer = .ok answer → after.Stored e.disk

/-- Every entry is as `P` says, with what is owed before the call. -/
def Along (lapse : Nat → Nat → Pledge τ → Pledge τ) (items : Nat)
    (P : Pledge τ → Entry τ → Prop) (p : Pledge τ) : List (Entry τ) → Prop
  | [] => True
  | e :: entries => P p e ∧ Along lapse items P (p.after lapse items e) entries

def Kept (lapse : Nat → Nat → Pledge τ → Pledge τ) (items : Nat) (p : Pledge τ)
    (entries : List (Entry τ)) : Prop :=
  p.Along lapse items (fun p e => Met p (p.after lapse items e) e) entries

/-- If the disk refused the call, nothing was unsaved in another block than the one where the call
ended. -/
def Spared (items : Nat) (p : Pledge τ) (e : Entry τ) : Prop :=
  ∀ d, e.note.answer = .error (.disk d) → e.call.loads →
    ∀ i ∈ (p.reached items e.note.offset e.call).unsaved,
      i / items = (p.reached items e.note.offset e.call).offset / items

theorem after_miss_eq_reach {items : Nat} {p : Pledge τ} {e : Entry τ} (h : Spared items p e) :
    p.after .miss items e = p.after .reach items e := by
  unfold after
  cases hanswer : e.note.answer with
  | ok answer => rfl
  | error error =>
    simp only [refused]
    split
    · next hloads =>
      cases error with
      | disk d => exact miss_eq_reach (h d hanswer hloads)
      | _ => rfl
    · rfl

/-- If every call was spared, the session goes as if nothing could be lost. -/
theorem Along.reach {items : Nat} {p : Pledge τ} {entries : List (Entry τ)}
    (hspared : p.Along .miss items (Spared items) entries) (hkept : p.Kept .miss items entries) :
    p.Kept .reach items entries := by
  induction entries generalizing p with
  | nil => trivial
  | cons e entries ih =>
    obtain ⟨hspared, hrest⟩ := hspared
    obtain ⟨hmet, hkept⟩ := hkept
    rw [after_miss_eq_reach hspared] at hrest hmet hkept
    exact ⟨hmet, ih hrest hkept⟩

theorem Whole.truncate {p : Pledge τ} (h : p.Whole) (size : Nat) : (p.truncate size).Whole := by
  intro i _
  simp only [Pledge.truncate]
  split
  · next hlt => exact h i hlt
  · rfl

theorem Whole.after {p : Pledge τ} (h : p.Whole) (items : Nat) (e : Entry τ)
    (hle : p.offset ≤ p.size) : (p.after .reach items e).Whole := by
  unfold Pledge.after
  cases e.note.answer with
  | ok answer =>
    cases e.call with
    | write x => exact h.writes items [x] hle
    | writeArray xs => exact h.writes items xs hle
    | read => exact h.reads items 1
    | readArray count => exact h.reads items count
    | next => exact h.reads items _
    | truncate size => exact h.truncate size
    | readBack => exact h
    | seek index => exact h
    | flush => exact h
    | releaseBlock => exact h
  | error error =>
    have hreached : (p.reached items e.note.offset e.call).Whole := by
      cases e.call with
      | writeArray xs => exact h.writes items _ hle
      | readArray count => exact h.reads items _
      | _ => exact h
    simp only [refused]
    split
    · cases error <;> exact hreached
    · exact h

/-- If nothing is lost, something is owed at every place all the time. -/
theorem Kept.lists {items : Nat} {p : Pledge τ} {entries : List (Entry τ)}
    (hkept : p.Kept .reach items entries) (h : p.Whole) (hle : p.offset ≤ p.size) :
    p.Along .reach items (fun p e => ∃ all, (p.after .reach items e).Lists all) entries := by
  induction entries generalizing p with
  | nil => trivial
  | cons e entries ih =>
    obtain ⟨hmet, hrest⟩ := hkept
    have hafter := h.after items e hle
    exact ⟨hafter.lists, ih hrest hafter hmet.offset_le⟩

end Pledge

end BoundedMerge
