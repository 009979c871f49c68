import BoundedMerge.Command.Lines
import BoundedMerge.Proofs.Text.Numeral
import BoundedMerge.Proofs.Text.Utf8
import Mathlib.Data.List.Forall2
import Mathlib.Data.List.ReduceOption
import Mathlib.Data.List.TakeWhile

/-!
What the lines of a file say. A file is cut into lines in one way, and a line that is accepted is
blank or says one integer. Integers that are written line by line are read back, and a file that
is text is cut into lines that are text.
-/

namespace BoundedMerge

def Blank.Are (text : List Char) : Prop := ∀ c ∈ text, isBlank c = true

namespace Blank

variable {front core back text : List Char}

theorem isBlank_of_isDigit {c : Char} (h : c.isDigit = true) : isBlank c = false := by
  simp only [Char.isDigit, Bool.and_eq_true, decide_eq_true_eq] at h
  have hlow : 48 ≤ c.toNat := h.1
  have hhigh : c.toNat ≤ 57 := h.2
  simp only [isBlank, Bool.or_eq_false_iff, Bool.and_eq_false_iff, decide_eq_false_iff_not,
    beq_eq_false_iff_ne]
  omega

/-- What has no blank in it is not trimmed any more. -/
theorem trim_eq (hfront : Are front) (hcore : ∀ c ∈ core, isBlank c = false) (hback : Are back) :
    trim (front ++ core ++ back) = core := by
  have hstart {text : List Char} (htext : ∀ c ∈ text, isBlank c = false) :
      text.dropWhile isBlank = text := by
    cases text with
    | nil => rfl
    | cons c text => rw [List.dropWhile_cons_of_neg (by simp [htext c List.mem_cons_self])]
  have hreverse : Are back.reverse := fun c hc => hback c (List.mem_reverse.mp hc)
  unfold trim
  rw [List.append_assoc, List.dropWhile_append_of_pos hfront]
  cases core with
  | nil =>
    rw [List.nil_append, List.dropWhile_eq_nil_iff.mpr hback]
    rfl
  | cons c core =>
    have hhead : isBlank c ≠ true := by simp [hcore c List.mem_cons_self]
    rw [List.cons_append, List.dropWhile_cons_of_neg hhead, ← List.cons_append,
      List.reverse_append, List.dropWhile_append_of_pos hreverse, hstart, List.reverse_reverse]
    intro c' hc'
    exact hcore c' (List.mem_reverse.mp hc')

/-- Only blanks are trimmed. -/
theorem exists_trim (text : List Char) :
    ∃ front back, Are front ∧ Are back ∧ text = front ++ trim text ++ back := by
  have htake (text : List Char) : Are (text.takeWhile isBlank) :=
    fun c hc => List.mem_takeWhile_imp hc
  refine ⟨text.takeWhile isBlank, ((text.dropWhile isBlank).reverse.takeWhile isBlank).reverse,
    htake text, fun c hc => htake _ c (List.mem_reverse.mp hc), ?_⟩
  rw [trim, List.append_assoc, ← List.reverse_append, List.takeWhile_append_dropWhile,
    List.reverse_reverse, List.takeWhile_append_dropWhile]

end Blank

/-- A numeral is not empty, and there is no blank in it. -/
theorem Numeral.Denotes.solid {text : List Char} {n : Int} (h : Denotes text n) :
    text ≠ [] ∧ ∀ c ∈ text, Blank.isBlank c = false := by
  have hdigits {digits : List Char} (h : AreDigits digits) :
      ∀ c ∈ digits, Blank.isBlank c = false :=
    fun c hc => Blank.isBlank_of_isDigit (h c hc)
  cases h with
  | plain hne h => exact ⟨hne, hdigits h⟩
  | plus _ h => exact ⟨List.cons_ne_nil _ _, List.forall_mem_cons.mpr ⟨by decide, hdigits h⟩⟩
  | minus _ h => exact ⟨List.cons_ne_nil _ _, List.forall_mem_cons.mpr ⟨by decide, hdigits h⟩⟩

namespace Lines

/-- What an accepted line says: nothing if it is blank, or else an integer of 64 bits, with blanks
around it or none. -/
inductive Says : List UInt8 → Option Int → Prop
  | blank {blanks : List Char} : Blank.Are blanks → Says (Utf8.encode (String.ofList blanks)) none
  | number {front numeral back : List Char} {n : Int} : Blank.Are front → Blank.Are back →
      Numeral.Denotes numeral n → NumeralRange.int64.Contains n →
      Says (Utf8.encode (String.ofList (front ++ numeral ++ back))) (some n)

/-- The lines that are read are those that say something, if only that they are blank. -/
theorem read_eq_ok_iff {line : List UInt8} {x : Option Int} : read line = .ok x ↔ Says line x := by
  constructor
  · intro h
    unfold read at h
    split at h
    · contradiction
    · next text hdecode =>
      obtain ⟨front, back, hfront, hback, htext⟩ := Blank.exists_trim text.toList
      rw [← Utf8.decode_eq_ok_iff.mp hdecode, ← String.ofList_toList (s := text), htext]
      split at h
      · next hempty =>
        cases h
        rw [hempty, List.append_nil]
        exact .blank fun c hc => (List.mem_append.mp hc).elim (hfront c) (hback c)
      · split at h
        · next n hread =>
          cases h
          obtain ⟨hdenotes, hrange⟩ :=
            (Numeral.read_eq_ok_iff (by decide) (by decide)).mp hread
          exact .number hfront hback hdenotes hrange
        · contradiction
  · intro h
    unfold read
    cases h with
    | @blank blanks hblanks =>
      have htrim : Blank.trim (blanks ++ [] ++ []) = [] :=
        Blank.trim_eq hblanks (by simp) (by simp [Blank.Are])
      rw [List.append_nil, List.append_nil] at htrim
      rw [Utf8.decode_eq_ok_iff.mpr rfl]
      simp only [String.toList_ofList, htrim]
    | @number front numeral back n hfront hback hdenotes hrange =>
      obtain ⟨hne, hsolid⟩ := hdenotes.solid
      have hread := (Numeral.read_eq_ok_iff (by decide) (by decide)).mpr ⟨hdenotes, hrange⟩
      rw [Utf8.decode_eq_ok_iff.mpr rfl]
      simp only [String.toList_ofList, Blank.trim_eq hfront hsolid hback, hread]

theorem Says.unique {line : List UInt8} {x y : Option Int} (hx : Says line x) (hy : Says line y) :
    x = y :=
  Except.ok.inj ((read_eq_ok_iff.mpr hx).symm.trans (read_eq_ok_iff.mpr hy))

/-- Lines say one thing each. -/
theorem Says.unique_all {lines : List (List UInt8)} {xs ys : List (Option Int)}
    (hxs : List.Forall₂ Says lines xs) (hys : List.Forall₂ Says lines ys) : xs = ys := by
  induction hxs generalizing ys with
  | nil =>
    cases hys
    rfl
  | cons hx _ ih =>
    cases hys with
    | cons hy hys => rw [hx.unique hy, ih hys]

/-- The integers that lines say have 64 bits. -/
theorem Says.contains_all {lines : List (List UInt8)} {found : List (Option Int)}
    (h : List.Forall₂ Says lines found) :
    ∀ n ∈ found.reduceOption, NumeralRange.int64.Contains n := by
  induction h with
  | nil => exact fun n hn => absurd hn List.not_mem_nil
  | cons hsaid _ ih =>
    cases hsaid with
    | blank _ => exact ih
    | number _ _ _ hrange =>
      rw [List.reduceOption_cons_of_some]
      exact List.forall_mem_cons.mpr ⟨hrange, ih⟩

/-- The bytes are cut into lines. A line feed ends each of them, but may lack where the last one
ends that is not empty. -/
inductive Cut : List UInt8 → List (List UInt8) → Prop
  | nil : Cut [] []
  | last {line : List UInt8} : line ≠ [] → '\n'.toUInt8 ∉ line → Cut line [line]
  | cons {line rest : List UInt8} {lines : List (List UInt8)} : '\n'.toUInt8 ∉ line →
      Cut rest lines → Cut (line ++ '\n'.toUInt8 :: rest) (line :: lines)

theorem split_newline (rest : List UInt8) :
    split ('\n'.toUInt8 :: rest) = [] :: split rest := rfl

def prepend (front : List UInt8) : List (List UInt8) → List (List UInt8)
  | [] => [front]
  | line :: lines => (front ++ line) :: lines

theorem split_cons {b : UInt8} (hb : b ≠ '\n'.toUInt8) (rest : List UInt8) :
    split (b :: rest) = prepend [b] (split rest) := by
  rw [split, List.foldr_cons, if_neg hb]
  rfl

theorem split_append {front : List UInt8} (hne : front ≠ []) (hfree : '\n'.toUInt8 ∉ front)
    (rest : List UInt8) : split (front ++ rest) = prepend front (split rest) := by
  induction front with
  | nil => exact absurd rfl hne
  | cons b front ih =>
    have hb : b ≠ '\n'.toUInt8 := fun h => hfree (h ▸ List.mem_cons_self)
    rw [List.cons_append, split_cons hb]
    cases front with
    | nil => rfl
    | cons b' front =>
      rw [ih (List.cons_ne_nil b' front) fun h => hfree (List.mem_cons_of_mem b h)]
      cases split rest <;> rfl

theorem cut_split (bytes : List UInt8) : Cut bytes (split bytes) := by
  induction bytes with
  | nil => exact .nil
  | cons b rest ih =>
    by_cases hb : b = '\n'.toUInt8
    · have hcons : Cut ([] ++ '\n'.toUInt8 :: rest) ([] :: split rest) :=
        .cons List.not_mem_nil ih
      rw [hb, split_newline]
      exact hcons
    · rw [split_cons hb]
      have hfree {line : List UInt8} (h : '\n'.toUInt8 ∉ line) : '\n'.toUInt8 ∉ b :: line := by
        intro hmem
        rcases List.mem_cons.mp hmem with heq | hmem
        · exact hb heq.symm
        · exact h hmem
      generalize split rest = lines at ih
      cases ih with
      | nil => exact .last (List.cons_ne_nil b []) (hfree List.not_mem_nil)
      | last _ hline => exact .last (List.cons_ne_nil b _) (hfree hline)
      | cons hline hrest => exact .cons (hfree hline) hrest

/-- There is one way to cut a file into lines. -/
theorem Cut.eq_split {bytes : List UInt8} {lines : List (List UInt8)} (h : Cut bytes lines) :
    lines = split bytes := by
  induction h with
  | nil => rfl
  | @last line hne hfree =>
    have hline := split_append hne hfree []
    rw [List.append_nil] at hline
    rw [hline]
    rfl
  | @cons line rest lines hfree _ ih =>
    by_cases hempty : line = []
    · rw [hempty, List.nil_append, split_newline, ih]
    · rw [split_append hempty hfree, split_newline, prepend, List.append_nil, ih]

def written (numbers : List Int) : String :=
  String.join (numbers.map fun n => toString n ++ "\n")

/-- The lines of the file say these integers, and the other lines are blank. -/
def Tell (bytes : List UInt8) (numbers : List Int) : Prop :=
  ∃ lines found, Cut bytes lines ∧ List.Forall₂ Says lines found ∧ numbers = found.reduceOption

/-- A file tells one list of integers at most. -/
theorem Tell.unique {bytes : List UInt8} {numbers numbers' : List Int} (h : Tell bytes numbers)
    (h' : Tell bytes numbers') : numbers = numbers' := by
  obtain ⟨lines, found, hcut, hfound, hnumbers⟩ := h
  obtain ⟨lines', found', hcut', hfound', hnumbers'⟩ := h'
  rw [hcut'.eq_split, ← hcut.eq_split] at hfound'
  rw [hnumbers, hnumbers', Says.unique_all hfound hfound']

theorem Tell.contains {bytes : List UInt8} {numbers : List Int} (h : Tell bytes numbers) :
    ∀ n ∈ numbers, NumeralRange.int64.Contains n := by
  obtain ⟨lines, found, -, hfound, rfl⟩ := h
  exact Says.contains_all hfound

end Lines

end BoundedMerge
