import BoundedMerge.Text.Numeral

/-!
What numerals denote. A text is read as an integer exactly if it consists of decimal digits, one at
least, after a sign or none, and if the integer lies in the range that is wanted: a number that
left the range on the way has left it in the end. What an integer is written as denotes it.
-/

namespace BoundedMerge

def NumeralRange.Contains (r : NumeralRange) (n : Int) : Prop := r.low ≤ n ∧ n ≤ r.high

namespace Numeral

def AreDigits (text : List Char) : Prop := ∀ c ∈ text, c.isDigit = true

inductive Denotes : List Char → Int → Prop
  | plain {digits : List Char} : digits ≠ [] → AreDigits digits →
      Denotes digits (Nat.ofDigitChars 10 digits 0)
  | plus {digits : List Char} : digits ≠ [] → AreDigits digits →
      Denotes ('+' :: digits) (Nat.ofDigitChars 10 digits 0)
  | minus {digits : List Char} : digits ≠ [] → AreDigits digits →
      Denotes ('-' :: digits) (-(Nat.ofDigitChars 10 digits 0 : Int))

theorem digit?_of_isDigit {c : Char} (h : c.isDigit = true) :
    digit? c = some (c.toNat - '0'.toNat) := by
  simp only [Char.isDigit, Bool.and_eq_true, decide_eq_true_eq] at h
  exact if_pos h

theorem digit?_of_not_isDigit {c : Char} (h : c.isDigit = false) : digit? c = none := by
  apply if_neg
  intro hc
  have hdigit : c.isDigit = true := by
    simp only [Char.isDigit, Bool.and_eq_true, decide_eq_true_eq]
    exact hc
  rw [hdigit] at h
  contradiction

theorem le_ofDigitChars (text : List Char) (n : Nat) : n ≤ Nat.ofDigitChars 10 text n := by
  induction text generalizing n with
  | nil => exact Nat.le_refl n
  | cons c text ih =>
    rw [Nat.ofDigitChars_cons]
    have hrest := ih (10 * n + (c.toNat - '0'.toNat))
    omega

section Reading

variable {r : NumeralRange} {sign : Int}

/-- Between zero and an integer of the range there is no integer outside it. -/
theorem contains_of_le (hzero : r.Contains 0) (hsign : sign = 1 ∨ sign = -1) {m n : Nat}
    (hle : m ≤ n) (h : r.Contains (sign * n)) : r.Contains (sign * m) := by
  obtain ⟨hlow, hhigh⟩ := hzero
  obtain ⟨hlow', hhigh'⟩ := h
  rcases hsign with rfl | rfl
  · constructor <;> omega
  · constructor <;> omega

theorem next_value (sign : Int) (n d : Nat) :
    sign * (n : Int) * 10 + sign * (d : Int) = sign * ((10 * n + d : Nat) : Int) := by
  rw [Int.natCast_add, Int.natCast_mul, Int.mul_add, Int.mul_assoc, Int.mul_comm (n : Int)]
  rfl

section Digit

variable {c : Char} {n : Nat} {text : List Char}

/-- A digit is read on from if the number stays in the range. -/
theorem readDigits_cons_of_contains (hc : c.isDigit = true)
    (h : r.Contains (sign * ((10 * n + (c.toNat - '0'.toNat) : Nat) : Int))) :
    readDigits r sign (sign * n) (c :: text) =
      readDigits r sign (sign * ((10 * n + (c.toNat - '0'.toNat) : Nat) : Int)) text := by
  rw [readDigits, digit?_of_isDigit hc]
  simp only [next_value]
  rw [if_neg (Int.not_lt.mpr h.2), if_neg (Int.not_lt.mpr h.1)]

/-- A digit over which the number leaves the range is the end. -/
theorem readDigits_cons_ne_ok (hc : c.isDigit = true)
    (h : ¬r.Contains (sign * ((10 * n + (c.toNat - '0'.toNat) : Nat) : Int))) (m : Int) :
    readDigits r sign (sign * n) (c :: text) ≠ .ok m := by
  rw [readDigits, digit?_of_isDigit hc]
  simp only [next_value]
  intro hok
  split at hok
  · contradiction
  · next hhigh =>
    split at hok
    · contradiction
    · next hlow => exact h ⟨Int.not_lt.mp hlow, Int.not_lt.mp hhigh⟩

end Digit

theorem readDigits_eq_ok_iff (hzero : r.Contains 0) (hsign : sign = 1 ∨ sign = -1)
    (text : List Char) (n : Nat) (hn : r.Contains (sign * n)) (m : Int) :
    readDigits r sign (sign * n) text = .ok m ↔
      AreDigits text ∧ m = sign * Nat.ofDigitChars 10 text n ∧ r.Contains m := by
  induction text generalizing n with
  | nil =>
    rw [readDigits, Except.ok.injEq, Nat.ofDigitChars_nil]
    constructor
    · intro h
      rw [← h]
      exact ⟨fun _ hc => absurd hc List.not_mem_nil, rfl, hn⟩
    · intro h
      exact h.2.1.symm
  | cons c text ih =>
    cases hdigit : c.isDigit with
    | false =>
      rw [readDigits, digit?_of_not_isDigit hdigit]
      constructor
      · intro h
        contradiction
      · intro h
        have hc := h.1 c List.mem_cons_self
        rw [hdigit] at hc
        contradiction
    | true =>
      have hdigits : AreDigits (c :: text) ↔ AreDigits text := by
        simp only [AreDigits, List.forall_mem_cons, hdigit, true_and]
      rw [hdigits, Nat.ofDigitChars_cons]
      by_cases hin : r.Contains (sign * ((10 * n + (c.toNat - '0'.toNat) : Nat) : Int))
      · rw [readDigits_cons_of_contains hdigit hin]
        exact ih _ hin
      · constructor
        · intro h
          exact absurd h (readDigits_cons_ne_ok hdigit hin m)
        · intro h
          obtain ⟨-, hm, hcontains⟩ := h
          rw [hm] at hcontains
          -- more digits do not bring the number back
          have hgrown := le_ofDigitChars text (10 * n + (c.toNat - '0'.toNat))
          exact absurd (contains_of_le hzero hsign hgrown hcontains) hin

/-- Digits alone, all of one sign, are read from the start. -/
theorem readDigits_zero_eq_ok_iff (hzero : r.Contains 0) (hsign : sign = 1 ∨ sign = -1)
    (text : List Char) (m : Int) :
    readDigits r sign 0 text = .ok m ↔
      AreDigits text ∧ m = sign * Nat.ofDigitChars 10 text 0 ∧ r.Contains m := by
  have hstart := readDigits_eq_ok_iff hzero hsign text 0 (by simpa using hzero) m
  simpa only [Int.natCast_zero, Int.mul_zero] using hstart

theorem AreDigits.not_cons {c : Char} {text : List Char} (hc : c.isDigit = false) :
    ¬AreDigits (c :: text) := by
  intro h
  have hdigit := h c List.mem_cons_self
  rw [hc] at hdigit
  contradiction

theorem denotes_plus_iff {digits : List Char} {n : Int} :
    Denotes ('+' :: digits) n ↔
      digits ≠ [] ∧ AreDigits digits ∧ n = Nat.ofDigitChars 10 digits 0 := by
  constructor
  · intro h
    cases h with
    | plain _ hdigits => exact absurd hdigits (AreDigits.not_cons (by decide))
    | plus hne hdigits => exact ⟨hne, hdigits, rfl⟩
  · intro h
    obtain ⟨hne, hdigits, hn⟩ := h
    rw [hn]
    exact .plus hne hdigits

theorem denotes_minus_iff {digits : List Char} {n : Int} :
    Denotes ('-' :: digits) n ↔
      digits ≠ [] ∧ AreDigits digits ∧ n = -(Nat.ofDigitChars 10 digits 0 : Int) := by
  constructor
  · intro h
    cases h with
    | plain _ hdigits => exact absurd hdigits (AreDigits.not_cons (by decide))
    | minus hne hdigits => exact ⟨hne, hdigits, rfl⟩
  · intro h
    obtain ⟨hne, hdigits, hn⟩ := h
    rw [hn]
    exact .minus hne hdigits

/-- The numerals that are read are those for integers of the range. -/
theorem read_eq_ok_iff (hlow : r.low < 0) (hhigh : 0 ≤ r.high) {text : List Char} {n : Int} :
    read r text = .ok n ↔ Denotes text n ∧ r.Contains n := by
  have hzero : r.Contains 0 := ⟨Int.le_of_lt hlow, hhigh⟩
  unfold read
  split
  · constructor
    · intro h
      contradiction
    · intro h
      cases h.1 with
      | plain hne _ => exact absurd rfl hne
  · next c text =>
    rw [readDigits_zero_eq_ok_iff hzero (.inl rfl), denotes_plus_iff, Int.one_mul]
    simp only [ne_eq, List.cons_ne_nil, not_false_eq_true, true_and, and_assoc]
  · next c text =>
    rw [if_pos hlow, readDigits_zero_eq_ok_iff hzero (.inr rfl), denotes_minus_iff, Int.neg_one_mul]
    simp only [ne_eq, List.cons_ne_nil, not_false_eq_true, true_and, and_assoc]
  · next hempty hplus hminus =>
    rw [readDigits_zero_eq_ok_iff hzero (.inl rfl), Int.one_mul]
    constructor
    · intro h
      obtain ⟨hdigits, hn, hcontains⟩ := h
      rw [hn] at hcontains ⊢
      exact ⟨.plain hempty hdigits, hcontains⟩
    · intro h
      obtain ⟨hdenotes, hcontains⟩ := h
      cases hdenotes with
      | plain _ hdigits => exact ⟨hdigits, rfl, hcontains⟩
      | @plus digits hne _ =>
        obtain ⟨c, text, rfl⟩ := List.exists_cons_of_ne_nil hne
        exact absurd rfl (hplus c text)
      | @minus digits hne _ =>
        obtain ⟨c, text, rfl⟩ := List.exists_cons_of_ne_nil hne
        exact absurd rfl (hminus c text)

end Reading

end Numeral

end BoundedMerge
