import BoundedMerge.Proofs.Merge.PassCount
import BoundedMerge.Proofs.Strategy.Race
import BoundedMerge.Proofs.Strategy.Rankings

/-!
How many rankings of the words lead to an order of the inputs. Wherever a record comes from another
input than the one before, its word is greater than all words that brought a record before; if it
were less, its input would have been taken earlier. Nothing else is asked of the words. So with the
words in the order in which they come up, the last one first, an order is a marking, and a greater
number of turns from one input to another leaves fewer rankings.
-/

namespace BoundedMerge.Interleave

open Rankings
open scoped Nat

/-- The order takes each input as often as it has records. -/
def Fits (lengths out : List Nat) : Prop := ∀ i, out.count i = lengths[i]?.getD 0

/-- For each record that comes from another input than the one before, the number of records up to
it, all multiplied. -/
def turns (taken : Nat) (last : Option Nat) : List Nat → Nat
  | [] => 1
  | i :: out => (if last = some i then 1 else taken + 1) * turns (taken + 1) (some i) out

/-- Each word that brings a record from another input than the one before is greater than all words
that brought one before. -/
def Climbs (last : Option Nat) (past words : List UInt32) : List Nat → List UInt32 → Prop
  | i :: out, word :: later =>
    (last ≠ some i → ∀ old ∈ past, old < words[i]?.getD 0) ∧
      Climbs (some i) (words[i]?.getD 0 :: past) (words.set i word) out later
  | _, _ => True

/-- All words in the order in which they bring records, the last one first, behind those that bring
none. -/
def history (words past : List UInt32) : List Nat → List UInt32 → List UInt32
  | i :: out, word :: later => history (words.set i word) (words[i]?.getD 0 :: past) out later
  | _, _ => words ++ past

/-- Marks for the records that come from another input than the one before, the last one first. -/
def marks (last : Option Nat) (before : List Bool) : List Nat → List Bool
  | [] => before
  | i :: out => marks (some i) ((last != some i) :: before) out

variable {lengths out : List Nat} {words past later : List UInt32} {last : Option Nat}
  {before : List Bool} {i : Nat} {word : UInt32}

theorem peaks_unmarked (marks : List Bool) (words rest : List UInt32) :
    peaks (List.replicate words.length false ++ marks) (words ++ rest) = peaks marks rest := by
  induction words with
  | nil => rfl
  | cons word words ih =>
    rw [List.length_cons, List.replicate_succ, List.cons_append, List.cons_append, peaks, ih]
    rfl

/-- The order climbs if its history is as marked. -/
theorem peaks_history (hlength : later.length = out.length) :
    peaks (List.replicate words.length false ++ marks last before out)
        (history words past out later) = true ↔
      Climbs last past words out later ∧ peaks before past = true := by
  induction out generalizing last before words past later with
  | nil =>
    obtain rfl := List.length_eq_zero_iff.mp hlength
    rw [marks, history, peaks_unmarked, Climbs, true_and]
    all_goals simp
  | cons i out ih =>
    cases later with
    | nil => cases hlength
    | cons word later =>
      have hrest : peaks (List.replicate (words.set i word).length false ++
            marks (some i) ((last != some i) :: before) out)
            (history (words.set i word) (words[i]?.getD 0 :: past) out later) = true ↔
          Climbs (some i) (words[i]?.getD 0 :: past) (words.set i word) out later ∧
            peaks ((last != some i) :: before) (words[i]?.getD 0 :: past) = true :=
        ih (Nat.succ.inj hlength)
      rw [List.length_set] at hrest
      rw [marks, history, hrest, Climbs, peaks]
      simp only [Bool.and_eq_true, Bool.or_eq_true, Bool.not_eq_true', bne_eq_false_iff_eq,
        List.all_eq_true, decide_eq_true_eq]
      tauto

/-- Every input that has yet to give a record, but the last one, holds a word that is greater than
all that brought a record before. -/
def Clear (last : Option Nat) (past words : List UInt32) (out : List Nat) : Prop :=
  ∀ j ∈ out, last ≠ some j → ∀ old ∈ past, old < words[j]?.getD 0

theorem clear_nil (last : Option Nat) (words : List UInt32) (out : List Nat) :
    Clear last [] words out :=
  fun _ _ _ _ hold => absurd hold List.not_mem_nil

/-- What has climbed ever since leaves no other choice. -/
theorem clear_of_climbs (hlength : later.length = out.length)
    (h : Climbs last past words out later) : Clear last past words out := by
  induction out generalizing last past words later with
  | nil => exact nofun
  | cons i out ih =>
    cases later with
    | nil => cases hlength
    | cons word later =>
      obtain ⟨hfirst, hrest⟩ := h
      intro j hj hlast old hold
      by_cases hij : j = i
      · subst hij
        exact hfirst hlast old hold
      · have hmem := List.mem_of_ne_of_mem hij hj
        have hlt := ih (Nat.succ.inj hlength) hrest j hmem (by simpa using Ne.symm hij) old
          (List.mem_cons_of_mem _ hold)
        rwa [List.getElem?_set_ne (Ne.symm hij)] at hlt

theorem Fits.lt_length (h : Fits lengths out) (hi : i ∈ out) : i < lengths.length := by
  by_contra hge
  have hcount := h i
  rw [List.getElem?_eq_none (Nat.le_of_not_lt hge), Option.getD_none,
    List.count_eq_zero] at hcount
  exact hcount hi

theorem fits_iff : Fits lengths out ↔
    (∀ i ∈ out, i < lengths.length) ∧ ∀ i < lengths.length, out.count i = lengths[i]?.getD 0 := by
  constructor
  · exact fun h => ⟨fun i hi => h.lt_length hi, fun i _ => h i⟩
  · intro h i
    obtain ⟨hbound, hcount⟩ := h
    by_cases hi : i < lengths.length
    · exact hcount i hi
    · rw [List.getElem?_eq_none (Nat.le_of_not_lt hi), Option.getD_none, List.count_eq_zero]
      exact fun hmem => hi (hbound i hmem)

instance : Decidable (Fits lengths out) := decidable_of_iff' _ fits_iff

theorem fits_nil_iff : Fits lengths [] ↔ ∀ n ∈ lengths, n = 0 := by
  constructor
  · intro h n hn
    obtain ⟨i, hi⟩ := List.mem_iff_getElem?.mp hn
    have hcount := h i
    rw [hi] at hcount
    exact hcount.symm
  · intro h i
    cases hi : lengths[i]? with
    | none => rfl
    | some n => exact (h n (List.mem_of_getElem? hi)).symm

theorem fits_cons_iff : Fits lengths (i :: out) ↔
    0 < lengths[i]?.getD 0 ∧ Fits (lengths.modify i (· - 1)) out := by
  have hmodify (j : Nat) : (lengths.modify i (· - 1))[j]?.getD 0 =
      if j = i then lengths[j]?.getD 0 - 1 else lengths[j]?.getD 0 := by
    rw [List.getElem?_modify]
    cases lengths[j]? <;> simp [eq_comm]
  simp only [Fits, hmodify, List.count_cons, beq_iff_eq]
  constructor
  · intro h
    refine ⟨?_, fun j => ?_⟩
    · have hi := h i
      rw [if_pos rfl] at hi
      omega
    · have hj := h j
      by_cases hij : i = j
      · subst hij
        simp only [if_true] at hj ⊢
        omega
      · rw [if_neg hij] at hj
        rw [if_neg (Ne.symm hij)]
        omega
  · intro h
    obtain ⟨hpos, hrest⟩ := h
    intro j
    have hj := hrest j
    by_cases hij : i = j
    · subst hij
      simp only [if_true] at hj ⊢
      omega
    · rw [if_neg hij]
      rw [if_neg (Ne.symm hij)] at hj
      omega

theorem sum_modify (h : 0 < lengths[i]?.getD 0) :
    (lengths.modify i (· - 1)).sum + 1 = lengths.sum := by
  rcases hi : lengths[i]? with _ | _ | n
  · simp [hi] at h
  · simp [hi] at h
  · have hsum := sum_set hi n
    have hmodify : lengths.modify i (· - 1) = lengths.set i n := by
      rw [List.modify_eq_set_getElem?, hi]
      rfl
    rw [hmodify]
    omega

/-- A race for as many words as there are records takes each input as often as it has records. -/
theorem race_fits (hlength : words.length = lengths.length) (hlater : later.length = lengths.sum) :
    Fits lengths (race words lengths later) := by
  induction later generalizing words lengths with
  | nil => exact fits_nil_iff.mpr (List.sum_eq_zero_iff_forall_eq_nat.mp hlater.symm)
  | cons word later ih =>
    rw [race]
    cases hscan : Ordered.scan compare (contenders words lengths) with
    | none =>
      have hnone : Ordered.Scanned compare (contenders words lengths) _ :=
        Ordered.scanned_scan (contenders words lengths)
      rw [hscan] at hnone
      have hzero : lengths.sum = 0 := by
        refine List.sum_eq_zero_iff_forall_eq_nat.mpr fun n hn => ?_
        obtain ⟨i, hi⟩ := List.mem_iff_getElem?.mp hn
        have hlt : i < words.length := hlength ▸ (List.getElem?_eq_some_iff.mp hi).1
        by_contra hne
        have hpending := getElem?_contenders.mpr
          ⟨List.getElem?_eq_getElem hlt, by rw [hi]; exact Nat.pos_of_ne_zero hne⟩
        cases hnone _ (List.mem_of_getElem? hpending)
      rw [hzero] at hlater
      cases hlater
    | some found =>
      obtain ⟨i, held⟩ := found
      have hleast := (Ordered.scan_eq_some_iff _ i held).mp hscan
      have hpos := (getElem?_contenders.mp hleast.pending).2
      refine fits_cons_iff.mpr ⟨hpos, ih (by simpa using hlength) ?_⟩
      have hsum := sum_modify hpos
      rw [List.length_cons] at hlater
      omega

def Leads (words : List UInt32) (lengths : List Nat) (i : Nat) : Prop :=
  0 < lengths[i]?.getD 0 ∧
    ∀ j, 0 < lengths[j]?.getD 0 → j ≠ i → words[i]?.getD 0 < words[j]?.getD 0

theorem scan_contenders (hlength : words.length = lengths.length) (hnodup : words.Nodup) :
    (∃ x, Ordered.scan compare (contenders words lengths) = some (i, x)) ↔
      Leads words lengths i := by
  have hheld (j : Nat) (hj : 0 < lengths[j]?.getD 0) : ∃ x, words[j]? = some x := by
    have hlt : j < words.length := by
      by_contra hge
      rw [List.getElem?_eq_none (by omega)] at hj
      simp at hj
    exact ⟨_, List.getElem?_eq_getElem hlt⟩
  constructor
  · intro h
    obtain ⟨x, hscan⟩ := h
    obtain ⟨hpending, hle, -⟩ := (Ordered.scan_eq_some_iff _ i x).mp hscan
    obtain ⟨hx, hpos⟩ := getElem?_contenders.mp hpending
    refine ⟨hpos, fun j hj hji => ?_⟩
    obtain ⟨y, hy⟩ := hheld j hj
    have hcmp := hle j y (getElem?_contenders.mpr ⟨hy, hj⟩)
    rw [Std.isLE_compare] at hcmp
    rw [hx, hy]
    refine UInt32.lt_of_le_of_ne hcmp fun hxy => hji ?_
    obtain rfl : x = y := hxy
    have hin := (List.getElem?_eq_some_iff.mp hy).1
    exact (List.getElem?_inj hin hnodup).mp (hy.trans hx.symm)
  · intro h
    obtain ⟨hpos, hlt⟩ := h
    obtain ⟨x, hx⟩ := hheld i hpos
    refine ⟨x, (Ordered.scan_eq_some_iff _ i x).mpr ⟨getElem?_contenders.mpr ⟨hx, hpos⟩, ?_, ?_⟩⟩
    · intro j y hy
      obtain ⟨hy, hj⟩ := getElem?_contenders.mp hy
      rw [Std.isLE_compare]
      by_cases hji : j = i
      · subst hji
        rw [hx] at hy
        cases hy
        exact UInt32.le_refl x
      · have h := hlt j hj hji
        rw [hx, hy] at h
        exact UInt32.le_of_lt h
    · intro j y hji hy
      obtain ⟨hy, hj⟩ := getElem?_contenders.mp hy
      have h := hlt j hj (Nat.ne_of_lt hji)
      rw [hx, hy] at h
      exact Std.compare_eq_lt.mpr h

/-- Where a word is drawn for an input, the input's own goes. -/
theorem perm_set (hi : i < words.length) (word : UInt32) :
    (words[i]?.getD 0 :: words.set i word).Perm (word :: words) := by
  rw [List.getElem?_eq_getElem hi, Option.getD_some]
  have hset : (words[i] :: words.set i word).Perm (words[i] :: word :: words.eraseIdx i) :=
    (List.set_perm_cons_eraseIdx hi word).cons _
  have hswap : (words[i] :: word :: words.eraseIdx i).Perm (word :: words[i] :: words.eraseIdx i) :=
    .swap _ _ _
  exact (hset.trans hswap).trans ((List.getElem_cons_eraseIdx_perm hi).cons _)

theorem race_cons_iff (hlength : words.length = lengths.length) (hnodup : words.Nodup) :
    race words lengths (word :: later) = i :: out ↔
      Leads words lengths i ∧
        race (words.set i word) (lengths.modify i (· - 1)) later = out := by
  rw [← scan_contenders hlength hnodup, race]
  cases hscan : Ordered.scan compare (contenders words lengths) with
  | none => simp
  | some found =>
    obtain ⟨j, x⟩ := found
    simp only [List.cons.injEq, Option.some.injEq, Prod.mk.injEq, exists_and_left,
      exists_eq', and_true]
    refine and_congr_right fun hij => ?_
    rw [hij]

/-- The race takes the inputs in an order just if the order climbs. -/
theorem race_eq_iff (hfits : Fits lengths out) (hlength : words.length = lengths.length)
    (hlater : later.length = out.length) (hnodup : (words ++ later).Nodup)
    (hclear : Clear last past words out) :
    race words lengths later = out ↔ Climbs last past words out later := by
  induction out generalizing last past words lengths later with
  | nil =>
    obtain rfl := List.length_eq_zero_iff.mp hlater
    exact iff_of_true rfl trivial
  | cons i out ih =>
    cases later with
    | nil => cases hlater
    | cons word later =>
      have hi : i < words.length := hlength ▸ hfits.lt_length List.mem_cons_self
      have hnext : (words.set i word ++ later).Nodup := by
        have hperm : (words[i]?.getD 0 :: (words.set i word ++ later)).Perm
            (words ++ word :: later) :=
          ((perm_set hi word).append_right later).trans List.perm_middle.symm
        exact (List.nodup_cons.mp (hperm.nodup_iff.mpr hnodup)).2
      have hlive (j : Nat) : 0 < lengths[j]?.getD 0 ↔ j ∈ i :: out := by
        rw [← hfits j, List.count_pos_iff]
      have hrest (hclear' : Clear (some i) (words[i]?.getD 0 :: past) (words.set i word) out) :
          race (words.set i word) (lengths.modify i (· - 1)) later = out ↔
            Climbs (some i) (words[i]?.getD 0 :: past) (words.set i word) out later :=
        ih (fits_cons_iff.mp hfits).2 (by simpa using hlength) (Nat.succ.inj hlater) hnext hclear'
      rw [race_cons_iff hlength hnodup.of_append_left, Climbs]
      constructor
      · intro h
        obtain ⟨hleads, hrace⟩ := h
        refine ⟨hclear i List.mem_cons_self, (hrest ?_).mp hrace⟩
        intro j hj hji old hold
        replace hji : j ≠ i := fun h => hji (congrArg some h.symm)
        rw [List.getElem?_set_ne hji.symm]
        have hlt := hleads.2 j ((hlive j).mpr (List.mem_cons_of_mem _ hj)) hji
        rcases List.mem_cons.mp hold with rfl | hold
        · exact hlt
        -- Of the two only one can be the last.
        · by_cases hlast : last = some j
          · have hfirst := hclear i List.mem_cons_self (by simpa [hlast] using hji) old hold
            exact UInt32.lt_trans hfirst hlt
          · exact hclear j (List.mem_cons_of_mem _ hj) hlast old hold
      · intro h
        obtain ⟨-, hclimbs⟩ := h
        have hclear' := clear_of_climbs (Nat.succ.inj hlater) hclimbs
        refine ⟨⟨(hlive i).mpr List.mem_cons_self, fun j hj hji => ?_⟩, (hrest hclear').mpr hclimbs⟩
        have hmem := List.mem_of_ne_of_mem hji ((hlive j).mp hj)
        have hlt := hclear' j hmem (by simpa using hji.symm) _ List.mem_cons_self
        rwa [List.getElem?_set_ne hji.symm] at hlt

theorem history_perm (hlater : later.length = out.length)
    (hbound : ∀ i ∈ out, i < words.length) :
    (history words past out later).Perm (words ++ later ++ past) := by
  induction out generalizing words past later with
  | nil =>
    obtain rfl := List.length_eq_zero_iff.mp hlater
    rw [history, List.append_nil]
    exact nofun
  | cons i out ih =>
    cases later with
    | nil => cases hlater
    | cons word later =>
      have hrest (j : Nat) (hj : j ∈ out) : j < (words.set i word).length := by
        rw [List.length_set]
        exact hbound j (List.mem_cons_of_mem _ hj)
      rw [history]
      refine (ih (Nat.succ.inj hlater) hrest).trans (List.perm_middle.trans ?_)
      rw [← List.cons_append, ← List.cons_append]
      exact (((perm_set (hbound i List.mem_cons_self) word).append_right later).trans
        List.perm_middle.symm).append_right past

/-- The words can be told from the history of an order. -/
theorem history_inj {words' past' later' : List UInt32} (hwords : words'.length = words.length)
    (hlater : later.length = out.length) (hlater' : later'.length = out.length)
    (hbound : ∀ i ∈ out, i < words.length)
    (h : history words past out later = history words' past' out later') :
    words = words' ∧ past = past' ∧ later = later' := by
  induction out generalizing words words' past past' later later' with
  | nil =>
    obtain rfl := List.length_eq_zero_iff.mp hlater
    obtain rfl := List.length_eq_zero_iff.mp hlater'
    rw [history, history] at h
    · obtain ⟨h, h'⟩ := List.append_inj h hwords.symm
      exact ⟨h, h', rfl⟩
    all_goals exact nofun
  | cons i out ih =>
    cases later with
    | nil => cases hlater
    | cons word later =>
      cases later' with
      | nil => cases hlater'
      | cons word' later' =>
        have hi := hbound i List.mem_cons_self
        have hrest (j : Nat) (hj : j ∈ out) : j < (words.set i word).length := by
          rw [List.length_set]
          exact hbound j (List.mem_cons_of_mem _ hj)
        rw [history, history] at h
        obtain ⟨hset, hpast, rfl⟩ := ih (by rw [List.length_set, List.length_set, hwords])
          (Nat.succ.inj hlater) (Nat.succ.inj hlater') hrest h
        obtain ⟨hheld, rfl⟩ := List.cons.inj hpast
        rw [List.getElem?_eq_getElem hi, List.getElem?_eq_getElem (by omega), Option.getD_some,
          Option.getD_some] at hheld
        have hword := congrArg (fun words => words[i]?) hset
        simp only [List.getElem?_set_self hi, List.getElem?_set_self (hwords ▸ hi),
          Option.some.injEq] at hword
        have hback := congrArg (fun set => set.set i words[i]) hset
        simp only [List.set_set, List.set_getElem_self] at hback
        rw [hheld, List.set_getElem_self] at hback
        exact ⟨hback, rfl, by rw [hword]⟩

theorem spread_unmarked (marks : List Bool) (unmarked count : Nat) :
    spread (List.replicate unmarked false ++ marks) (unmarked + count) = spread marks count := by
  induction unmarked with
  | zero => rw [List.replicate_zero, List.nil_append, Nat.zero_add]
  | succ unmarked ih =>
    rw [List.replicate_succ, List.cons_append, Nat.succ_add, spread, ih]
    exact Nat.one_mul _

theorem spread_marks (last : Option Nat) (before : List Bool) (out : List Nat) :
    spread (marks last before out) (before.length + out.length) =
      turns before.length last out * spread before before.length := by
  induction out generalizing last before with
  | nil => rw [marks, turns, List.length_nil, Nat.add_zero, Nat.one_mul]
  | cons i out ih =>
    have hrest := ih (some i) ((last != some i) :: before)
    rw [List.length_cons, spread, Nat.succ_add] at hrest
    rw [marks, List.length_cons, ← Nat.add_assoc, hrest, turns]
    by_cases hlast : last = some i
    · simp [hlast]
    · simp [hlast, Nat.mul_left_comm, Nat.mul_assoc]

theorem Fits.length_eq (h : Fits lengths out) : out.length = lengths.sum := by
  induction out generalizing lengths with
  | nil => exact (List.sum_eq_zero (fits_nil_iff.mp h)).symm
  | cons i out ih =>
    obtain ⟨hpos, hrest⟩ := fits_cons_iff.mp h
    rw [List.length_cons, ih hrest, sum_modify hpos]

/-- A rearrangement that loses nothing takes the arrangements of different words to each other. -/
theorem perm_map_permutations {rearrange : List UInt32 → List UInt32} (hnodup : words.Nodup)
    (hperm : ∀ ws, ws.Perm words → (rearrange ws).Perm words)
    (hinj : ∀ ws ws', ws.Perm words → ws'.Perm words → rearrange ws = rearrange ws' → ws = ws') :
    (words.permutations.map rearrange).Perm words.permutations := by
  have hdistinct : (words.permutations.map rearrange).Nodup :=
    (List.nodup_permutations words hnodup).map_on fun ws hws ws' hws' h =>
      hinj ws ws' (List.mem_permutations.mp hws) (List.mem_permutations.mp hws') h
  have hsubset : words.permutations.map rearrange ⊆ words.permutations := by
    intro ws hws
    obtain ⟨ws', hws', rfl⟩ := List.mem_map.mp hws
    exact List.mem_permutations.mpr (hperm ws' (List.mem_permutations.mp hws'))
  exact (List.subperm_of_subset hdistinct hsubset).perm_of_length_le (by rw [List.length_map])

def unfolded (lengths out : List Nat) (words : List UInt32) : List UInt32 :=
  history (words.take lengths.length).reverse [] out (words.drop lengths.length)

theorem Fits.size_eq (h : Fits lengths out)
    (hlength : words.length = lengths.length + lengths.sum) :
    (words.take lengths.length).reverse.length = lengths.length ∧
      (words.drop lengths.length).length = out.length := by
  rw [List.length_reverse, List.length_take, List.length_drop, hlength, h.length_eq]
  omega

theorem parts_perm (count : Nat) (words : List UInt32) :
    ((words.take count).reverse ++ words.drop count).Perm words := by
  have h := (List.reverse_perm (words.take count)).append_right (words.drop count)
  rwa [List.take_append_drop] at h

theorem unfolded_perm (hfits : Fits lengths out)
    (hlength : words.length = lengths.length + lengths.sum) :
    (unfolded lengths out words).Perm words := by
  obtain ⟨hfirst, hlater⟩ := hfits.size_eq hlength
  have hperm : (unfolded lengths out words).Perm
      ((words.take lengths.length).reverse ++ words.drop lengths.length ++ []) :=
    history_perm hlater fun i hi => hfirst.symm ▸ hfits.lt_length hi
  rw [List.append_nil] at hperm
  exact hperm.trans (parts_perm _ words)

theorem unfolded_inj {words' : List UInt32} (hfits : Fits lengths out)
    (hlength : words.length = lengths.length + lengths.sum)
    (hlength' : words'.length = lengths.length + lengths.sum)
    (h : unfolded lengths out words = unfolded lengths out words') : words = words' := by
  obtain ⟨hfirst, hlater⟩ := hfits.size_eq hlength
  obtain ⟨hfirst', hlater'⟩ := hfits.size_eq hlength'
  obtain ⟨htake, -, hdrop⟩ := history_inj (by rw [hfirst, hfirst']) hlater hlater'
    (fun i hi => hfirst.symm ▸ hfits.lt_length hi) h
  rw [← List.take_append_drop lengths.length words, List.reverse_injective htake, hdrop,
    List.take_append_drop]

/-- The words lead to an order if they come up with peaks where it turns. -/
theorem order_eq_iff_peaks (hfits : Fits lengths out) (hnodup : words.Nodup)
    (hlength : words.length = lengths.length + lengths.sum) :
    order lengths words = out ↔ peaks (List.replicate lengths.length false ++ marks none [] out)
      (unfolded lengths out words) = true := by
  obtain ⟨hfirst, hlater⟩ := hfits.size_eq hlength
  have hdistinct := (parts_perm lengths.length words).nodup_iff.mpr hnodup
  have hpeaks : peaks (List.replicate (words.take lengths.length).reverse.length false ++
        marks none [] out) (unfolded lengths out words) = true ↔
      Climbs none [] (words.take lengths.length).reverse out (words.drop lengths.length) ∧
        peaks [] [] = true :=
    peaks_history hlater
  rw [hfirst] at hpeaks
  rw [order, race_eq_iff hfits hfirst hlater hdistinct (clear_nil _ _ _), hpeaks]
  exact (and_iff_left rfl).symm

/-- Of all arrangements of different words, one in as many as the order has turns leads to it. -/
theorem countP_order (hfits : Fits lengths out) (hnodup : words.Nodup)
    (hlength : words.length = lengths.length + lengths.sum) :
    words.permutations.countP (order lengths · = out) * turns 0 none out = words.length ! := by
  let marked := List.replicate lengths.length false ++ marks none [] out
  have hsize {ws : List UInt32} (hws : ws.Perm words) : ws.length = lengths.length + lengths.sum :=
    hws.length_eq.trans hlength
  have hunfolded : (words.permutations.map (unfolded lengths out)).Perm words.permutations :=
    perm_map_permutations hnodup (fun ws hws => (unfolded_perm hfits (hsize hws)).trans hws)
      fun ws ws' hws hws' => unfolded_inj hfits (hsize hws) (hsize hws')
  have hcount : words.permutations.countP (order lengths · = out) =
      words.permutations.countP (peaks marked) := by
    rw [← hunfolded.countP_eq (peaks marked), List.countP_map]
    refine List.countP_congr fun ws hws => ?_
    replace hws := List.mem_permutations.mp hws
    rw [decide_eq_true_iff]
    exact order_eq_iff_peaks hfits (hws.nodup_iff.mpr hnodup) (hsize hws)
  have hspread : spread marked words.length = turns 0 none out := by
    rw [hlength, spread_unmarked, ← hfits.length_eq]
    have h := spread_marks none [] out
    rw [List.length_nil, Nat.zero_add] at h
    rw [h]
    exact Nat.mul_one _
  rw [hcount, ← hspread]
  exact countP_peaks marked hnodup

/-- A merge takes each input as often as it has records. -/
theorem takes_fits (hpos : ∀ n ∈ lengths, 0 < n)
    (hlength : words.length = lengths.length + lengths.sum) :
    Fits lengths (takes lengths words) := by
  rw [takes_eq_order hpos hlength]
  refine race_fits ?_ ?_
  · rw [List.length_reverse, List.length_take]
    omega
  · rw [List.length_drop]
    omega

end BoundedMerge.Interleave
