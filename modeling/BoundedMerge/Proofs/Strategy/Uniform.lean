import BoundedMerge.Proofs.Merge.Driver
import BoundedMerge.Proofs.Strategy.Dealing

/-!
Which merges are uniform. An order of the inputs that stays longer with one input has fewer turns,
so more rankings of the words lead to it. The orders are equally likely only if there is nothing to
choose, or if no input can be stayed with because each has one record. So pieces that were shuffled
are in general not merged into a uniformly random permutation of all records: the input that was
taken last begins anew, while the words of all others have been passed over already.
-/

namespace BoundedMerge.Interleave

open SiteM WordSource
open scoped Nat

variable {lengths out : List Nat} {words : List UInt32} {last : Option Nat} {i : Nat}

/-- Equally many rankings of the words lead to each order that takes the inputs as often as they
have records. -/
def Uniform (lengths : List Nat) (words : List UInt32) : Prop :=
  ∀ out out', Fits lengths out → Fits lengths out' →
    words.permutations.countP (takes lengths · = out) =
      words.permutations.countP (takes lengths · = out')

theorem countP_takes (hpos : ∀ n ∈ lengths, 0 < n) (hnodup : words.Nodup)
    (hlength : words.length = lengths.length + lengths.sum) (hfits : Fits lengths out) :
    words.permutations.countP (takes lengths · = out) * turns 0 none out = words.length ! := by
  have hcount : words.permutations.countP (takes lengths · = out) =
      words.permutations.countP (order lengths · = out) := by
    refine List.countP_congr fun ws hws => ?_
    have hws := (List.mem_permutations.mp hws).length_eq
    rw [takes_eq_order hpos (hws.trans hlength)]
  rw [hcount]
  exact countP_order hfits hnodup hlength

theorem turns_pos (taken : Nat) (last : Option Nat) (out : List Nat) :
    0 < turns taken last out := by
  induction out generalizing taken last with
  | nil => exact Nat.one_pos
  | cons i out ih =>
    rw [turns]
    refine Nat.mul_pos ?_ (ih _ _)
    split <;> omega

theorem uniform_iff_turns (hpos : ∀ n ∈ lengths, 0 < n) (hnodup : words.Nodup)
    (hlength : words.length = lengths.length + lengths.sum) :
    Uniform lengths words ↔
      ∀ out out', Fits lengths out → Fits lengths out' → turns 0 none out = turns 0 none out' := by
  have hsame {out out' : List Nat} (hfits : Fits lengths out) (hfits' : Fits lengths out') :
      words.permutations.countP (takes lengths · = out) =
          words.permutations.countP (takes lengths · = out') ↔
        turns 0 none out = turns 0 none out' := by
    have hlaw := countP_takes hpos hnodup hlength hfits
    have hlaw' := (countP_takes hpos hnodup hlength hfits').trans hlaw.symm
    constructor
    · intro hcount
      rw [hcount] at hlaw'
      have hsome : 0 < words.permutations.countP (takes lengths · = out') := by
        refine Nat.pos_of_ne_zero fun hzero => ?_
        rw [hcount, hzero, Nat.zero_mul] at hlaw
        exact (Nat.factorial_pos _).ne hlaw
      exact (Nat.eq_of_mul_eq_mul_left hsome hlaw').symm
    · intro hturns
      rw [hturns] at hlaw'
      exact (Nat.eq_of_mul_eq_mul_right (turns_pos _ _ _) hlaw').symm
  exact forall₄_congr fun out out' hfits hfits' => hsame hfits hfits'

theorem turns_replicate (taken count : Nat) (rest : List Nat) :
    turns taken (some i) (List.replicate count i ++ rest) =
      turns (taken + count) (some i) rest := by
  induction count generalizing taken with
  | zero => rfl
  | succ count ih =>
    rw [List.replicate_succ, List.cons_append, turns, if_pos rfl, Nat.one_mul, ih,
      Nat.succ_add_eq_add_succ]

/-- Where no record comes from the same input as the one before, only their number matters. -/
theorem turns_of_nodup (hnodup : out.Nodup) (hlast : ∀ i ∈ out, last ≠ some i) (taken : Nat) :
    turns taken last out = (taken + 1).ascFactorial out.length := by
  induction out generalizing last taken with
  | nil => rfl
  | cons i out ih =>
    obtain ⟨hi, hnodup⟩ := List.nodup_cons.mp hnodup
    have hnext : ∀ j ∈ out, some i ≠ some j := fun j hj h => hi (Option.some.inj h ▸ hj)
    rw [turns, if_neg (hlast i List.mem_cons_self), ih hnodup hnext, List.length_cons,
      Nat.ascFactorial_succ, Nat.succ_ascFactorial]

/-- It is no better to come behind an input that has nothing left. -/
theorem turns_le (taken j : Nat) (hi : i ∉ out) :
    turns taken (some j) out ≤ turns taken (some i) out := by
  cases out with
  | nil => exact Nat.le_refl _
  | cons l out =>
    have hil : some i ≠ some l := fun h => hi (Option.some.inj h ▸ List.mem_cons_self)
    rw [turns, turns, if_neg hil]
    refine Nat.mul_le_mul_right _ ?_
    split <;> omega

theorem exists_fits (lengths : List Nat) : ∃ out, Fits lengths out := by
  induction lengths with
  | nil => exact ⟨[], fun _ => rfl⟩
  | cons length lengths ih =>
    obtain ⟨out, hout⟩ := ih
    refine ⟨List.replicate length 0 ++ out.map (· + 1), fun i => ?_⟩
    cases i with
    | zero =>
      have hnone : (out.map (· + 1)).count 0 = 0 := List.count_eq_zero.mpr (by simp)
      rw [List.count_append, List.count_replicate_self, hnone]
      rfl
    | succ i =>
      have hnone : (List.replicate length 0).count (i + 1) = 0 :=
        List.count_eq_zero.mpr (by simp [List.mem_replicate])
      rw [List.count_append, hnone, Nat.zero_add,
        List.count_map_of_injective out (· + 1) (add_left_injective 1), hout i]
      rfl

theorem Fits.perm {out' : List Nat} (h : Fits lengths out) (hperm : out'.Perm out) :
    Fits lengths out' :=
  fun i => (hperm.count_eq i).trans (h i)

/-- An order may begin with all records but one of an input, and then take the last one and one of
another input. -/
theorem exists_fits_append {j count : Nat} (hi : lengths[i]? = some (count + 2)) (hij : i ≠ j)
    (hj : 0 < lengths[j]?.getD 0) :
    ∃ rest, i ∉ rest ∧ Fits lengths (List.replicate (count + 1) i ++ i :: j :: rest) := by
  obtain ⟨out, hout⟩ := exists_fits lengths
  let others := out.filter fun l => !(l == i)
  have hcount : out.count i = count + 2 := by
    rw [hout i, hi]
    rfl
  have hmem : j ∈ others := by
    refine List.mem_filter.mpr ⟨?_, by simpa using hij.symm⟩
    rw [← List.count_pos_iff, hout j]
    exact hj
  refine ⟨others.erase j, fun h => ?_, hout.perm ?_⟩
  · have hother := List.mem_filter.mp (List.mem_of_mem_erase h)
    simp at hother
  · have hsplit := List.filter_append_perm (· == i) out
    rw [List.filter_beq, hcount, List.replicate_succ', List.append_assoc,
      List.singleton_append] at hsplit
    have hothers : (i :: j :: others.erase j).Perm (i :: others) :=
      (List.perm_cons_erase hmem).symm.cons i
    exact (hothers.append_left _).trans hsplit

/-- Where an input has two records or more and there is another one, that one can come in before
the last of the two or behind it, and the orders do not turn equally often. -/
theorem exists_uneven {j count : Nat} (hi : lengths[i]? = some (count + 2)) (hij : i ≠ j)
    (hj : 0 < lengths[j]?.getD 0) : ∃ out out', Fits lengths out ∧ Fits lengths out' ∧
      turns 0 none out < turns 0 none out' := by
  obtain ⟨rest, hrest, hfits⟩ := exists_fits_append hi hij hj
  have hswap : (List.replicate (count + 1) i ++ j :: i :: rest).Perm
      (List.replicate (count + 1) i ++ i :: j :: rest) :=
    (List.Perm.swap i j rest).append_left _
  refine ⟨_, _, hfits, hfits.perm hswap, ?_⟩
  have hne : ¬some i = some j := fun h => hij (Option.some.inj h)
  have hne' : ¬some j = some i := fun h => hij (Option.some.inj h).symm
  have hbegin (out : List Nat) : turns 0 none (List.replicate (count + 1) i ++ out) =
      turns (count + 1) (some i) out := by
    rw [List.replicate_succ, List.cons_append, turns, turns_replicate,
      if_neg (Option.some_ne_none i).symm, Nat.zero_add, Nat.one_mul, Nat.add_comm]
  have hbehind : turns (count + 1) (some i) (i :: j :: rest) =
      (count + 3) * turns (count + 3) (some j) rest := by
    rw [turns, turns, if_pos rfl, if_neg hne, Nat.one_mul]
  have hbetween : turns (count + 1) (some i) (j :: i :: rest) =
      (count + 2) * ((count + 3) * turns (count + 3) (some i) rest) := by
    rw [turns, turns, if_neg hne, if_neg hne']
  rw [hbegin, hbegin, hbehind, hbetween]
  calc
    (count + 3) * turns (count + 3) (some j) rest
      ≤ (count + 3) * turns (count + 3) (some i) rest :=
        Nat.mul_le_mul_left _ (turns_le (count + 3) j hrest)
    _ < (count + 2) * ((count + 3) * turns (count + 3) (some i) rest) := by
        refine lt_mul_of_one_lt_left ?_ (by omega)
        exact Nat.mul_pos (Nat.succ_pos _) (turns_pos _ _ _)

/-- Where there is nothing to choose, or no input to stay with, all orders turn equally often. -/
theorem turns_eq {out' : List Nat} (h : lengths.length ≤ 1 ∨ ∀ n ∈ lengths, n = 1)
    (hfits : Fits lengths out) (hfits' : Fits lengths out') :
    turns 0 none out = turns 0 none out' := by
  have hlengths : out.length = out'.length := hfits.length_eq.trans hfits'.length_eq.symm
  rcases h with hone | hones
  · have hzeros {out : List Nat} (hfits : Fits lengths out) :
        out = List.replicate out.length 0 := by
      refine List.eq_replicate_of_mem fun i hi => ?_
      have hlt := hfits.lt_length hi
      omega
    rw [hzeros hfits, hzeros hfits', hlengths]
  · have hturns {out : List Nat} (hfits : Fits lengths out) :
        turns 0 none out = (0 + 1).ascFactorial out.length := by
      refine turns_of_nodup ?_ (fun i _ => (Option.some_ne_none i).symm) 0
      rw [List.nodup_iff_count_le_one]
      intro i
      rw [hfits i]
      cases hi : lengths[i]? with
      | none => exact Nat.zero_le _
      | some n => exact (hones n (List.mem_of_getElem? hi)).le
    rw [hturns hfits, hturns hfits', hlengths]

theorem uniform_iff (hpos : ∀ n ∈ lengths, 0 < n) (hnodup : words.Nodup)
    (hlength : words.length = lengths.length + lengths.sum) :
    Uniform lengths words ↔ lengths.length ≤ 1 ∨ ∀ n ∈ lengths, n = 1 := by
  rw [uniform_iff_turns hpos hnodup hlength]
  constructor
  · intro hsame
    refine (Nat.lt_or_ge 1 lengths.length).symm.imp id fun hmany n hn => ?_
    by_contra hne
    have hlow : 2 ≤ n := by
      have := hpos n hn
      omega
    obtain ⟨count, rfl⟩ := Nat.exists_eq_add_of_le' hlow
    obtain ⟨i, hi⟩ := List.mem_iff_getElem?.mp hn
    obtain ⟨j, hij, hj⟩ : ∃ j, i ≠ j ∧ j < lengths.length := by
      by_cases hzero : i = 0
      · exact ⟨1, by omega, hmany⟩
      · exact ⟨0, hzero, by omega⟩
    have hposj : 0 < lengths[j]?.getD 0 := by
      rw [List.getElem?_eq_getElem hj]
      exact hpos _ (List.getElem_mem hj)
    obtain ⟨out, out', hfits, hfits', hturns⟩ := exists_uneven hi hij hposj
    exact hturns.ne (hsame out out' hfits hfits')
  · exact fun h out out' hfits hfits' => turns_eq h hfits hfits'

/-- Pieces of different records are merged with equal weight into all permutations of the records
just if the orders of the inputs have equal weight. -/
theorem equal_weights_iff {τ : Type} [DecidableEq τ] {pieces : List (List τ)}
    (hnodup : pieces.flatten.Nodup) (hpending : ∀ piece ∈ pieces, piece ≠ [])
    (hlength : words.length = pieces.length + pieces.flatten.length) :
    (∀ out out', out.Perm pieces.flatten → out'.Perm pieces.flatten →
      weight pieces words out = weight pieces words out') ↔
      Uniform (pieces.map List.length) words := by
  constructor
  · intro h order order' hfits hfits'
    have hsame : List.Forall₂ List.Perm pieces pieces :=
      List.forall₂_same.mpr fun _ _ => List.Perm.refl _
    rw [← weight_deal hnodup hpending hlength hsame hfits,
      ← weight_deal hnodup hpending hlength hsame hfits']
    exact h _ _ (deal_perm hfits) (deal_perm hfits')
  · intro h out out' hout hout'
    obtain ⟨origin, hstems⟩ := exists_stems hnodup
    obtain ⟨runs, order, hruns, hfits, rfl⟩ := exists_deal hstems hnodup hout
    obtain ⟨runs', order', hruns', hfits', rfl⟩ := exists_deal hstems hnodup hout'
    rw [weight_deal hnodup hpending hlength hruns hfits,
      weight_deal hnodup hpending hlength hruns' hfits']
    exact h order order' hfits hfits'

/-- The orders of the inputs have equal weight just if there is at most one input, or each has one
record. In general, of all rankings of different words, one in as many as an order has turns leads
to it. As many, with one arrangement of the pieces for each, lead to a permutation of their records
that is dealt in this order, so the permutations have equal weight in the same cases only. And
whatever the source of the words is, a pass over tapes writes what the words alone choose. -/
theorem merge_weighs_orders (lengths : List Nat) (words : List UInt32)
    (hpos : ∀ n ∈ lengths, 0 < n) (hwords : words.Nodup)
    (hlength : words.length = lengths.length + lengths.sum) :
    (Uniform lengths words ↔ lengths.length ≤ 1 ∨ ∀ n ∈ lengths, n = 1) ∧
    (∀ order, Fits lengths order →
      words.permutations.countP (takes lengths · = order) * turns 0 none order =
        words.length !) ∧
    (∀ {τ : Type} [DecidableEq τ] (pieces : List (List τ)), pieces.map List.length = lengths →
      pieces.flatten.Nodup →
      (∀ runs order, List.Forall₂ List.Perm runs pieces → Fits lengths order →
        weight pieces words (deal runs order) * turns 0 none order = words.length !) ∧
      ((∀ out out', out.Perm pieces.flatten → out'.Perm pieces.flatten →
          weight pieces words out = weight pieces words out') ↔
        lengths.length ≤ 1 ∨ ∀ n ∈ lengths, n = 1)) ∧
    ∀ {γ τ : Type} [WordSource γ] [FixedWidth τ] [LawfulFixedWidth τ]
      (b : Bench (Interleave γ) τ) (reels : List (Reel τ)) (start : Reel τ) (site : Site),
      List.Forall₂ Tape.Shows b.inputs.toList reels → reels ≠ [] →
      (reels.map Reel.rest).map List.length = lengths → b.output.Shows start →
      Yields site ((Bench.mergePass : BenchM (Interleave γ) τ Stats) b) fun res =>
        (∃ stats, res.1 = .ok stats) ∧ res.2.output.Shows
          (start.writeArray (mergeBy (reels.map Reel.rest)
            (draws words.length b.strategy.source))) := by
  have hpending {τ : Type} {runs : List (List τ)} (hruns : runs.map List.length = lengths) :
      ∀ run ∈ runs, run ≠ [] := fun run hrun =>
    List.ne_nil_of_length_pos (hpos _ (hruns ▸ List.mem_map_of_mem hrun))
  have huniform := uniform_iff hpos hwords hlength
  refine ⟨huniform, fun order hfits => countP_takes hpos hwords hlength hfits, ?_, ?_⟩
  · intro τ _ pieces hpieces hnodup
    have hdrawn : words.length = pieces.length + pieces.flatten.length := by
      rw [hlength, ← hpieces, List.length_map, List.length_flatten]
    constructor
    · intro runs order hruns hfits
      rw [weight_deal hnodup (hpending hpieces) hdrawn hruns (hpieces ▸ hfits), hpieces]
      exact countP_takes hpos hwords hlength hfits
    · rw [equal_weights_iff hnodup (hpending hpieces) hdrawn, hpieces]
      exact huniform
  · intro γ τ _ _ _ b reels start site hinputs hreels hlengths hshows
    have hpass : Yields site _ _ := yields_mergePass_racing (Bench.feeds_of_shows hinputs)
      (by simpa using hreels) (hpending hlengths) hshows
    have hdrawn : words.length =
        (reels.map Reel.rest).length + Strategy.remaining (reels.map Reel.rest) := by
      rw [hlength, ← hlengths, List.length_map, Strategy.remaining]
    rw [← hdrawn, hlengths] at hpass
    rw [mergeBy, hlengths, takes_eq_order hpos (by rw [length_draws, hlength])]
    exact hpass

section Bytes

def twoPieces : List (List Byte) := [[1#8, 2#8], [3#8]]

def fiveWords : List UInt32 := [4, 2, 0, 1, 3]

def scripted : Bench (Interleave Script) Byte where
  output := Tape.ofDisk (Disk.ofBytes (FixedWidth.encodeAll ([] : List Byte))) none 4
  strategy := { source := ⟨fiveWords⟩ }
  inputs := #[
    Tape.ofDisk (Disk.ofBytes (FixedWidth.encodeAll ([1#8, 2#8] : List Byte))) none 1,
    Tape.ofDisk (Disk.ofBytes (FixedWidth.encodeAll ([3#8] : List Byte))) none 2]

/-- The first piece begins, for its word is 2 and that of the other is 4, and goes on with 0. One
ranking in six takes the second piece in between. -/
theorem merge_weighs_orders_bytes :
    Yields { ledger := default }
      ((Bench.mergePass : BenchM (Interleave Script) Byte Stats) scripted)
      (fun res => res.2.output.Shows (Reel.empty.writeArray [1#8, 2#8, 3#8])) ∧
    fiveWords.permutations.countP (takes [2, 1] · = [0, 1, 0]) * 6 = 120 ∧
    weight twoPieces fiveWords [1#8, 3#8, 2#8] * 6 = 120 ∧
    ¬Uniform [2, 1] fiveWords := by
  obtain ⟨huniform, horders, hpieces, hpass⟩ :=
    merge_weighs_orders [2, 1] fiveWords (by decide) (by decide) rfl
  have hshows (records : List Byte) (blockSize : Nat) :=
    Tape.shows_ofDisk width_byte_pos records none blockSize
  have hfits : Fits [2, 1] [0, 1, 0] := by decide
  refine ⟨?_, horders [0, 1, 0] hfits, ?_, ?_⟩
  · have hmerged := hpass scripted [⟨[1#8, 2#8], 0, by decide⟩, ⟨[3#8], 0, by decide⟩] Reel.empty
      { ledger := default } (.cons (hshows _ 1) (.cons (hshows _ 2) .nil)) (List.cons_ne_nil _ _)
      rfl (hshows [] 4)
    have hout : mergeBy twoPieces fiveWords = ([1#8, 2#8, 3#8] : List Byte) := by
      rw [mergeBy, takes_eq_order (by decide) rfl]
      decide
    apply hmerged.mono
    intro res hres
    rw [← hout]
    exact hres.2
  · have hsame : List.Forall₂ List.Perm twoPieces twoPieces :=
      List.forall₂_same.mpr fun _ _ => List.Perm.refl _
    exact (hpieces twoPieces rfl (by decide)).1 twoPieces [0, 1, 0] hsame hfits
  · rw [huniform]
    decide

/-- To stay with the first input and only then to take the second has twice the weight of taking
the second in between. -/
theorem weights_differ :
    fiveWords.permutations.countP (takes [2, 1] · = [0, 0, 1]) = 40 ∧
    fiveWords.permutations.countP (takes [2, 1] · = [0, 1, 0]) = 20 ∧
    fiveWords.permutations.countP (takes [2, 1] · = [1, 0, 0]) = 60 ∧
    weight twoPieces fiveWords [1#8, 2#8, 3#8] ≠ weight twoPieces fiveWords [1#8, 3#8, 2#8] ∧
    ¬∀ (lengths : List Nat) (words : List UInt32), (∀ n ∈ lengths, 0 < n) → words.Nodup →
      words.length = lengths.length + lengths.sum → Uniform lengths words := by
  have hcount {order : List Nat} (hfits : Fits [2, 1] order) :
      fiveWords.permutations.countP (takes [2, 1] · = order) * turns 0 none order = 120 :=
    countP_takes (by decide) (by decide) rfl hfits
  have hweight {order : List Nat} (hfits : Fits (twoPieces.map List.length) order) :
      weight twoPieces fiveWords (deal twoPieces order) =
        fiveWords.permutations.countP (takes (twoPieces.map List.length) · = order) :=
    weight_deal (by decide) (by decide) rfl (List.forall₂_same.mpr fun _ _ => List.Perm.refl _)
      hfits
  have hfirst : fiveWords.permutations.countP (takes [2, 1] · = [0, 0, 1]) * 3 = 120 :=
    hcount (by decide)
  have hbetween : fiveWords.permutations.countP (takes [2, 1] · = [0, 1, 0]) * 6 = 120 :=
    hcount (by decide)
  have hlast : fiveWords.permutations.countP (takes [2, 1] · = [1, 0, 0]) * 2 = 120 :=
    hcount (by decide)
  refine ⟨by omega, by omega, by omega, ?_, fun h => ?_⟩
  · have hstay : weight twoPieces fiveWords [1#8, 2#8, 3#8] =
        fiveWords.permutations.countP (takes [2, 1] · = [0, 0, 1]) :=
      hweight (show Fits [2, 1] [0, 0, 1] by decide)
    have hturn : weight twoPieces fiveWords [1#8, 3#8, 2#8] =
        fiveWords.permutations.countP (takes [2, 1] · = [0, 1, 0]) :=
      hweight (show Fits [2, 1] [0, 1, 0] by decide)
    omega
  · have hsame := h [2, 1] fiveWords (by decide) (by decide) rfl [0, 0, 1] [0, 1, 0]
      (by decide) (by decide)
    omega

end Bytes

end BoundedMerge.Interleave
