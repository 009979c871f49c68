import BoundedMerge.Proofs.Merge.Driver
import BoundedMerge.Proofs.Strategy.Ordered

/-!
Selection by a naive scan. A scan looks at the pending records one input after the other and takes
the least, of equal ones the first. The selection of an ordered merge lags one step behind the
runs: the input that was taken last is missing from it until the next step. Even so, every step
takes what a scan of all pending records would take, at every point that a merge can be at.
-/

namespace BoundedMerge

open SiteM

variable {π τ : Type}

namespace Strategy

/-- The points of a merge of `whole` from `p₀` on: what the strategy is before a step, and what is
left of the runs. Where a step that is not the last one leads, its taken inputs have advanced. -/
inductive Reached [Strategy π τ] (p₀ : π) (whole : List (List τ)) : π → List (List τ) → Prop
  | prepared {p : π} {site after : Site}
      (h : ((prepare (whole.map List.head?) : StrategyM π Unit) p₀ : SiteM _) site =
        (.ok (.ok (), p), after)) : Reached p₀ whole p whole
  | stepped {p p' : π} {runs : List (List τ)} {step : Step τ} {taken : Taken} {site after : Site}
      (hreached : Reached p₀ whole p runs) (hstep : step ≠ .done)
      (h : ((operate (runs.map List.head?) (Taken.none runs.length) :
          StrategyM π (Step τ × Taken)) p : SiteM _) site =
        (.ok (.ok (step, taken), p'), after)) : Reached p₀ whole p' (advance taken runs)

end Strategy

namespace Ordered

open Selection

variable {cmp : τ → τ → Ordering} {ref : Site}

/-- Input `i` has the pending record `x`. No pending record is less, and that of an input in front
of `i` is greater. -/
structure Least (cmp : τ → τ → Ordering) (inputs : List (Option τ)) (i : Nat) (x : τ) : Prop where
  pending : inputs[i]? = some (some x)
  le : ∀ (j : Nat) (y : τ), inputs[j]? = some (some y) → (cmp x y).isLE
  first : ∀ (j : Nat) (y : τ), j < i → inputs[j]? = some (some y) → cmp x y = .lt

/-- The least pending record with the number of its input, where `found` is the one to beat and
the inputs are counted from `index`. -/
def scanFrom (cmp : τ → τ → Ordering) (found : Option (Nat × τ)) (index : Nat) :
    List (Option τ) → Option (Nat × τ)
  | [] => found
  | none :: inputs => scanFrom cmp found (index + 1) inputs
  | some x :: inputs =>
    match found with
    | none => scanFrom cmp (some (index, x)) (index + 1) inputs
    | some (i, y) =>
      if cmp x y = .lt then scanFrom cmp (some (index, x)) (index + 1) inputs
      else scanFrom cmp (some (i, y)) (index + 1) inputs

def scan (cmp : τ → τ → Ordering) (inputs : List (Option τ)) : Option (Nat × τ) :=
  scanFrom cmp none 0 inputs

/-- The records that so many scans find, where the input of each advances before the next. -/
def scanTimes (cmp : τ → τ → Ordering) : Nat → List (List τ) → List τ
  | 0, _ => []
  | times + 1, runs =>
    match scan cmp (runs.map List.head?) with
    | none => []
    | some (i, x) => x :: scanTimes cmp times (Strategy.advanceOne runs i)

def scanMerge (cmp : τ → τ → Ordering) (runs : List (List τ)) : List τ :=
  scanTimes cmp (Strategy.remaining runs) runs

def Scanned (cmp : τ → τ → Ordering) (inputs : List (Option τ)) : Option (Nat × τ) → Prop
  | none => ∀ x ∈ inputs, x = none
  | some (i, x) => Least cmp inputs i x

theorem Scanned.snoc_none {inputs : List (Option τ)} {found : Option (Nat × τ)}
    (h : Scanned cmp inputs found) : Scanned cmp (inputs ++ [none]) found := by
  have hpending (j : Nat) (y : τ) (hy : (inputs ++ [none])[j]? = some (some y)) :
      inputs[j]? = some (some y) := by
    by_cases hj : j < inputs.length
    · rwa [List.getElem?_append_left hj] at hy
    · rw [List.getElem?_append_right (by omega), List.getElem?_singleton] at hy
      split at hy <;> simp at hy
  cases found with
  | none =>
    intro x hx
    rcases List.mem_append.mp hx with hx | hx
    · exact h x hx
    · exact List.mem_singleton.mp hx
  | some best =>
    obtain ⟨hx, hle, hfirst⟩ := h
    constructor
    · rw [List.getElem?_append_left (List.getElem?_eq_some_iff.mp hx).1]
      exact hx
    · exact fun j y hy => hle j y (hpending j y hy)
    · exact fun j y hj hy => hfirst j y hj (hpending j y hy)

/-- A record behind all others is taken if it is less than the least of them, and no other is
pending or it. -/
theorem scanned_snoc_some [Std.TransCmp cmp] {inputs : List (Option τ)}
    {found : Option (Nat × τ)} (h : Scanned cmp inputs found) (x : τ)
    (hbeaten : ∀ i y, found = some (i, y) → cmp x y = .lt) :
    Scanned cmp (inputs ++ [some x]) (some (inputs.length, x)) := by
  have hlt (j : Nat) (y : τ) (hy : inputs[j]? = some (some y)) : cmp x y = .lt := by
    cases found with
    | none => exact absurd (h _ (List.mem_of_getElem? hy)) (by simp)
    | some best => exact Std.TransCmp.lt_of_lt_of_isLE (hbeaten _ _ rfl) (h.le j y hy)
  constructor
  · rw [List.getElem?_append_right (Nat.le_refl _), Nat.sub_self, List.getElem?_cons_zero]
  · intro j y hy
    by_cases hj : j < inputs.length
    · rw [List.getElem?_append_left hj] at hy
      rw [hlt j y hy]
      rfl
    · rw [List.getElem?_append_right (by omega), List.getElem?_singleton] at hy
      split at hy
      · obtain rfl : x = y := by simpa using hy
        exact Std.ReflCmp.isLE_rfl
      · simp at hy
  · intro j y hj hy
    rw [List.getElem?_append_left hj] at hy
    exact hlt j y hy

theorem Scanned.snoc_kept [Std.TransCmp cmp] {inputs : List (Option τ)} {i : Nat} {y : τ}
    (h : Scanned cmp inputs (some (i, y))) {x : τ} (hkept : cmp x y ≠ .lt) :
    Scanned cmp (inputs ++ [some x]) (some (i, y)) := by
  obtain ⟨hy, hle, hfirst⟩ := h
  have hi := (List.getElem?_eq_some_iff.mp hy).1
  have hyx : (cmp y x).isLE := by
    rw [show cmp y x = (cmp x y).swap from Std.OrientedCmp.eq_swap]
    cases hcmp : cmp x y <;> simp_all
  constructor
  · rw [List.getElem?_append_left hi]
    exact hy
  · intro j z hz
    by_cases hj : j < inputs.length
    · rw [List.getElem?_append_left hj] at hz
      exact hle j z hz
    · rw [List.getElem?_append_right (by omega), List.getElem?_singleton] at hz
      split at hz
      · obtain rfl : x = z := by simpa using hz
        exact hyx
      · simp at hz
  · intro j z hj hz
    rw [List.getElem?_append_left (by omega)] at hz
    exact hfirst j z hj hz

theorem scanned_scanFrom [Std.TransCmp cmp] (inputs seen : List (Option τ))
    (found : Option (Nat × τ)) (h : Scanned cmp seen found) :
    Scanned cmp (seen ++ inputs) (scanFrom cmp found seen.length inputs) := by
  induction inputs generalizing seen found with
  | nil => rwa [List.append_nil]
  | cons x inputs ih =>
    have hrest (found' : Option (Nat × τ)) (h' : Scanned cmp (seen ++ [x]) found') :
        Scanned cmp (seen ++ x :: inputs) (scanFrom cmp found' (seen.length + 1) inputs) := by
      have hmore := ih (seen ++ [x]) found' h'
      rwa [List.append_assoc, List.singleton_append, List.length_append,
        List.length_singleton] at hmore
    cases x with
    | none => exact hrest found h.snoc_none
    | some x =>
      cases found with
      | none => exact hrest _ (scanned_snoc_some h x (by simp))
      | some best =>
        obtain ⟨i, y⟩ := best
        rw [scanFrom]
        by_cases hlt : cmp x y = .lt
        · rw [if_pos hlt]
          apply hrest
          apply scanned_snoc_some h x
          intro j z hz
          cases hz
          exact hlt
        · rw [if_neg hlt]
          exact hrest _ (h.snoc_kept hlt)

/-- A scan finds nothing if nothing is pending, and the least pending record otherwise. -/
theorem scanned_scan [Std.TransCmp cmp] (inputs : List (Option τ)) :
    Scanned cmp inputs (scan cmp inputs) :=
  scanned_scanFrom inputs [] none (by simp [Scanned])

theorem Least.unique [Std.TransCmp cmp] {inputs : List (Option τ)} {i j : Nat} {x y : τ}
    (hx : Least cmp inputs i x) (hy : Least cmp inputs j y) : i = j ∧ x = y := by
  have hle {i j : Nat} {x y : τ} (hx : Least cmp inputs i x) (hy : Least cmp inputs j y) :
      j ≤ i := by
    by_contra hlt
    have hyx := hy.first i x (by omega) hx.pending
    have hxy := hx.le j y hy.pending
    rw [show cmp x y = (cmp y x).swap from Std.OrientedCmp.eq_swap, hyx] at hxy
    contradiction
  obtain rfl : i = j := Nat.le_antisymm (hle hy hx) (hle hx hy)
  have hsame := hx.pending.symm.trans hy.pending
  exact ⟨rfl, Option.some.inj (Option.some.inj hsame)⟩

/-- A scan finds the least pending record and nothing else. -/
theorem scan_eq_some_iff [Std.TransCmp cmp] (inputs : List (Option τ)) (i : Nat) (x : τ) :
    scan cmp inputs = some (i, x) ↔ Least cmp inputs i x := by
  have hscanned : Scanned cmp inputs (scan cmp inputs) := scanned_scan inputs
  constructor
  · intro hfound
    rwa [hfound] at hscanned
  · intro hleast
    cases hfound : scan cmp inputs with
    | none =>
      rw [hfound] at hscanned
      exact absurd (hscanned _ (List.mem_of_getElem? hleast.pending)) (by simp)
    | some best =>
      rw [hfound] at hscanned
      obtain ⟨hi, hx⟩ := Least.unique hscanned hleast
      rw [← hi, ← hx]

/-- The record whose entry no other comes before is the least one. -/
theorem least_of_entries [Std.TransCmp cmp] {inputs : List (Option τ)} {i : Nat} {x : τ}
    (hx : inputs[i]? = some (some x))
    (hleast : ∀ other ∈ entries 0 inputs, Node.before cmp other ⟨x, i⟩ = false) :
    Least cmp inputs i x := by
  have hentry (j : Nat) (y : τ) (hy : inputs[j]? = some (some y)) :
      ((cmp y x).then (compare j i) == .lt) = false := by
    apply hleast ⟨y, j⟩
    rw [mem_entries, Nat.sub_zero]
    exact ⟨Nat.zero_le _, hy⟩
  have hswap (y : τ) : cmp x y = (cmp y x).swap := Std.OrientedCmp.eq_swap
  refine ⟨hx, ?_, ?_⟩
  · intro j y hy
    have h := hentry j y hy
    rw [hswap]
    cases hcmp : cmp y x <;> simp_all
  · intro j y hj hy
    have h := hentry j y hy
    rw [Nat.compare_eq_lt.mpr hj] at h
    rw [hswap]
    cases hcmp : cmp y x <;> simp_all

variable [FixedWidth τ]

/-- At every point of a merge the selection holds what is pending, but for the input that was
taken last. -/
theorem ready_of_reached {p₀ p : Ordered τ} {whole runs : List (List τ)}
    (h : Strategy.Reached p₀ whole p runs) :
    p₀.Kin p ∧ p.Ready (runs.map List.head?) := by
  induction h with
  | @prepared p site after hprepare =>
    have hwhole : whole.map List.head? ≠ [] := by
      intro hnil
      rw [hnil] at hprepare
      injection hprepare with hresult
      simp at hresult
    exact (((yields_prepare p₀ _ hwhole).ensures (Site.Like.refl site)).of_run hprepare).1.2
  | @stepped p p' runs step taken site after _ hstep hoperate ih =>
    obtain ⟨hkin, hready⟩ := ih
    have hcases := hready.operate
    rw [List.length_map] at hcases
    change (Ordered.operate (runs.map List.head?) (Taken.none runs.length) :
      StrategyM (Ordered τ) _) p site = _ at hoperate
    rcases hcases with ⟨-, q, hdone, -⟩ | ⟨x, i, q, -, hemit, hkin', hnext, -⟩
    · rw [hdone] at hoperate
      cases hoperate
      contradiction
    · rw [hemit] at hoperate
      cases hoperate
      have hadvance := Strategy.advance_eq { arity := runs.length, indices := [i] }
        (List.pairwise_singleton _ i) runs
      rw [hadvance, List.foldl_cons, List.foldl_nil, Strategy.map_advanceOne]
      exact ⟨hkin.trans hkin', hnext _⟩

omit [FixedWidth τ] in
theorem scanMerge_of_least [Std.TransCmp cmp] {runs : List (List τ)} {i : Nat} {x : τ}
    (h : Least cmp (runs.map List.head?) i x) :
    scanMerge cmp runs = x :: scanMerge cmp (Strategy.advanceOne runs i) := by
  have hcount := Strategy.remaining_advanceOne runs i
  rw [h.pending, Option.join_some, Option.isSome_some, if_pos rfl, Nat.add_comm] at hcount
  rw [scanMerge, ← hcount, scanTimes, (scan_eq_some_iff _ i x).mpr h]
  rfl

omit [FixedWidth τ] in
theorem scanMerge_of_empty {runs : List (List τ)} (h : ∀ run ∈ runs, run = []) :
    scanMerge cmp runs = [] := by
  rw [scanMerge, Strategy.remaining_of_empty h]
  rfl

/-- What was emitted and what scans will find of the runs that are left make up the merge of the
whole by scans. -/
structure Scanning (first : Ordered τ) (whole : List (List τ)) (steps : Nat)
    (p : Ordered τ) (runs : List (List τ)) (out : List τ) : Prop where
  merging : Merging first whole steps p runs out
  scans : Std.TransCmp first.cmp → out ++ scanMerge first.cmp runs = scanMerge first.cmp whole

theorem steps_scanning (first : Ordered τ) (whole : List (List τ)) (steps : Nat) (p : Ordered τ)
    (runs : List (List τ)) (out : List τ) (h : Scanning first whole steps p runs out) :
    Strategy.StepsTo ref (Scanning first whole) (fun outcome p runs out =>
      Merged first whole outcome p runs out ∧
        (Std.TransCmp first.cmp → out = scanMerge first.cmp whole))
      steps p runs out := by
  obtain ⟨hmerging, hscans⟩ := h
  rw [hmerging.steps_eq]
  apply hmerging.ready.stepsTo
  · intro p' hnone hkin
    have hmerged := hmerging.done hnone hkin
    refine ⟨hmerged, fun hc => ?_⟩
    have hall := hscans hc
    rwa [scanMerge_of_empty hmerged.empty, List.append_nil] at hall
  · intro p' i x hx hkin hready hleast
    refine ⟨hmerging.emit hx hkin hready hleast, fun hc => ?_⟩
    rw [hmerging.kin.cmp_eq] at hleast
    rw [← hscans hc, scanMerge_of_least (least_of_entries hx (hleast hc)), List.append_assoc,
      List.singleton_append]

def answer (arity : Nat) : Option (Nat × τ) → Step τ × Taken
  | none => (.done, Taken.none arity)
  | some (i, x) => (.emit x, { arity, indices := [i] })

/-- Nothing is chosen only if nothing is pending, and otherwise some pending record. -/
def Offered (inputs : List (Option τ)) : Option (Nat × τ) → Prop
  | none => ∀ x ∈ inputs, x = none
  | some (i, x) => inputs[i]? = some (some x)

/-- Whatever the comparison is, a merge can be prepared, and at every point that it comes to a
step halts for no reason: it emits a pending record and takes its input, or ends the merge if there
is none. With a total preorder its choice is that of a scan, the least pending record and of equal
ones the first; so a pass over tapes writes what the scans find one after the other. -/
theorem selects_as_scan :
    (∀ (p₀ : Ordered τ) (inputs : List (Option τ)) (site : Site),
      ((Strategy.prepare inputs : StrategyM (Ordered τ) Unit) p₀ : SiteM _).Ensures site
        (fun out _ => out.1 = if inputs = [] then .error (.invalidArity 0) else .ok ())
        (fun h _ => site.Excuses h)) ∧
    (∀ (p₀ p : Ordered τ) (whole runs : List (List τ)), Strategy.Reached p₀ whole p runs →
      ∃ choice p', ((Strategy.operate (runs.map List.head?) (Taken.none runs.length) :
          StrategyM (Ordered τ) (Step τ × Taken)) p : SiteM _) =
            pure (.ok (answer runs.length choice), p') ∧
        Offered (runs.map List.head?) choice ∧
        (Std.TransCmp p₀.cmp → choice = scan p₀.cmp (runs.map List.head?) ∧
          ∀ i x, choice = some (i, x) → Least p₀.cmp (runs.map List.head?) i x)) ∧
    ∀ [LawfulFixedWidth τ] (b : Bench (Ordered τ) τ) (reels : List (Reel τ)) (start : Reel τ)
      (site : Site), List.Forall₂ Tape.Shows b.inputs.toList reels → reels ≠ [] →
      b.output.Shows start →
      Yields site ((Bench.mergePass : BenchM (Ordered τ) τ Stats) b) fun res =>
        ∃ out stats, res.1 = .ok stats ∧ res.2.output.Shows (start.writeArray out) ∧
          out.Perm (reels.map Reel.rest).flatten ∧
          (Std.TransCmp b.strategy.cmp →
            out = scanMerge b.strategy.cmp (reels.map Reel.rest)) := by
  refine ⟨?_, ?_, ?_⟩
  · intro p₀ inputs site
    by_cases hinputs : inputs = []
    · subst hinputs
      exact ensures_pure.mpr rfl
    · rw [if_neg hinputs]
      apply ((yields_prepare p₀ inputs hinputs).ensures (Site.Like.refl site)).mono
      · exact fun _ _ hout => hout.1.1
      · exact fun _ _ hh => hh
  · intro p₀ p whole runs hreached
    obtain ⟨hkin, hready⟩ := ready_of_reached hreached
    have hcases := hready.operate
    rw [List.length_map, hkin.cmp_eq] at hcases
    rcases hcases with ⟨hnone, p', hdone, -⟩ | ⟨x, i, p', hx, hemit, -, -, hleast⟩
    · have hall : Offered (runs.map List.head?) none := by
        intro x hx
        have := List.all_eq_true.mp ((entries_eq_nil 0 _).mp hnone) x hx
        simpa using this
      refine ⟨none, p', hdone, hall, fun hc => ⟨?_, by simp⟩⟩
      cases hfound : scan p₀.cmp (runs.map List.head?) with
      | none => rfl
      | some best =>
        have hbest := (scan_eq_some_iff _ best.1 best.2).mp hfound
        exact absurd (hall _ (List.mem_of_getElem? hbest.pending)) (by simp)
    · refine ⟨some (i, x), p', hemit, hx, fun hc => ?_⟩
      have hbest := least_of_entries hx (hleast hc)
      refine ⟨((scan_eq_some_iff _ i x).mpr hbest).symm, ?_⟩
      intro j y hchoice
      cases hchoice
      exact hbest
  · intro _ b reels start site hinputs hreels hshows
    have hruns : reels.map Reel.rest ≠ [] := by simpa using hreels
    have hsteps := @steps_scanning τ site _ b.strategy (reels.map Reel.rest)
    have hfeeds := Bench.feeds_of_shows hinputs
    apply (Bench.yields_mergePass hsteps ?_ hfeeds hruns hshows).mono
    · intro res hres
      obtain ⟨outcome, p, left, out, ⟨hmerged, hscans⟩, hstands, hok⟩ := hres
      rw [hmerged.ok] at hok
      exact ⟨out, _, hok, hstands.shows, hmerged.perm, hscans⟩
    · apply (yields_prepare_merging (.refl _) hruns).mono
      intro out hout
      obtain ⟨_, p⟩ := out
      obtain ⟨rfl, hmerging, hlimit⟩ := hout
      exact ⟨_, hlimit, hmerging, fun _ => rfl⟩

section Bytes

/-- Four inputs out of order, compared by the upper half of a byte: the second is used up, and the
third and the fourth have equal records. -/
def fourOfBytes : List (List Byte) := [[0x21#8, 0x05#8], [], [0x13#8, 0x31#8], [0x12#8]]

def twoOfBytes : Bench (Ordered Byte) Byte where
  output := Tape.ofDisk (Disk.ofBytes (FixedWidth.encodeAll ([] : List Byte))) none 4
  strategy := { cmp := compareOn fun x => x.toNat / 16 }
  inputs := #[
    Tape.ofDisk (Disk.ofBytes (FixedWidth.encodeAll ([0x21#8, 0x05#8] : List Byte))) none 1,
    Tape.ofDisk (Disk.ofBytes (FixedWidth.encodeAll ([0x13#8, 0x31#8] : List Byte))) none 2]

/-- The merge begins with the third input, and a pass over tapes goes on as scans do. -/
theorem selects_as_scan_bytes :
    (∃ p p', Strategy.Reached
        { cmp := compareOn fun x : Byte => x.toNat / 16 : Ordered Byte } fourOfBytes p
        fourOfBytes ∧
      ((Strategy.operate (fourOfBytes.map List.head?) (Taken.none 4) :
        StrategyM (Ordered Byte) (Step Byte × Taken)) p : SiteM _) =
          pure (.ok (.emit 0x13#8, { arity := 4, indices := [2] }), p')) ∧
    Yields { ledger := default }
      ((Bench.mergePass : BenchM (Ordered Byte) Byte Stats) twoOfBytes)
      fun res => res.2.output.Shows
        (Reel.empty.writeArray [0x13#8, 0x21#8, 0x05#8, 0x31#8]) := by
  obtain ⟨hprepare, hoperate, hpass⟩ := selects_as_scan (τ := Byte)
  constructor
  · have hprepared := hprepare { cmp := compareOn fun x : Byte => x.toNat / 16 }
      (fourOfBytes.map List.head?) { ledger := default }
    have hruns := hprepared.mono (fun _ _ h => h) fun _ _ =>
      Site.not_excuses (by decide) rfl fun _ _ => rfl
    obtain ⟨⟨outcome, p⟩, after, hrun, hok⟩ := hruns.exists_run
    cases hok
    have hreached := Strategy.Reached.prepared hrun
    obtain ⟨choice, p', heq, -, hscan⟩ := hoperate _ _ _ _ hreached
    rw [(hscan inferInstance).1] at heq
    exact ⟨p, p', hreached, heq⟩
  · have hshows (records : List Byte) (blockSize : Nat) :=
      Tape.shows_ofDisk width_byte_pos records none blockSize
    have hmerged := hpass twoOfBytes
      [⟨[0x21#8, 0x05#8], 0, by decide⟩, ⟨[0x13#8, 0x31#8], 0, by decide⟩] Reel.empty
      { ledger := default }
      (.cons (hshows _ 1) (.cons (hshows _ 2) .nil)) (List.cons_ne_nil _ _) (hshows [] 4)
    have hcmp : Std.TransCmp twoOfBytes.strategy.cmp :=
      inferInstanceAs (Std.TransCmp (compareOn fun x : Byte => x.toNat / 16))
    apply hmerged.mono
    intro res hres
    obtain ⟨out, _, -, hout, -, hscans⟩ := hres
    rwa [hscans hcmp] at hout

end Bytes

end Ordered

end BoundedMerge
