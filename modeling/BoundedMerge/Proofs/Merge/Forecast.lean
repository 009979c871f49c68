import BoundedMerge.Proofs.Merge.Limit
import BoundedMerge.Proofs.Merge.Plan
import BoundedMerge.Proofs.Site.Guards

/-!
How a merge comes out can be told before it begins. Each pass is planned while the strategy still
holds the selection for the last group of the pass before, so the forecast of a merge follows two
numbers from pass to pass: the runs that are left and the bytes of that selection. A plan may fail
for want of bytes that the strategy would give back before it needs any.
-/

namespace BoundedMerge

open SiteM

namespace Plan

/-- The size of the last group of two or more, of `runs` that are merged `arity` at a time. -/
def lastGroup (arity runs : Nat) : Nat := if runs % arity ≤ 1 then arity else runs % arity

/-- What the plans of all passes come to, in `space` bytes. The strategy holds `heap` of them when
the first plan is made, and `charge count` once it was prepared for `count` inputs. -/
def forecast (charge : Nat → Nat) (space fixed perInput heap runs : Nat) :
    Except MergeError Unit :=
  match hplan : arity (space - heap) fixed perInput runs with
  | .error e => .error e
  | .ok k =>
    if hlast : runs ≤ k then .ok ()
    else forecast charge space fixed perInput (charge (lastGroup k runs)) ((runs + k - 1) / k)
termination_by runs
decreasing_by
  obtain h | ⟨affordable, hmany, h⟩ := arity_cases (space - heap) fixed perInput runs
  · rw [hplan] at h
    cases h
  · rw [hplan] at h
    cases h
    exact groups_lt (by omega) (by omega)

def passes (charge : Nat → Nat) (space fixed perInput heap runs : Nat) : Except MergeError Nat :=
  match hplan : arity (space - heap) fixed perInput runs with
  | .error e => .error e
  | .ok k =>
    if hlast : runs ≤ k then .ok 1
    else (passes charge space fixed perInput (charge (lastGroup k runs)) ((runs + k - 1) / k)).map
      (1 + ·)
termination_by runs
decreasing_by
  obtain h | ⟨affordable, hmany, h⟩ := arity_cases (space - heap) fixed perInput runs
  · rw [hplan] at h
    cases h
  · rw [hplan] at h
    cases h
    exact groups_lt (by omega) (by omega)

variable {charge : Nat → Nat} {space fixed perInput heap node runs k : Nat} {e : MergeError}

theorem forecast_error (h : arity (space - heap) fixed perInput runs = .error e) :
    forecast charge space fixed perInput heap runs = .error e := by
  rw [forecast]
  split
  · next h' => rw [h] at h'; cases h'; rfl
  · next h' => rw [h] at h'; cases h'

theorem forecast_last (h : arity (space - heap) fixed perInput runs = .ok k) (hle : runs ≤ k) :
    forecast charge space fixed perInput heap runs = .ok () := by
  rw [forecast]
  split
  · next h' => rw [h] at h'; cases h'
  · next h' => rw [h] at h'; cases h'; rw [dif_pos hle]

theorem forecast_pass (h : arity (space - heap) fixed perInput runs = .ok k) (hlt : k < runs) :
    forecast charge space fixed perInput heap runs =
      forecast charge space fixed perInput (charge (lastGroup k runs)) ((runs + k - 1) / k) := by
  rw [forecast]
  split
  · next h' => rw [h] at h'; cases h'
  · next h' => rw [h] at h'; cases h'; rw [dif_neg (Nat.not_le.mpr hlt)]

theorem passes_error (h : arity (space - heap) fixed perInput runs = .error e) :
    passes charge space fixed perInput heap runs = .error e := by
  rw [passes]
  split
  · next h' => rw [h] at h'; cases h'; rfl
  · next h' => rw [h] at h'; cases h'

theorem passes_last (h : arity (space - heap) fixed perInput runs = .ok k) (hle : runs ≤ k) :
    passes charge space fixed perInput heap runs = .ok 1 := by
  rw [passes]
  split
  · next h' => rw [h] at h'; cases h'
  · next h' => rw [h] at h'; cases h'; rw [dif_pos hle]

theorem passes_pass (h : arity (space - heap) fixed perInput runs = .ok k) (hlt : k < runs) :
    passes charge space fixed perInput heap runs =
      (passes charge space fixed perInput (charge (lastGroup k runs)) ((runs + k - 1) / k)).map
        (1 + ·) := by
  rw [passes]
  split
  · next h' => rw [h] at h'; cases h'
  · next h' => rw [h] at h'; cases h'; rw [dif_neg (Nat.not_le.mpr hlt)]

/-- The plans come to an end in some number of passes, or they fail. -/
theorem forecast_eq_passes (charge : Nat → Nat) (space fixed perInput heap runs : Nat) :
    forecast charge space fixed perInput heap runs =
      (passes charge space fixed perInput heap runs).map fun _ => () := by
  fun_induction passes with
  | case1 heap runs e hplan => exact forecast_error hplan
  | case2 heap runs k hplan hlast => exact forecast_last hplan hlast
  | case3 heap runs k hplan hmore ih =>
    rw [forecast_pass hplan (Nat.lt_of_not_le hmore), ih]
    cases passes charge space fixed perInput (charge (lastGroup k runs)) ((runs + k - 1) / k) <;>
      rfl

theorem lastGroup_le (hk : 0 < k) : lastGroup k runs ≤ k := by
  have hmod := Nat.mod_lt runs hk
  unfold lastGroup
  split <;> omega

/-- A selection takes at most a third of what its inputs take, so that it is in the way of the next
plan only if there was room for two inputs. -/
theorem forecast_ok (hper : 0 < perInput) (hnode : 3 * node ≤ perInput)
    (hroom : fixed + 2 * perInput + 2 * node ≤ space)
    (hheap : fixed + 2 * perInput + heap ≤ space) :
    forecast (node * ·) space fixed perInput heap runs = .ok () := by
  induction runs using Nat.strong_induction_on generalizing heap with
  | h runs ih =>
    have hplan : arity (space - heap) fixed perInput runs = _ :=
      arity_of_le hper (show fixed + 2 * perInput ≤ space - heap by omega)
    have htwo : 2 ≤ (space - heap - fixed) / perInput :=
      (Nat.le_div_iff_mul_le hper).mpr (by omega)
    have hdiv := Nat.div_mul_le_self (space - heap - fixed) perInput
    generalize (space - heap - fixed) / perInput = k at hplan htwo hdiv
    by_cases hlast : runs ≤ k
    · rw [Nat.min_eq_right hlast] at hplan
      exact forecast_last hplan (Nat.le_refl _)
    · have hlt : k < runs := Nat.lt_of_not_le hlast
      rw [Nat.min_eq_left (Nat.le_of_lt hlt)] at hplan
      rw [forecast_pass hplan hlt]
      have hselection : node * lastGroup k runs ≤ node * k :=
        Nat.mul_le_mul_left node (lastGroup_le (by omega))
      have hnext : fixed + 2 * perInput + node * k ≤ space := by
        obtain rfl | hmany : k = 2 ∨ 3 ≤ k := by omega
        · omega
        · have hthird : 3 * (node * k) ≤ k * perInput := by
            rw [← Nat.mul_assoc, Nat.mul_comm k]
            exact Nat.mul_le_mul_right k hnode
          have hthree : 3 * perInput ≤ k * perInput := Nat.mul_le_mul_right perInput hmany
          omega
      exact ih _ (groups_lt (by omega) (by omega)) (by omega)

/-- Where a node is small beside an input, the forecast is good if there is room for two inputs
and, unless these are all, for a selection of two besides. -/
theorem forecast_ok_iff (hper : 0 < perInput) (hnode : 3 * node ≤ perInput) (hruns : 1 < runs) :
    forecast (node * ·) space fixed perInput 0 runs = .ok () ↔
      fixed + 2 * perInput ≤ space ∧
        (runs = 2 ∨ fixed + 2 * perInput + 2 * node ≤ space) := by
  constructor
  · intro hok
    have hfirst : fixed + 2 * perInput ≤ space := by
      by_contra hshort
      rw [forecast_error (arity_of_lt hper hruns (Nat.lt_of_not_le hshort))] at hok
      cases hok
    refine ⟨hfirst, ?_⟩
    by_contra hshort
    obtain ⟨hmore, hshort⟩ : runs ≠ 2 ∧ space < fixed + 2 * perInput + 2 * node := by omega
    have hpair : (space - fixed) / perInput = 2 := by
      refine Nat.div_eq_of_lt_le ?_ ?_ <;> omega
    have hplan : arity (space - 0) fixed perInput runs = .ok 2 := by
      rw [Nat.sub_zero, arity_of_le hper hfirst, hpair, Nat.min_eq_left hruns]
    have hgroup : lastGroup 2 runs = 2 := if_pos (by omega)
    have hleft : 1 < (runs + 2 - 1) / 2 := by omega
    rw [forecast_pass hplan (by omega), hgroup,
      forecast_error (arity_of_lt hper hleft (by omega))] at hok
    cases hok
  · rintro ⟨hfirst, rfl | hroom⟩
    · have htwo : 2 ≤ (space - fixed) / perInput := (Nat.le_div_iff_mul_le hper).mpr (by omega)
      refine forecast_last (arity_of_le hper ?_) ?_
      · exact hfirst
      · rw [Nat.sub_zero, Nat.min_eq_right htwo]
    · exact forecast_ok hper hnode hroom (by omega)

end Plan

variable {π τ : Type} {ref : Site} {size used rest : Nat}

namespace Bench

variable [FixedWidth τ] [Strategy π τ]

/-- The steps of a pass do not count passes. -/
theorem returns_follow (stats : Stats) (pending : List (Option τ)) (steps : Nat) :
    Work.Returns (fun stats' => stats'.passes = stats.passes)
      (follow stats pending steps : BenchM π τ Stats) := by
  induction steps generalizing stats pending with
  | zero => exact Work.Returns.halt _
  | succ steps ih =>
    unfold follow
    apply Work.Returns.after
    intro out
    obtain ⟨step, taken⟩ := out
    cases step with
    | done =>
      simp only
      split
      · exact Work.Returns.after fun _ => Work.Returns.pure rfl
      · exact Work.Returns.pure rfl
    | skip => exact Work.Returns.after fun advanced => ih _ advanced.1
    | emit x =>
      apply Work.Returns.after
      intro _
      exact Work.Returns.after fun advanced => ih _ advanced.1

theorem returns_mergePass :
    Work.Returns (fun stats => stats.passes = 1) (mergePass : BenchM π τ Stats) := by
  have hrest (pending : List (Option τ)) (b : Bench π τ) :
      Work.Returns (fun stats => stats.passes = 1) (do
        let stats ← follow { passes := 1, runs := b.inputs.size } pending b.stepLimit
        releaseInputs (List.range b.inputs.size)
        onTarget (Target.onOutput Tape.flush)
        return stats : BenchM π τ Stats) := by
    apply (returns_follow _ pending b.stepLimit).bind
    intro stats hstats
    apply Work.Returns.after
    intro _
    apply Work.Returns.after
    intro _
    exact Work.Returns.pure hstats
  unfold mergePass
  apply Work.Returns.after
  intro b
  simp only
  split
  · exact Work.Returns.after fun _ => Work.Returns.after fun pending =>
      Work.Returns.after fun _ => hrest pending b
  · exact Work.Returns.after fun pending => Work.Returns.after fun _ => hrest pending b

end Bench

namespace Merger

/-- After all groups of a pass, the strategy holds what it was charged for the last of two or
more. -/
theorem heapAfter_groupsOf {α : Type} (ref : Site) (node heap : Nat) (hsize : 1 < size)
    {xs : List α} (hxs : 1 < xs.length) :
    heapAfter ref node heap ((groupsOf size xs).map List.length) =
      ref.charged (node * Plan.lastGroup size xs.length) := by
  induction xs using groupsOf.induct size generalizing heap with
  | case1 => simp at hxs
  | case2 x xs ih =>
    rw [List.length_cons] at hxs
    have hfirst : (x :: xs.take (size - 1)).length = min size (xs.length + 1) := by
      rw [List.length_cons, List.length_take]
      omega
    rw [groupsOf, List.map_cons, heapAfter, hfirst, if_neg (by omega), List.length_cons]
    by_cases hmore : 1 < (xs.drop (size - 1)).length
    · have hlength : xs.length + 1 = (xs.drop (size - 1)).length + size := by
        rw [List.length_drop] at hmore ⊢
        omega
      rw [ih _ hmore, Plan.lastGroup, Plan.lastGroup, hlength, Nat.add_mod_right]
    · have hrest : heapAfter ref node (ref.charged (node * min size (xs.length + 1)))
          ((groupsOf size (xs.drop (size - 1))).map List.length) =
            ref.charged (node * min size (xs.length + 1)) := by
        cases hdrop : xs.drop (size - 1) with
        | nil => rw [groupsOf]; rfl
        | cons y ys =>
          rw [hdrop, List.length_cons] at hmore
          obtain rfl : ys = [] := List.length_eq_zero_iff.mp (by omega)
          rw [groupsOf, List.take_nil, List.drop_nil, groupsOf]
          rfl
      rw [hrest, Plan.lastGroup]
      rw [List.length_drop] at hmore
      obtain hlt | heq | heq : xs.length + 1 < size ∨ xs.length + 1 = size ∨
          xs.length + 1 = 1 + size := by omega
      · rw [Nat.mod_eq_of_lt hlt, if_neg (by omega), Nat.min_eq_right (by omega)]
      · rw [heq, Nat.mod_self, if_pos (by omega), Nat.min_self]
      · rw [heq, Nat.add_mod_right, Nat.mod_eq_of_lt hsize, if_pos (by omega),
          Nat.min_eq_left (by omega)]

variable [FixedWidth τ] [LawfulFixedWidth τ]

def openRuns (m : Merger) (runs : List (List τ)) : List (Tape τ) :=
  runs.map fun run => Tape.ofDisk (Disk.ofBytes (FixedWidth.encodeAll run)) none m.blockSize

theorem leaves_openRuns (m : Merger) (hwidth : 0 < FixedWidth.width τ) (runs : List (List τ)) :
    List.Forall₂ Tape.Leaves (m.openRuns runs) runs := by
  induction runs with
  | nil => exact .nil
  | cons run runs ih => exact .cons ⟨_, Tape.shows_ofDisk hwidth run none m.blockSize, rfl⟩ ih

omit [LawfulFixedWidth τ] in
theorem parked_openRuns (m : Merger) (runs : List (List τ)) :
    ∀ t ∈ m.openRuns runs, t.Parked (m.blockBytes τ) := by
  intro t ht
  obtain ⟨run, -, rfl⟩ := List.mem_map.mp ht
  exact ⟨rfl, rfl⟩

omit [LawfulFixedWidth τ] in
/-- Nothing is charged for tapes without a block. -/
theorem registered_of_parked (m : Merger) (site : Site) {κ : Type} {tapes : List (Tape τ)}
    (h : ∀ t ∈ tapes, t.Parked (m.blockBytes τ)) :
    m.Registered site tapes (none : Option (Selection κ)) := by
  refine ⟨fun t ht => (h t ht).owes, by rintro _ ⟨⟩, ?_⟩
  rw [Tape.heldAll_of_parked h]
  exact Nat.zero_le _

variable [Strategy π τ] {sound fits : π → Prop}
  {heap : π → Nat} {overhead node : Nat} {joins : List (List τ) → List τ → Prop}
  {target : Target π τ} {start : Reel τ} {tapes : List (Tape τ)} {runs : List (List τ)}

omit [LawfulFixedWidth τ] in
theorem returns_mergeLast (tapes : List (Tape τ)) :
    Work.Returns (fun stats => stats.passes = 1) (mergeLast tapes : MergeM π τ Stats) := by
  intro target
  unfold mergeLast
  simp only [Work.run_bind, Work.run_get, Work.run_set, Work.run_liftM, bind_assoc, pure_bind]
  apply Loses.bind (Bench.returns_mergePass { target with inputs := tapes.toArray })
  intro out hone
  obtain ⟨outcome, b⟩ := out
  apply Loses.after
  intro _
  cases outcome with
  | ok stats => exact Loses.pure hone
  | error e => exact Loses.pure nofun

/-- Where there is room for it the last pass comes to a result, and counts as one. -/
theorem tallies_lastPass (hleases : Strategy.Leases τ ref sound heap overhead node)
    (hmerges : Strategy.Merges ref fits joins) (hp : sound target.strategy)
    (hfits : fits target.strategy) (houtput : target.output.Owes ref size)
    (hshows : target.output.Shows start) (h : List.Forall₂ Tape.Leaves tapes runs)
    (hparked : ∀ t ∈ tapes, t.Parked size) (hne : tapes ≠ [])
    (hroom : rest + max (heap target.strategy) (ref.charged (node * tapes.length)) +
      (tapes.length + 1) * ref.charged size ≤ ref.ledger.limit) :
    Tallies ref (rest + heap target.strategy + target.output.held)
      ((mergeLast tapes : MergeM π τ Stats) target) fun out _ =>
        ∃ stats, out.1 = .ok stats ∧ stats.passes = 1 := by
  have hruns : runs ≠ [] := by
    rintro rfl
    exact hne (List.forall₂_nil_right_iff.mp h)
  have hjoin := ((tallies_mergeLast hleases hp houtput hparked hne hroom).and_yields
    (yields_mergeLast hmerges hfits h hruns hshows)).and (returns_mergeLast tapes target)
  refine hjoin.mono ?_
  rintro ⟨outcome, target'⟩ _ ⟨⟨-, stats, out, hok, -⟩, hone⟩
  exact ⟨stats, hok, hone stats hok⟩

/-- Where there is room for it a pass that is not the last leaves fewer runs to merge, and the
strategy with what it was charged for the last group. -/
theorem tallies_furtherPass (m : Merger) (hleases : Strategy.Leases τ ref sound heap overhead node)
    (hmerges : Strategy.Merges ref fits joins) (hwidth : 0 < FixedWidth.width τ)
    (hscratch : ref.scratch.Sound) (hp : sound target.strategy) (hfits : fits target.strategy)
    (h : List.Forall₂ Tape.Leaves tapes runs) (hparked : ∀ t ∈ tapes, t.Parked (m.blockBytes τ))
    {arity : Nat} (harity : 1 < arity) (hmany : arity < tapes.length)
    (hroom : rest + target.output.held +
      max (heap target.strategy) (ref.charged (node * arity)) +
        (arity + 1) * ref.charged (m.blockBytes τ) ≤ ref.ledger.limit) :
    Tallies ref (rest + heap target.strategy + target.output.held)
      ((Target.onStrategy (m.mergeGroups [] (groupsOf arity tapes)) :
        MergeM π τ (Stats × List (Tape τ))) target) fun out used =>
        ∃ pass tapes' outs, out.1 = .ok (pass, tapes') ∧
          used = rest + heap out.2.strategy + target.output.held ∧ sound out.2.strategy ∧
          fits out.2.strategy ∧ out.2.output = target.output ∧
          List.Forall₂ Tape.Leaves tapes' outs ∧ (∀ t ∈ tapes', t.Parked (m.blockBytes τ)) ∧
          tapes'.length = (tapes.length + arity - 1) / arity ∧ 1 < tapes'.length ∧
          tapes'.length < tapes.length ∧
          heap out.2.strategy = ref.charged (node * Plan.lastGroup arity tapes.length) := by
  have hregroup := (m.tallies_regroup hleases hp hparked (by omega) hroom).and_yields
    (m.yields_regroup hmerges hwidth hscratch hfits arity h)
  refine hregroup.mono ?_
  rintro ⟨_, t⟩ _ ⟨⟨rfl, hsound, heq, hok⟩, pass, tapes', outs, rfl, hleaves, -, hfits', -⟩
  obtain ⟨hparked', hlength, hafter⟩ := hok pass tapes' rfl
  rw [heapAfter_groupsOf ref node _ harity (by omega)] at hafter
  have hmore := one_lt_length_groupsOf (show 0 < arity by omega) hmany
  have hfewer := length_groupsOf_lt harity (show 1 < tapes.length by omega)
  rw [← hlength] at hmore hfewer
  rw [length_groupsOf (by omega)] at hlength
  exact ⟨pass, tapes', outs, rfl, rfl, hsound, hfits', heq, hleaves, hparked', hlength, hmore,
    hfewer, hafter⟩

/-- The passes come out as they were planned, and each of them counts. -/
theorem tallies_passes (m : Merger) (hleases : Strategy.Leases τ ref sound heap overhead node)
    (hmerges : Strategy.Merges ref fits joins) (hwidth : 0 < FixedWidth.width τ)
    (hscratch : ref.scratch.Sound) (stats : Stats) (passes : Nat) (hp : sound target.strategy)
    (hfits : fits target.strategy) (houtput : target.output.Owes ref (m.blockBytes τ))
    (hshows : target.output.Shows start) (h : List.Forall₂ Tape.Leaves tapes runs)
    (hparked : ∀ t ∈ tapes, t.Parked (m.blockBytes τ)) (hmany : 1 < tapes.length)
    (hpasses : tapes.length ≤ passes) :
    Tallies ref (rest + heap target.strategy + target.output.held)
      ((m.mergeWithin stats tapes passes : MergeM π τ Stats) target) fun out _ =>
        out.1.map Stats.passes = (Plan.passes (fun count => ref.charged (node * count))
          (ref.ledger.limit - (rest + target.output.held)) (overhead + m.tapeSpace τ)
          (m.tapeSpace τ + node + 1) (heap target.strategy) tapes.length).map
            (stats.passes + ·) := by
  induction passes generalizing target stats tapes runs with
  | zero => omega
  | succ passes ih =>
    have hspace : ref.ledger.limit - (rest + heap target.strategy + target.output.held) =
        ref.ledger.limit - (rest + target.output.held) - heap target.strategy := by
      omega
    rw [mergeWithin]
    simp only [Work.run_bind, Work.run_get, Work.run_liftM, bind_assoc, pure_bind]
    refine Tallies.of_le fun hused => ?_
    refine (m.tallies_arity target.strategy tapes.length).bind ?_
    rintro plan _ ⟨rfl, hplan⟩
    have hforecast := hplan.symm
    obtain ⟨hfixed, hinput⟩ := m.planned_of_leases hleases hp
    rw [hspace, hfixed, hinput] at hforecast
    cases plan with
    | error e =>
      rw [Plan.passes_error hforecast]
      refine (tallies_abandon hparked e).mono ?_
      rintro _ _ ⟨-, rfl⟩
      rfl
    | ok arity =>
      obtain ⟨harity, hle, hroom⟩ := m.room_of_arity hleases hp hmany hused hplan.symm
      simp only
      split
      · next hlast =>
        obtain rfl : arity = tapes.length := Nat.le_antisymm hle hlast
        rw [Plan.passes_last hforecast hlast]
        apply Tallies.run_report rfl
        refine Tallies.run_bind (tallies_lastPass hleases hmerges hp hfits houtput hshows h hparked
          (List.length_pos_iff.mp (by omega)) (by omega)) ?_ ?_
        · rintro last t _ ⟨_, ⟨⟩, hone⟩
          exact Tallies.pure (congrArg (fun n => Except.ok (stats.passes + n)) hone)
        · rintro e t _ ⟨_, ⟨⟩, -⟩
      · next hlast =>
        have hlt := Nat.lt_of_not_le hlast
        rw [Plan.passes_pass hforecast hlt]
        apply Tallies.run_report rfl
        refine Tallies.run_bind (m.tallies_furtherPass hleases hmerges hwidth hscratch hp hfits h
          hparked harity hlt hroom) ?_ (by rintro e t _ ⟨pass, tapes, outs, ⟨⟩, -⟩)
        rintro ⟨pass, tapes'⟩ t _ ⟨_, _, outs, ⟨⟩, rfl, hsound, hfits', heq, hleaves, hparked',
          hlength, hmore, hfewer, hafter⟩
        simp only at hsound hfits' heq hafter
        rw [← heq] at houtput hshows ⊢
        rw [← hafter, ← hlength]
        refine (ih _ hsound hfits' houtput hshows hleaves hparked' hmore (by omega)).mono ?_
        intro out _ hout
        rw [hout]
        generalize Plan.passes _ _ _ _ _ _ = planned
        cases planned with
        | error e => rfl
        | ok n => exact congrArg Except.ok (Nat.add_assoc stats.passes 1 n)

/-- A merge comes to a result if its passes can be planned. -/
theorem tallies_forecast (m : Merger) (hleases : Strategy.Leases τ ref sound heap overhead node)
    (hmerges : Strategy.Merges ref fits joins) (hwidth : 0 < FixedWidth.width τ)
    (hscratch : ref.scratch.Sound) (stats : Stats) (passes : Nat) (hp : sound target.strategy)
    (hfits : fits target.strategy) (houtput : target.output.Owes ref (m.blockBytes τ))
    (hshows : target.output.Shows start) (h : List.Forall₂ Tape.Leaves tapes runs)
    (hparked : ∀ t ∈ tapes, t.Parked (m.blockBytes τ)) (hmany : 1 < tapes.length)
    (hpasses : tapes.length ≤ passes) :
    Tallies ref (rest + heap target.strategy + target.output.held)
      ((m.mergeWithin stats tapes passes : MergeM π τ Stats) target) fun out _ =>
        out.1.map (fun _ => ()) = Plan.forecast (fun count => ref.charged (node * count))
          (ref.ledger.limit - (rest + target.output.held)) (overhead + m.tapeSpace τ)
          (m.tapeSpace τ + node + 1) (heap target.strategy) tapes.length := by
  refine (m.tallies_passes hleases hmerges hwidth hscratch stats passes hp hfits houtput hshows h
    hparked hmany hpasses).mono ?_
  intro out _ hout
  rw [Plan.forecast_eq_passes]
  generalize Plan.passes _ _ _ _ _ _ = planned at hout ⊢
  obtain ⟨outcome, target'⟩ := out
  cases outcome with
  | error e =>
    cases planned with
    | error e' => cases hout; rfl
    | ok n => cases hout
  | ok stats' =>
    cases planned with
    | error e' => cases hout
    | ok n => rfl

/-- What a merge of the tapes with a strategy that holds nothing yet will come to. The blocks that
the tapes hold are given back before the first plan is made. -/
def forecast (m : Merger) (site : Site) (p : π) (tapes : List (Tape τ)) : Except MergeError Unit :=
  Plan.forecast (fun count => site.charged (Strategy.perInput τ p * count))
    (site.ledger.limit - (site.ledger.used - Tape.heldAll tapes)) (m.fixedSpace τ p)
    (m.inputSpace τ p) 0 tapes.length

/-- On storage that works a merge comes out as forecast, and only the machine can make it halt. -/
theorem ensures_forecast (m : Merger) {site : Site}
    (hleases : Strategy.Leases τ site sound heap overhead node)
    (hmerges : Strategy.Merges site fits joins) (hscratch : site.scratch.Sound)
    (hp : sound target.strategy) (hfits : fits target.strategy) (hheap : heap target.strategy = 0)
    (hshows : target.output.Shows start) (h : List.Forall₂ Tape.Leaves tapes runs)
    (hmany : 1 < tapes.length)
    (howes : ∀ t ∈ target.output :: tapes, t.Owes site (m.blockBytes τ))
    (hheld : Tape.heldAll (target.output :: tapes) ≤ site.ledger.used)
    (hused : site.ledger.used ≤ site.ledger.limit) :
    ((m.merge tapes : MergeM π τ Stats) target).Ensures site
      (fun res _ => res.1.map (fun _ => ()) = m.forecast site target.strategy tapes)
      (fun halt _ => site.Fails halt) := by
  have hwidth := hshows.width_pos
  have houtput := howes _ List.mem_cons_self
  have htapes : ∀ t ∈ tapes, t.Owes site (m.blockBytes τ) :=
    fun t ht => howes t (List.mem_cons_of_mem _ ht)
  obtain ⟨rest, hrest⟩ := Nat.exists_eq_add_of_le' hheld
  rw [Tape.heldAll_cons] at hrest
  have htallies : Tallies site (rest + heap target.strategy + target.output.held +
      Tape.heldAll tapes) ((m.merge tapes : MergeM π τ Stats) target) fun out _ =>
        out.1.map (fun _ => ()) = m.forecast site target.strategy tapes := by
    have hempty : ¬tapes.isEmpty = true := by
      rw [List.isEmpty_iff]
      rintro rfl
      simp at hmany
    unfold merge
    rw [if_neg hempty]
    refine Tallies.run_bind (Tallies.run_liftM (Q := fun out used => ∃ tapes', out =
      (.ok (.ok (), tapes'), target) ∧ used = rest + heap target.strategy + target.output.held ∧
        (∀ t ∈ tapes', t.Parked (m.blockBytes τ)) ∧ tapes'.length = tapes.length ∧
        List.Forall₂ Tape.Leaves tapes' runs) ?_) ?_
      (by rintro e t _ ⟨tapes', ⟨⟩, -⟩)
    · refine ((tallies_releaseAll tapes htapes).and_yields (yields_releaseAll h)).mono ?_
      rintro ⟨_, tapes'⟩ _ ⟨⟨rfl, -, hlength, hparked⟩, rfl, hleaves⟩
      refine ⟨tapes', rfl, ?_, hparked rfl, hlength, hleaves⟩
      rw [Tape.heldAll_of_parked (hparked rfl), Nat.add_zero]
    rintro _ _ _ ⟨tapes', ⟨⟩, rfl, hparked, hlength, hleaves⟩
    refine (m.tallies_forecast hleases hmerges hwidth hscratch _ _ hp hfits houtput hshows hleaves
      hparked (by omega) (by omega)).mono ?_
    intro out _ hout
    obtain ⟨hfixed, hinput⟩ := m.planned_of_leases hleases hp
    rw [hout, forecast, hheap, hlength, hfixed, hinput, hleases.perInput_eq _ hp]
    congr 1
    omega
  refine (htallies.ensures (m.yields_merge hmerges hwidth hscratch hfits h hshows) (by omega)
    hused).mono ?_ (fun _ _ h => h)
  rintro out _ ⟨_, hout⟩
  exact hout

/-- There is room for a merge of two of the tapes at a time and, if there are more, for the
selection of two besides. -/
def HasRoom (m : Merger) (site : Site) (p : π) (tapes : List (Tape τ)) : Prop :=
  m.fixedSpace τ p + 2 * m.inputSpace τ p ≤
      site.ledger.limit - (site.ledger.used - Tape.heldAll tapes) ∧
    (tapes.length = 2 ∨
      m.fixedSpace τ p + 2 * m.inputSpace τ p + 2 * site.charged (Strategy.perInput τ p) ≤
        site.ledger.limit - (site.ledger.used - Tape.heldAll tapes))

omit [LawfulFixedWidth τ] in
theorem forecast_ok_iff_hasRoom (m : Merger) (site : Site) (p : π) {tapes : List (Tape τ)}
    (hmany : 1 < tapes.length) (hnode : 3 * Strategy.perInput τ p ≤ m.inputSpace τ p) :
    m.forecast site p tapes = .ok () ↔ m.HasRoom site p tapes := by
  have hcharge : (fun count => site.charged (Strategy.perInput τ p * count)) =
      (site.charged (Strategy.perInput τ p) * ·) := by
    funext count
    unfold Site.charged
    split
    · rw [Nat.zero_mul]
    · rfl
  have hper : 0 < m.inputSpace τ p := Nat.succ_pos _
  have hcharged : 3 * site.charged (Strategy.perInput τ p) ≤ m.inputSpace τ p :=
    (Nat.mul_le_mul_left 3 (site.charged_le _)).trans hnode
  rw [forecast, hcharge]
  exact Plan.forecast_ok_iff hper hcharged hmany

omit [Strategy π τ]

/-- A merge of two runs or more, with a new strategy and on storage that works, comes out exactly
as the plans of its passes do. If a node of the selection takes at most a third of what is planned
for an input, that is: it succeeds if there is room for two runs at a time, and for the selection
of the pass before unless these are all; otherwise it runs out of memory. -/
theorem merge_comes_as_forecast (m : Merger) (site : Site)
    (hused : site.ledger.used ≤ site.ledger.limit) (hscratch : site.scratch.Sound) :
    (∀ (target : Target (Ordered τ) τ) (start : Reel τ) (tapes : List (Tape τ))
      (runs : List (List τ)), target.strategy.selection = none → target.output.Shows start →
      List.Forall₂ Tape.Leaves tapes runs → 1 < tapes.length →
      m.Registered site (target.output :: tapes) target.strategy.selection →
        ((m.merge tapes : MergeM (Ordered τ) τ Stats) target).Ensures site
          (fun res _ => res.1.map (fun _ => ()) = m.forecast site target.strategy tapes)
          (fun halt _ => site.Fails halt) ∧
        (3 * Strategy.perInput τ target.strategy ≤ m.inputSpace τ target.strategy →
          (m.forecast site target.strategy tapes = .ok () ↔
            m.HasRoom site target.strategy tapes))) ∧
    (∀ (γ : Type) [WordSource γ] (target : Target (Interleave γ) τ) (start : Reel τ)
      (tapes : List (Tape τ)) (runs : List (List τ)), target.strategy.selection = none →
      target.output.Shows start → List.Forall₂ Tape.Leaves tapes runs → 1 < tapes.length →
      m.Registered site (target.output :: tapes) target.strategy.selection →
        ((m.merge tapes : MergeM (Interleave γ) τ Stats) target).Ensures site
          (fun res _ => res.1.map (fun _ => ()) = m.forecast site target.strategy tapes)
          (fun halt _ => site.Fails halt) ∧
        (m.forecast site target.strategy tapes = .ok () ↔
          m.HasRoom site target.strategy tapes)) := by
  have hheld {κ : Type} {selection : Option (Selection κ)} {tapes : List (Tape τ)}
      (h : m.Registered site tapes selection) : Tape.heldAll tapes ≤ site.ledger.used :=
    (Nat.le_add_left _ _).trans h.held_le
  refine ⟨?_, ?_⟩
  · intro target start tapes runs hnew hshows h hmany hregistered
    refine ⟨?_, m.forecast_ok_iff_hasRoom site target.strategy hmany⟩
    exact m.ensures_forecast (Ordered.leases site target.strategy.handleSize)
      (Ordered.merges target.strategy) hscratch ⟨rfl, hregistered.sound⟩ (.refl target.strategy)
      (by simp only [hnew, Selection.held, Option.map_none, Option.getD_none]) hshows h hmany
      hregistered.owes (hheld hregistered) hused
  · intro γ _ target start tapes runs hnew hshows h hmany hregistered
    refine ⟨?_, m.forecast_ok_iff_hasRoom site target.strategy hmany ?_⟩
    · exact m.ensures_forecast (Interleave.leases site) Interleave.merges hscratch
        hregistered.sound trivial
        (by simp only [hnew, Selection.held, Option.map_none, Option.getD_none]) hshows h hmany
        hregistered.owes (hheld hregistered) hused
    · change 3 * 16 ≤ m.tapeSpace τ + 16 + 1
      unfold tapeSpace Tape.memoryUsage Tape.handleSize
      omega

/-- Runs of one byte each. Two of them are merged first, and their selection has just enough room
beside the merge of the result with the third. -/
theorem merge_comes_as_forecast_bytes :
    ((merge { blockSize := 2 } (openRuns { blockSize := 2 } [[1#8], [2#8], [3#8]]) :
      MergeM (Ordered (Layout.scalar (.unsigned .w8)).Value)
        (Layout.scalar (.unsigned .w8)).Value Stats)
        { output := Tape.ofDisk (Disk.ofBytes []) none 2,
          strategy := { cmp := (Layout.scalar (.unsigned .w8)).compare } }).Ensures
      { ledger := { limit := 518, policy := .warn } }
      (fun res _ => res.1.map (fun _ => ()) = .ok ())
      (fun _ _ => False) := by
  have hwidth : 0 < FixedWidth.width (Layout.scalar (.unsigned .w8)).Value := Nat.one_pos
  have hoff : ∀ t ∈ openRuns (τ := (Layout.scalar (.unsigned .w8)).Value) { blockSize := 2 }
      [[], [1#8], [2#8], [3#8]], t.Parked (blockBytes _ { blockSize := 2 }) :=
    parked_openRuns _ _
  obtain ⟨hrun, hiff⟩ := (merge_comes_as_forecast { blockSize := 2 }
    { ledger := { limit := 518, policy := .warn } } (by decide) Scratch.sound_reliable).1
    { output := Tape.ofDisk (Disk.ofBytes []) none 2,
      strategy := { cmp := (Layout.scalar (.unsigned .w8)).compare } } _ _ _ rfl
    (Tape.shows_ofDisk hwidth [] none 2)
    (leaves_openRuns { blockSize := 2 } hwidth [[1#8], [2#8], [3#8]]) (by decide)
    (registered_of_parked _ _ hoff)
  refine hrun.mono ?_ (fun _ _ h => Site.not_fails rfl (fun _ _ => rfl) h)
  intro res _ hres
  rw [hres]
  exact (hiff (by decide)).mpr ⟨by decide, .inr (by decide)⟩

/-- Runs of one word each, with memory for exactly two at a time. The merge is planned for two, but
when the last pass is planned the strategy still holds the two nodes of the first, and what is
required is no longer available. -/
theorem merge_runs_short :
    (arity (Layout.scalar (.unsigned .w64)).Value { blockSize := 8 }
      ({ cmp := (Layout.scalar (.unsigned .w64)).compare } :
        Ordered (Layout.scalar (.unsigned .w64)).Value) 3).Ensures
      { ledger := { limit := 546, policy := .warn } } (fun out _ => out = .ok 2)
      (fun _ _ => False) ∧
    ((merge { blockSize := 8 } (openRuns { blockSize := 8 } [[1#64], [2#64], [3#64]]) :
      MergeM (Ordered (Layout.scalar (.unsigned .w64)).Value)
        (Layout.scalar (.unsigned .w64)).Value Stats)
        { output := Tape.ofDisk (Disk.ofBytes []) none 8,
          strategy := { cmp := (Layout.scalar (.unsigned .w64)).compare } }).Ensures
      { ledger := { limit := 546, policy := .warn } }
      (fun res _ => res.1.map (fun _ => ()) = .error (.insufficientMemory 514 546))
      (fun _ _ => False) := by
  have hwidth : 0 < FixedWidth.width (Layout.scalar (.unsigned .w64)).Value := by decide
  have hfirst : Plan.arity (546 - 0) 224 161 3 = .ok 2 := by decide
  have hsecond : Plan.arity (546 - 32) 224 161 2 = .error (.insufficientMemory 514 546) := by
    decide
  refine ⟨?_, ?_⟩
  · refine Ensures.mono ((tallies_arity { blockSize := 8 } _ 3).ensures
      (yields_arity { blockSize := 8 } _ hwidth 3) rfl (Nat.zero_le _)) ?_ 
      (fun _ _ h => Site.not_fails rfl (fun _ _ => rfl) h)
    rintro out _ ⟨_, -, rfl⟩
    exact hfirst
  · have hoff : ∀ t ∈ openRuns (τ := (Layout.scalar (.unsigned .w64)).Value) { blockSize := 8 }
        [[], [1#64], [2#64], [3#64]], t.Parked (blockBytes _ { blockSize := 8 }) :=
      parked_openRuns _ _
    refine Ensures.mono (ensures_forecast { blockSize := 8 } (Ordered.leases _ 80)
      (Ordered.merges { cmp := (Layout.scalar (.unsigned .w64)).compare }) Scratch.sound_reliable
      ⟨rfl, by rintro _ ⟨⟩⟩ (.refl _) rfl (Tape.shows_ofDisk hwidth [] none 8)
      (leaves_openRuns { blockSize := 8 } hwidth [[1#64], [2#64], [3#64]]) (by decide)
      (fun t ht => (hoff t ht).owes) (Nat.le_refl 0) (Nat.zero_le _)) ?_
      (fun _ _ h => Site.not_fails rfl (fun _ _ => rfl) h)
    intro res _ hres
    rw [hres]
    exact (Plan.forecast_pass hfirst (by decide)).trans (Plan.forecast_error hsecond)

end Merger

end BoundedMerge
