import BoundedMerge.Proofs.Merge.PassCount
import BoundedMerge.Proofs.Merge.Passes
import Mathlib.Data.Nat.Log

/-!
What a merge counts. Every pass but the last leaves one run of each group, so with groups of two or
more there are about half as many runs at most, and the number of passes is logarithmic. Every pass
but the last moves each record once at most, for a single run that is left over stays as it is; the
last pass moves all of them.
-/

namespace BoundedMerge

open Work

variable {π τ : Type} {stall : Prop}

/-- The reports of a merge of `runs` runs from pass `number` on. A pass that is not the last one
merges groups of `arity` runs and leaves as many runs as there are groups. -/
inductive Passes : Nat → Nat → List Event → Prop
  | last (number runs : Nat) : Passes number runs [.finalPass runs]
  | regroup {number runs arity : Nat} {events : List Event} (hlow : 2 ≤ arity)
      (hhigh : arity < runs) (h : Passes (number + 1) ((runs + arity - 1) / arity) events) :
      Passes number runs (.pass number runs arity :: events)

namespace Passes

variable {number runs : Nat} {events : List Event}

/-- One run is merged in one pass. -/
theorem length_of_one (h : Passes number 1 events) : events.length = 1 := by
  cases h with
  | last => rfl
  | regroup hlow hhigh _ => omega

/-- More are merged in logarithmically many. -/
theorem length_le (h : Passes number runs events) (hruns : 2 ≤ runs) :
    events.length ≤ Nat.clog 2 runs := by
  induction h with
  | last number runs =>
    have hpos : 0 < Nat.clog 2 runs := Nat.clog_pos (by omega) hruns
    exact hpos
  | @regroup number runs arity events hlow hhigh _ ih =>
    have hrec : Nat.clog 2 runs = Nat.clog 2 ((runs + 2 - 1) / 2) + 1 :=
      Nat.clog_of_two_le (by omega) hruns
    have hrest := ih (one_lt_groups (by omega) hhigh)
    have hmono : Nat.clog 2 ((runs + arity - 1) / arity) ≤ Nat.clog 2 ((runs + 2 - 1) / 2) :=
      Nat.clog_mono_right 2 (groups_le Nat.two_pos hlow (Nat.le_refl runs))
    rw [List.length_cons]
    omega

end Passes

structure Stats.Counts (stats : Stats) (runs records : Nat) (events : List Event) : Prop where
  runs_eq : stats.runs = runs
  passes_eq : stats.passes = events.length
  passes_none : runs = 0 → stats.passes = 0
  passes_one : runs = 1 → stats.passes = 1
  passes_many : 2 ≤ runs → stats.passes ≤ Nat.clog 2 runs
  course : 1 ≤ runs → Passes 1 runs events
  balanced : stats.consumed = stats.produced
  consumed_least : 1 ≤ runs → records ≤ stats.consumed
  consumed_most : 1 ≤ runs → stats.consumed ≤ stats.passes * records

namespace Merger

variable [FixedWidth τ]

theorem quiet_newTape (m : Merger) :
    SiteM.Quiet stall (m.newTape τ) fun out => ∀ t, out = .ok t → t.size = 0 ∧ t.offset = 0 := by
  unfold newTape
  apply (Tape.quiet_temporary _).bind
  intro out hout
  split
  · next tape =>
    apply SiteM.Quiet.pure
    intro t ht
    cases ht
    exact hout tape rfl
  · exact SiteM.Quiet.pure (by simp)
  · exact SiteM.Quiet.pure (by simp)

theorem quiet_closeAll (tapes : List (Tape τ)) :
    SiteM.Quiet stall (closeAll tapes) fun _ => True := by
  induction tapes with
  | nil => exact SiteM.Quiet.pure trivial
  | cons tape tapes ih => exact (Tape.quiet_close tape).bind fun _ _ => ih

/-- Tapes that give their blocks back stay as many and hold as much. -/
theorem quiet_releaseAll (tapes : List (Tape τ)) :
    SiteM.Quiet stall (releaseAll tapes) fun out => out.1 = .ok () →
      out.2.length = tapes.length ∧ Tape.leftAll out.2 = Tape.leftAll tapes := by
  induction tapes with
  | nil => exact SiteM.Quiet.pure fun _ => ⟨rfl, rfl⟩
  | cons tape tapes ih =>
    unfold releaseAll
    apply (Tape.quiet_releaseBlock tape).bind_run
    intro outcome tape' hstays
    cases outcome with
    | error e => exact SiteM.Quiet.pure (by simp)
    | ok _ =>
      apply ih.bind
      intro out hout
      apply SiteM.Quiet.pure
      intro hok
      obtain ⟨hlength, hleft⟩ := hout hok
      refine ⟨congrArg (· + 1) hlength, ?_⟩
      simp only [Tape.leftAll, List.map_cons, List.sum_cons] at hleft ⊢
      rw [hleft, (hstays () rfl).left_eq]

variable [Strategy π τ]

/-- A merge is planned for all runs, or for two at least. -/
theorem quiet_arity (m : Merger) (p : π) (runs : Nat) :
    SiteM.Quiet stall (m.arity τ p runs) fun out => ∀ arity, out = .ok arity →
      arity < runs → 2 ≤ arity := by
  unfold arity orCount Tape.measure
  apply SiteM.Quiet.bind (Q := fun _ => True)
  · simp only
    split
    · exact (SiteM.Quiet.halt nofun).bind fun _ (h : False) => h.elim
    · exact (SiteM.Quiet.count _).bind fun _ _ => SiteM.Quiet.pure trivial
  · intro _ _
    apply (SiteM.Quiet.count _).bind
    intro _ _
    apply SiteM.Quiet.get.bind
    intro site _
    rcases Plan.arity_cases site.ledger.available (m.fixedSpace τ p) (m.inputSpace τ p) runs with
      herror | ⟨affordable, hmany, hok⟩
    · rw [herror]
      exact (SiteM.Quiet.count _).bind fun _ _ => SiteM.Quiet.pure (by simp)
    · rw [hok]
      apply SiteM.Quiet.pure
      intro arity harity hlt
      cases harity
      omega

variable {Ready : Nat → π → List (Option τ) → Prop}

/-- A group is merged into one run that holds all its records. -/
theorem quiet_mergeGroup (hstrategy : Strategy.Diligent stall Ready) (m : Merger)
    (group : List (Tape τ)) (p : π) :
    Quiet stall (m.mergeGroup group : StrategyM π (Stats × Tape τ)) p fun out _ =>
      out.1.consumed = Tape.leftAll group ∧ out.1.produced = Tape.leftAll group ∧
        out.2.left = Tape.leftAll group := by
  unfold mergeGroup
  apply Quiet.lift m.quiet_newTape
  intro made hmade
  cases made with
  | error e => exact Quiet.after_throw (quiet_closeAll group)
  | ok output =>
    obtain ⟨hsize, hoffset⟩ := hmade output rfl
    have hpass : Quiet stall (mergeGroup.pass : BenchM π τ Stats)
        { output, strategy := p, inputs := group.toArray } fun stats b =>
          stats.consumed = Tape.leftAll group ∧ stats.produced = Tape.leftAll group ∧
            b.output.left = Tape.leftAll group := by
      unfold mergeGroup.pass
      apply (Bench.quiet_mergePass hstrategy _).bind
      intro stats b hstats
      obtain ⟨rfl, hgrows⟩ := hstats
      simp only at hgrows ⊢
      have hend := hgrows.2 (hsize.trans hoffset.symm)
      rw [hgrows.1, hoffset, Nat.zero_add] at hend
      apply (Bench.quiet_onTarget (Target.quiet_onOutput
        ((Tape.quiet_seek 0 b.output).bind fun _ t hseek =>
          (Tape.quiet_releaseBlock t).mono fun _ t' hstays => ?_))).bind
      · intro _ b' hrewound
        obtain ⟨_, rfl, _, rfl, hleft⟩ := hrewound
        exact Quiet.pure ⟨rfl, rfl, hleft⟩
      · have hleft : t'.left = Tape.leftAll group := by
          rw [hstays.left_eq, Tape.left, hseek.1, hseek.2, hend, Nat.sub_zero]
        exact hleft
    rw [Quiet.get]
    apply Quiet.lift_run hpass
    · intro stats b hout
      rw [Quiet.set]
      apply Quiet.lift (quiet_closeAll _)
      intro _ _
      exact Quiet.pure hout
    · intro e b
      rw [Quiet.set]
      apply Quiet.lift (Tape.quiet_close _)
      intro _ _
      exact Quiet.after_throw (quiet_closeAll _)

/-- One run of each group is left, and they hold all records. No record was moved twice. -/
theorem quiet_mergeGroups (hstrategy : Strategy.Diligent stall Ready) (m : Merger)
    (merged : List (Tape τ)) (groups : List (List (Tape τ))) (p : π) :
    Quiet stall (m.mergeGroups merged groups : StrategyM π (Stats × List (Tape τ))) p
      fun out _ => out.2.length = merged.length + groups.length ∧
        Tape.leftAll out.2 = Tape.leftAll merged + Tape.leftAll groups.flatten ∧
        out.1.consumed = out.1.produced ∧ out.1.consumed ≤ Tape.leftAll groups.flatten := by
  induction groups generalizing merged p with
  | nil => exact Quiet.pure ⟨rfl, rfl, rfl, Nat.le_refl _⟩
  | cons group groups ih =>
    by_cases hone : ∃ run, group = [run]
    · obtain ⟨run, rfl⟩ := hone
      unfold mergeGroups
      apply (ih (merged ++ [run]) p).mono
      intro out _ hout
      obtain ⟨hlength, hleft, hbalanced, hconsumed⟩ := hout
      rw [List.length_append, List.length_singleton] at hlength
      rw [Tape.leftAll_append] at hleft
      rw [List.flatten_cons, Tape.leftAll_append]
      exact ⟨by rw [List.length_cons]; omega, by omega, hbalanced, by omega⟩
    · rw [mergeGroups]
      swap
      · exact fun run hrun => hone ⟨run, hrun⟩
      apply ((quiet_mergeGroup hstrategy m group p).rethrow fun e q => ?_).bind
      · intro first q hfirst
        obtain ⟨hconsumed, hproduced, hrun⟩ := hfirst
        apply (ih (merged ++ [first.2]) q).bind
        intro out q' hout
        obtain ⟨hlength, hleft, hbalanced, hmost⟩ := hout
        rw [List.length_append, List.length_singleton] at hlength
        rw [Tape.leftAll_append, show Tape.leftAll [first.2] = first.2.left from Nat.add_zero _,
          hrun] at hleft
        refine Quiet.pure ⟨?_, ?_, ?_, ?_⟩
        · rw [List.length_cons, hlength]
          omega
        · rw [List.flatten_cons, Tape.leftAll_append, hleft]
          omega
        · simp only [Stats.add]
          omega
        · rw [List.flatten_cons, Tape.leftAll_append]
          simp only [Stats.add]
          omega
      · apply Quiet.lift (quiet_closeAll _)
        intro _ _
        exact Quiet.after_throw (quiet_closeAll _)

/-- The last pass moves all records. -/
theorem quiet_mergeLast (hstrategy : Strategy.Diligent stall Ready) (runs : List (Tape τ))
    (t : Target π τ) :
    Quiet stall (mergeLast runs : MergeM π τ Stats) t fun stats _ =>
      stats.passes = 1 ∧ stats.consumed = Tape.leftAll runs ∧
        stats.produced = Tape.leftAll runs := by
  unfold mergeLast
  rw [Quiet.get]
  apply Quiet.lift_run (Bench.quiet_mergePass hstrategy _)
  · intro stats b hout
    obtain ⟨rfl, -⟩ := hout
    rw [Quiet.set]
    apply Quiet.lift (quiet_closeAll _)
    intro _ _
    exact Quiet.pure ⟨rfl, rfl, rfl⟩
  · intro e b
    rw [Quiet.set]
    apply Quiet.lift (quiet_closeAll _)
    intro _ _
    exact Quiet.throw

/-- The last pass counts as one, and moves all records that are left. -/
theorem quiet_lastPass (hstrategy : Strategy.Diligent stall Ready) (stats : Stats)
    (runs : List (Tape τ)) (t : Target π τ) :
    Quiet stall (do return stats.add (← mergeLast runs) : MergeM π τ Stats) t fun stats' _ =>
      stats' = { stats with
        passes := stats.passes + 1
        consumed := stats.consumed + Tape.leftAll runs
        produced := stats.produced + Tape.leftAll runs } := by
  apply (quiet_mergeLast hstrategy runs t).bind
  intro last t' hcounts
  obtain ⟨hone, hconsumed, hproduced⟩ := hcounts
  apply Quiet.pure
  rw [Stats.add, hone, hconsumed, hproduced]

/-- The passes of a merge are reported in their order, as far as it gets, and as many passes as
there are runs suffice. -/
theorem reports_mergeWithin (hstrategy : Strategy.Diligent stall Ready) (m : Merger)
    (stats : Stats) (runs : List (Tape τ)) (hruns : 1 ≤ runs.length) (passes : Nat)
    (hpasses : runs.length ≤ passes) (t : Target π τ) :
    Reports stall (m.mergeWithin stats runs passes : MergeM π τ Stats) t
      (fun stats' _ events => Passes (stats.passes + 1) runs.length events ∧
        ∃ moved, Tape.leftAll runs ≤ moved ∧ moved ≤ events.length * Tape.leftAll runs ∧
          stats' = { stats with
            passes := stats.passes + events.length
            consumed := stats.consumed + moved
            produced := stats.produced + moved })
      (fun events => ∃ rest, Passes (stats.passes + 1) runs.length (events ++ rest)) := by
  induction passes generalizing stats runs t with
  | zero => omega
  | succ passes ih =>
    have hnothing : ∃ rest, Passes (stats.passes + 1) runs.length ([] ++ rest) :=
      ⟨_, .last _ _⟩
    unfold mergeWithin
    rw [Reports.get]
    apply Reports.lift_bind (m.quiet_arity t.strategy runs.length) hnothing
    intro planned hplanned
    cases planned with
    | error e => exact Reports.after_throw (quiet_closeAll runs) hnothing
    | ok arity =>
      simp only
      split
      · apply Reports.report_bind rfl
        apply Reports.of_quiet (quiet_lastPass hstrategy stats runs t)
        · intro stats' _ hstats
          refine ⟨.last _ _, Tape.leftAll runs, Nat.le_refl _, ?_, hstats⟩
          rw [List.length_singleton, Nat.one_mul]
        · exact ⟨[], .last _ _⟩
      · next hmore =>
        have hhigh : arity < runs.length := Nat.lt_of_not_le hmore
        have hlow : 2 ≤ arity := hplanned arity rfl hhigh
        have hgroups := length_groupsOf (by omega : 0 < arity) runs
        have hfewer := length_groupsOf_lt hlow (by omega : 1 < runs.length)
        have htwo := one_lt_groups (by omega) hhigh
        apply Reports.report_bind rfl
        apply Reports.quiet_bind
          (Target.quiet_onStrategy (quiet_mergeGroups hstrategy m [] (groupsOf arity runs) _))
        · exact ⟨_, .regroup hlow hhigh (.last _ _)⟩
        · intro out t' hout
          obtain ⟨strategy, rfl, hlength, hleft, hbalanced, hmost⟩ := hout
          rw [List.length_nil, Nat.zero_add, hgroups] at hlength
          rw [flatten_groupsOf, show Tape.leftAll ([] : List (Tape τ)) = 0 from rfl,
            Nat.zero_add] at hleft
          rw [flatten_groupsOf] at hmost
          have hrest := ih (stats.add { out.1 with passes := 1 }) out.2 (by omega) (by omega)
            { t with strategy }
          rw [hlength, hleft] at hrest
          apply hrest.mono
          · intro stats' _ events hstats
            obtain ⟨hcourse, moved, hleast, hmoved, rfl⟩ := hstats
            refine ⟨.regroup hlow hhigh hcourse, out.1.consumed + moved, by omega, ?_, ?_⟩
            · rw [List.length_cons, Nat.add_mul, Nat.one_mul]
              omega
            · simp only [Stats.add, List.length_cons, hbalanced, Nat.add_assoc, Nat.add_comm 1]
          · intro events hevents
            obtain ⟨rest, hcourse⟩ := hevents
            exact ⟨rest, .regroup hlow hhigh hcourse⟩

/-- What a merge counts if it does not fail, and what it reports in any case. -/
theorem reports_merge (hstrategy : Strategy.Diligent stall Ready) (m : Merger)
    (runs : List (Tape τ)) (t : Target π τ) :
    Reports stall (m.merge runs : MergeM π τ Stats) t
      (fun stats _ events => stats.Counts runs.length (Tape.leftAll runs) events)
      (fun events => ∃ rest, Passes 1 runs.length (events ++ rest)) := by
  have hnothing : ∃ rest, Passes 1 runs.length ([] ++ rest) := ⟨_, .last _ _⟩
  unfold merge
  by_cases hempty : runs = []
  · subst hempty
    apply Reports.of_quiet (Quiet.pure (Q := fun stats _ => stats = ({} : Stats)) rfl)
    · intro stats _ hstats
      subst hstats
      exact ⟨rfl, rfl, fun _ => rfl, by simp, by simp, by simp, rfl, by simp, by simp⟩
    · exact hnothing
  · have hpos : 1 ≤ runs.length := List.length_pos_of_ne_nil hempty
    rw [if_neg (by simpa using hempty)]
    apply Reports.lift_bind (quiet_releaseAll runs) hnothing
    intro out hout
    obtain ⟨outcome, parked⟩ := out
    cases outcome with
    | error e => exact Reports.after_throw (quiet_closeAll parked) hnothing
    | ok _ =>
      obtain ⟨hlength, hleft⟩ := hout rfl
      simp only at hlength hleft
      have hwithin := reports_mergeWithin hstrategy m { runs := parked.length } parked
        (by omega) parked.length (Nat.le_refl _) t
      rw [hlength, hleft] at hwithin
      simp only [hlength]
      apply hwithin.mono
      · intro stats _ events hstats
        obtain ⟨hcourse, moved, hleast, hmost, rfl⟩ := hstats
        refine ⟨rfl, Nat.zero_add _, by omega, fun hone => ?_, fun hmany => ?_, fun _ => hcourse,
          rfl, fun _ => ?_, fun _ => ?_⟩
        · rw [hone] at hcourse
          exact (Nat.zero_add _).trans hcourse.length_of_one
        · exact Nat.le_trans (Nat.le_of_eq (Nat.zero_add _)) (hcourse.length_le hmany)
        · simp only
          omega
        · simp only [Nat.zero_add]
          exact hmost
      · intro events hevents
        exact hevents

end Merger

end BoundedMerge
