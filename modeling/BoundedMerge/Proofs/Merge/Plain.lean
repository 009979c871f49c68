import BoundedMerge.Merge.Passes
import BoundedMerge.Proofs.Strategy.Plain
import BoundedMerge.Proofs.Tape.Plain

/-!
Passes whose work is plain. A pass does not look at the ledger: only the plans of a merge do, and
these are made for two runs or more. So a merge of less does not depend on the limit, unless the
limit ends it.
-/

namespace BoundedMerge

open Work

variable {α π τ : Type}

namespace Target

theorem plain_onOutput {work : TapeM τ α} (h : Plain work) :
    Plain (onOutput work : MergeM π τ α) := by
  unfold onOutput
  apply Plain.get
  intro t
  apply (Plain.lift (h t.output)).bind
  intro out
  obtain ⟨outcome, output⟩ := out
  apply (Plain.modify _).bind
  intro _
  cases outcome with
  | ok a => exact Plain.pure a
  | error e => exact Plain.throw _

theorem plain_onStrategy {work : StrategyM π α} (h : Plain work) :
    Plain (onStrategy work : MergeM π τ α) := by
  unfold onStrategy
  apply Plain.get
  intro t
  apply (Plain.lift (h t.strategy)).bind
  intro out
  obtain ⟨outcome, strategy⟩ := out
  apply (Plain.modify _).bind
  intro _
  cases outcome with
  | ok a => exact Plain.pure a
  | error e => exact Plain.throw _

end Target

namespace Bench

theorem plain_onTarget {work : MergeM π τ α} (h : Plain work) :
    Plain (onTarget work : BenchM π τ α) := by
  unfold onTarget
  apply Plain.get
  intro b
  apply (Plain.lift (h b.toTarget)).bind
  intro out
  obtain ⟨outcome, target⟩ := out
  apply (Plain.modify _).bind
  intro _
  cases outcome with
  | ok a => exact Plain.pure a
  | error e => exact Plain.throw _

theorem plain_onInput {work : TapeM τ α} (h : Plain work) (index : Nat) :
    Plain (onInput index work : BenchM π τ α) := by
  unfold onInput
  apply Plain.get
  intro b
  apply (Plain.lift (SiteM.Plain.demand _)).bind
  intro tape
  apply (Plain.lift (h tape)).bind
  intro out
  obtain ⟨outcome, tape'⟩ := out
  apply (Plain.modify _).bind
  intro _
  cases outcome with
  | ok a => exact Plain.pure a
  | error e => exact Plain.throw _

variable [FixedWidth τ]

theorem plain_readFirsts (index count : Nat) :
    Plain (readFirsts index count : BenchM π τ (List (Option τ))) := by
  induction count generalizing index with
  | zero => exact Plain.pure []
  | succ count ih =>
    unfold readFirsts
    apply (plain_onInput Tape.plain_next? index).bind
    intro x
    exact (ih (index + 1)).bind fun xs => Plain.pure (x :: xs)

theorem plain_advance (pending : List (Option τ)) (indices : List Nat) :
    Plain (advance pending indices : BenchM π τ (List (Option τ) × Nat)) := by
  induction indices generalizing pending with
  | nil => exact Plain.pure (pending, 0)
  | cons index indices ih =>
    unfold advance
    apply (plain_onInput Tape.plain_next? index).bind
    intro x
    exact (ih _).bind fun moved => Plain.pure _

theorem plain_releaseInputs (indices : List Nat) :
    Plain (releaseInputs indices : BenchM π τ Unit) := by
  induction indices with
  | nil => exact Plain.pure ()
  | cons index indices ih =>
    unfold releaseInputs
    exact (plain_onInput Tape.plain_releaseBlock index).bind fun _ => ih

variable [Strategy π τ]

theorem plain_follow (hplain : Strategy.Plain π τ) (stats : Stats) (pending : List (Option τ))
    (steps : Nat) : Plain (follow stats pending steps : BenchM π τ Stats) := by
  induction steps generalizing stats pending with
  | zero => exact Plain.lift (SiteM.Plain.halt _)
  | succ steps ih =>
    unfold follow
    apply (plain_onTarget (Target.plain_onStrategy (hplain.operate pending _))).bind
    intro out
    obtain ⟨step, taken⟩ := out
    cases step with
    | done =>
      simp only
      split
      · exact Plain.throw _
      · exact Plain.pure stats
    | skip => exact (plain_advance pending _).bind fun moved => ih _ moved.1
    | emit x =>
      apply (plain_onTarget (Target.plain_onOutput (Tape.plain_write x))).bind
      intro _
      exact (plain_advance pending _).bind fun moved => ih _ moved.1

theorem plain_mergePass (hplain : Strategy.Plain π τ) :
    Plain (mergePass : BenchM π τ Stats) := by
  apply Plain.get
  intro b
  simp only
  split
  · exact Plain.throw _
  · apply (plain_readFirsts 0 b.inputs.size).bind
    intro pending
    apply (plain_onTarget (Target.plain_onStrategy (hplain.prepare pending))).bind
    intro _
    apply (plain_follow hplain _ pending b.stepLimit).bind
    intro stats
    apply (plain_releaseInputs _).bind
    intro _
    apply (plain_onTarget (Target.plain_onOutput Tape.plain_flush)).bind
    intro _
    exact Plain.pure stats

end Bench

namespace Merger

variable [FixedWidth τ]

theorem plain_closeAll (tapes : List (Tape τ)) : SiteM.Plain (closeAll tapes) := by
  induction tapes with
  | nil => exact SiteM.Plain.pure ()
  | cons tape tapes ih =>
    unfold closeAll
    exact tape.plain_close.bind fun _ => ih

theorem plain_releaseAll (tapes : List (Tape τ)) : SiteM.Plain (releaseAll tapes) := by
  induction tapes with
  | nil => exact SiteM.Plain.pure _
  | cons tape tapes ih =>
    unfold releaseAll
    apply (Tape.plain_releaseBlock tape).bind
    intro out
    obtain ⟨outcome, tape'⟩ := out
    cases outcome with
    | error e => exact SiteM.Plain.pure _
    | ok _ => exact ih.bind fun _ => SiteM.Plain.pure _

variable [Strategy π τ]

theorem plain_mergeLast (hplain : Strategy.Plain π τ) (tapes : List (Tape τ)) :
    Plain (mergeLast tapes : MergeM π τ Stats) := by
  unfold mergeLast
  apply Plain.get
  intro target
  apply (Plain.lift (Bench.plain_mergePass hplain _)).bind
  intro out
  obtain ⟨outcome, b⟩ := out
  apply (Plain.set _).bind
  intro _
  apply (Plain.lift (plain_closeAll _)).bind
  intro _
  cases outcome with
  | ok stats => exact Plain.pure stats
  | error e => exact Plain.throw e

omit [FixedWidth τ] [Strategy π τ] in
theorem plain_measure [FixedWidth τ] (blockSize : Nat) :
    SiteM.Plain (Tape.measure τ blockSize) := by
  have hcount : SiteM.Plain (do
      Site.count (Tape.memoryUsage τ blockSize)
      return Tape.memoryUsage τ blockSize : SiteM Nat) :=
    (SiteM.Plain.count _).bind fun _ => SiteM.Plain.pure _
  exact SiteM.Plain.ite ((SiteM.Plain.halt _).bind fun _ => hcount) hcount

/-- The plan for one run can be made with any memory. -/
theorem arity_single (m : Merger) (p : π) : m.arity τ p 1 = do
    let _ ← Tape.measure τ m.blockSize
    Site.count (max (m.fixedSpace τ p) (m.inputSpace τ p))
    return .ok 1 := by
  have hplan (available : Nat) :
      Plan.arity available (m.fixedSpace τ p) (m.inputSpace τ p) 1 = .ok 1 := by
    unfold Plan.arity
    simp only
    rw [if_neg (by omega), Nat.min_eq_right (by omega)]
  unfold arity
  simp only [hplan]
  rfl

/-- A merge of one run, or of none, makes no plan that depends on what is available. -/
theorem plain_merge_of_few (hplain : Strategy.Plain π τ) (m : Merger) {tapes : List (Tape τ)}
    (hfew : tapes.length ≤ 1) : Plain (m.merge tapes : MergeM π τ Stats) := by
  have hsingle (tape : Tape τ) :
      Plain (m.mergeWithin { runs := 1 } [tape] 1 : MergeM π τ Stats) := by
    have hlast : Plain (do
        Site.report (.finalPass 1)
        return ({ runs := 1 } : Stats).add (← mergeLast [tape]) : MergeM π τ Stats) := by
      apply (Plain.lift (SiteM.Plain.report _)).bind
      intro _
      exact (plain_mergeLast hplain [tape]).bind fun last => Plain.pure _
    intro target
    unfold mergeWithin
    simp only [run_bind, run_get, run_liftM, pure_bind, bind_assoc, List.length_singleton,
      arity_single]
    apply (plain_measure m.blockSize).bind
    intro _
    apply (SiteM.Plain.count _).bind
    intro _
    exact hlast target
  match tapes, hfew with
  | [], _ => exact fun _ => SiteM.Plain.pure _
  | [tape], _ =>
    intro target
    unfold merge
    simp only [List.isEmpty_cons, Bool.false_eq_true, if_false, releaseAll, run_bind, run_liftM,
      bind_assoc, pure_bind]
    apply (Tape.plain_releaseBlock tape).bind
    intro out
    obtain ⟨outcome, tape'⟩ := out
    cases outcome with
    | error e =>
      have hfail : Plain (do closeAll [tape']; throw (.tape e) : MergeM π τ Stats) :=
        (Plain.lift (plain_closeAll _)).bind fun _ => Plain.throw _
      exact hfail target
    | ok _ => exact hsingle tape' target

end Merger

end BoundedMerge
