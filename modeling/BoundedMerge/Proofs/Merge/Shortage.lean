import BoundedMerge.Merge.Formation
import BoundedMerge.Proofs.Layout.Lawful
import BoundedMerge.Proofs.Site.Guards
import BoundedMerge.Proofs.Tape.Custody
import BoundedMerge.Strategy.FirstPending

/-!
What is left behind by a merge that cannot be afforded. Memory, scratch files and a way to arrange
runs are all that a merge may turn out to be short of. The output is not touched before the last
pass, or the last step in main memory, and neither of them fails for a shortage; the input is only
read. So a merge that fails for a shortage leaves the output as it was and the records of the input
as they were, however far it came.
-/

namespace BoundedMerge

open SiteM Work

variable {α π τ : Type}

/-- Something was missing that a merge needs: a scratch file, memory, or a way to arrange runs. -/
def MergeError.IsShortage : MergeError → Prop
  | scratch _ | insufficientMemory _ _ | noMainMemoryOperation => True
  | _ => False

def Sufficed (out : Except MergeError α) : Prop := ∀ e, out = .error e → ¬e.IsShortage

def Broke (out : Except MergeError α) : Prop := ∃ e, out = .error e ∧ ¬e.IsShortage

theorem sufficed_error {e : MergeError} (h : ¬e.IsShortage) :
    Sufficed (.error e : Except MergeError α) := by
  intro e' he'
  cases he'
  exact h

theorem broke_tape (e : TapeError) : Broke (.error (.tape e) : Except MergeError α) :=
  ⟨_, rfl, id⟩

/-- Work that comes after work that broke is not done. -/
theorem Broke.bind {β σ : Type} {I : σ → Prop} {lost : Except MergeError β → Prop}
    {work : ExceptT MergeError (StateT σ SiteM) α}
    {next : α → ExceptT MergeError (StateT σ SiteM) β} (hwork : Guards I Broke work)
    (hnext : ∀ a, Guards I lost (next a)) (hlost : ∀ e, ¬e.IsShortage → lost (.error e)) :
    Guards I lost (work >>= next) := by
  apply hwork.bind hnext
  · intro e h
    obtain ⟨e', h, hshort⟩ := h
    cases h
    exact hlost e hshort
  · intro a h
    obtain ⟨_, h, _⟩ := h
    contradiction

/-- The strategy does not claim a shortage, but perhaps where it arranges a run. -/
structure Strategy.Candid (π τ : Type) [Strategy π τ] : Prop where
  prepare (inputs : List (Option τ)) :
    Raises (¬·.IsShortage) (Strategy.prepare inputs : StrategyM π Unit)
  operate (inputs : List (Option τ)) (taken : Taken) :
    Raises (¬·.IsShortage) (Strategy.operate inputs taken : StrategyM π (Step τ × Taken))

section Pass

variable {P : MergeError → Prop}

theorem Target.raises_onOutput (hP : ∀ e, P (.tape e)) (work : TapeM τ α) :
    Raises P (onOutput work : MergeM π τ α) := by
  intro target
  unfold onOutput
  simp only [run_bind, run_get, run_liftM, bind_assoc, pure_bind, run_modify]
  apply Loses.after
  intro out
  obtain ⟨e | a, output⟩ := out
  · exact Raises.throw (hP e) _
  · exact Raises.pure a _

theorem Target.raises_onStrategy {work : StrategyM π α} (hwork : Raises P work) :
    Raises P (onStrategy work : MergeM π τ α) := by
  intro target
  unfold onStrategy
  simp only [run_bind, run_get, run_liftM, bind_assoc, pure_bind, run_modify]
  apply (hwork target.strategy).bind
  intro out hout
  obtain ⟨e | a, p⟩ := out
  · exact Raises.throw (hout e rfl) _
  · exact Raises.pure a _

namespace Bench

theorem raises_onTarget {work : MergeM π τ α} (hwork : Raises P work) :
    Raises P (onTarget work : BenchM π τ α) := by
  intro b
  unfold onTarget
  simp only [run_bind, run_get, run_liftM, bind_assoc, pure_bind, run_modify]
  apply (hwork b.toTarget).bind
  intro out hout
  obtain ⟨e | a, target⟩ := out
  · exact Raises.throw (hout e rfl) _
  · exact Raises.pure a _

theorem raises_onInput (hP : ∀ e, P (.tape e)) (index : Nat) (work : TapeM τ α) :
    Raises P (onInput index work : BenchM π τ α) := by
  intro b
  unfold onInput
  simp only [run_bind, run_get, run_liftM, bind_assoc, pure_bind, run_modify]
  apply Loses.after
  intro tape
  apply Loses.after
  intro out
  obtain ⟨e | a, tape⟩ := out
  · exact Raises.throw (hP e) _
  · exact Raises.pure a _

variable [FixedWidth τ]

theorem raises_readFirsts (hP : ∀ e, P (.tape e)) (index count : Nat) :
    Raises P (readFirsts index count : BenchM π τ (List (Option τ))) := by
  induction count generalizing index with
  | zero => exact Raises.pure _
  | succ count ih =>
    apply (raises_onInput hP index _).bind
    intro x
    exact (ih (index + 1)).bind fun _ => Raises.pure _

theorem raises_advance (hP : ∀ e, P (.tape e)) (pending : List (Option τ)) (indices : List Nat) :
    Raises P (advance pending indices : BenchM π τ (List (Option τ) × Nat)) := by
  induction indices generalizing pending with
  | nil => exact Raises.pure _
  | cons index indices ih =>
    apply (raises_onInput hP index _).bind
    intro x
    exact (ih _).bind fun _ => Raises.pure _

theorem raises_releaseInputs (hP : ∀ e, P (.tape e)) (indices : List Nat) :
    Raises P (releaseInputs indices : BenchM π τ Unit) := by
  induction indices with
  | nil => exact Raises.pure _
  | cons index indices ih => exact (raises_onInput hP index _).bind fun _ => ih

variable [Strategy π τ]

theorem raises_follow (hstrategy : Strategy.Candid π τ) (stats : Stats)
    (pending : List (Option τ)) (steps : Nat) :
    Raises (¬·.IsShortage) (follow stats pending steps : BenchM π τ Stats) := by
  induction steps generalizing stats pending with
  | zero => exact Raises.lift _
  | succ steps ih =>
    apply (raises_onTarget (Target.raises_onStrategy (hstrategy.operate pending _))).bind
    intro answer
    obtain ⟨step, taken⟩ := answer
    cases step with
    | done =>
      simp only
      split
      · exact Raises.throw id
      · exact Raises.pure _
    | skip =>
      apply (raises_advance (fun _ => id) pending _).bind
      intro moved
      exact ih _ _
    | emit x =>
      apply (raises_onTarget (Target.raises_onOutput (fun _ => id) _)).bind
      intro _
      apply (raises_advance (fun _ => id) pending _).bind
      intro moved
      exact ih _ _

/-- A pass does not run short of anything. -/
theorem raises_mergePass (hstrategy : Strategy.Candid π τ) :
    Raises (¬·.IsShortage) (mergePass : BenchM π τ Stats) := by
  unfold mergePass
  apply Raises.get.bind
  intro b
  simp only
  split
  · exact Raises.throw id
  · apply (raises_readFirsts (fun _ => id) 0 _).bind
    intro pending
    apply (raises_onTarget (Target.raises_onStrategy (hstrategy.prepare pending))).bind
    intro _
    apply (raises_follow hstrategy _ pending _).bind
    intro stats
    apply (raises_releaseInputs (fun _ => id) _).bind
    intro _
    apply (raises_onTarget (Target.raises_onOutput (fun _ => id) _)).bind
    intro _
    exact Raises.pure _

end Bench

end Pass

namespace Merger

variable [FixedWidth τ] [Strategy π τ] {output : Tape τ}

theorem raises_mergeLast (hstrategy : Strategy.Candid π τ) (runs : List (Tape τ)) :
    Raises (¬·.IsShortage) (mergeLast runs : MergeM π τ Stats) := by
  intro target
  unfold mergeLast
  simp only [run_bind, run_get, run_liftM, bind_assoc, pure_bind, run_set]
  apply (Bench.raises_mergePass hstrategy _).bind
  intro out hout
  obtain ⟨e | stats, b⟩ := out
  · apply Loses.after
    intro _
    exact Raises.throw (P := fun e : MergeError => ¬e.IsShortage) (hout e rfl) b.toTarget
  · apply Loses.after
    intro _
    exact Raises.pure stats b.toTarget

omit [FixedWidth τ] [Strategy π τ] in
/-- What is done with the strategy does not touch the output. -/
theorem guards_onStrategy {lost : Except MergeError α → Prop} (work : StrategyM π α) :
    Guards (fun target => target.output = output) lost
      (Target.onStrategy work : MergeM π τ α) := by
  intro target htarget
  unfold Target.onStrategy
  simp only [run_bind, run_get, run_liftM, bind_assoc, pure_bind, run_modify]
  apply Loses.after
  intro out
  obtain ⟨e | a, p⟩ := out
  · exact Loses.pure (.inr htarget)
  · exact Loses.pure (.inr htarget)

theorem guards_mergeWithin (m : Merger) (hstrategy : Strategy.Candid π τ) (stats : Stats)
    (runs : List (Tape τ)) (passes : Nat) :
    Guards (fun target => target.output = output) Sufficed
      (m.mergeWithin stats runs passes : MergeM π τ Stats) := by
  induction passes generalizing stats runs with
  | zero => exact Guards.lift _
  | succ passes ih =>
    apply Guards.get
    intro target _
    apply Guards.lift_bind
    intro arity
    cases arity with
    | error e =>
      apply Guards.lift_bind
      intro _
      exact Guards.throw e
    | ok arity =>
      simp only
      split
      · apply Guards.lift_bind
        intro _
        have hlast := (raises_mergeLast hstrategy runs).bind fun last =>
          Raises.pure (stats.add last)
        exact Guards.of_raises hlast fun _ h => h
      · apply Guards.lift_bind
        intro _
        apply (guards_onStrategy _).bind_kept
        intro pass
        exact ih _ _

/-- A merge that runs short leaves the output as it was, even after passes that succeeded. -/
theorem guards_merge (m : Merger) (hstrategy : Strategy.Candid π τ) (runs : List (Tape τ)) :
    Guards (fun target => target.output = output) Sufficed (m.merge runs : MergeM π τ Stats) := by
  unfold merge
  split
  · exact Guards.pure _
  · apply Guards.lift_bind
    intro released
    obtain ⟨outcome, runs⟩ := released
    cases outcome with
    | error e =>
      apply Guards.lift_bind
      intro _
      exact Guards.throw _
    | ok _ => exact m.guards_mergeWithin hstrategy _ runs _

end Merger

namespace Tape

variable [FixedWidth τ]

def Retains (t : Tape τ) (p : Pledge τ) : Prop :=
  ∃ q, t.Honours q ∧ q.size = p.size ∧ q.record = p.record

variable {p : Pledge τ}

/-- Work that leaves the pledged records as they are if it succeeds. -/
theorem guards_of_upholds {work : TapeM τ α}
    (hwork : ∀ (ref : Site) (t : Tape τ) (q : Pledge τ), t.Honours q →
      t.Upholds ref work (fun _ t' => t'.Retains q) fun _ _ => True) :
    Guards (·.Retains p) (fun out => ∃ e, out = .error e) work := by
  intro t ht site
  obtain ⟨q, hq, hsize, hrecord⟩ := ht
  apply (hwork site t q hq site (Site.Like.refl site)).mono
  · intro out _ hout
    obtain ⟨e | a, t'⟩ := out
    · exact .inl ⟨e, rfl⟩
    · obtain ⟨⟨-, q', hq', hsize', hrecord'⟩, -⟩ := hout
      exact .inr ⟨q', hq', hsize'.trans hsize, hrecord'.trans hrecord⟩
  · exact fun _ _ _ => trivial

variable [CanonicalFixedWidth τ]

theorem guards_read :
    Guards (·.Retains p) (fun out => ∃ e, out = .error e) (read : TapeM τ τ) := by
  apply guards_of_upholds
  intro ref t q hq
  apply (upholds_read hq).mono
  · exact fun x t' _ hout =>
      ⟨_, hout.2, Pledge.size_reads t.blockItems 1 q, Pledge.record_reads t.blockItems 1 q⟩
  · exact fun _ _ _ _ => trivial

omit [CanonicalFixedWidth τ] in
theorem guards_seek (index : Nat) :
    Guards (·.Retains p) (fun out => ∃ e, out = .error e) (seek index : TapeM τ Unit) := by
  apply guards_of_upholds
  intro ref t q hq
  apply (upholds_seek hq index).mono
  · exact fun _ t' _ hout => ⟨_, hout, rfl, rfl⟩
  · exact fun _ _ _ _ => trivial

theorem guards_releaseBlock :
    Guards (·.Retains p) (fun out => ∃ e, out = .error e) (releaseBlock : TapeM τ Unit) := by
  apply guards_of_upholds
  intro ref t q hq
  apply (upholds_releaseBlock hq).mono
  · intro _ t' _ hout
    refine ⟨q.saved, ?_, rfl, rfl⟩
    rw [Honours, hout.2]
    exact hout.1
  · exact fun _ _ _ _ => trivial

end Tape

namespace Batch

variable [FixedWidth τ] [CanonicalFixedWidth τ] {p : Pledge τ}

theorem guards_observing :
    Guards (·.Retains p) (fun out => ∃ e, out = .error e ∨ out = .ok (.error e))
      (pull.observing Tape.read : TapeM τ (Except TapeError τ)) := by
  unfold pull.observing
  apply Guards.observe
  · rw [map_eq_pure_bind]
    apply Tape.guards_read.bind
    · intro x
      exact Guards.pure _
    · intro e _
      exact ⟨e, .inl rfl⟩
    · intro x h
      obtain ⟨e, h⟩ := h
      contradiction
  · intro e _
    exact ⟨e, .inr rfl⟩

/-- A batch that could not be filled tells why. -/
theorem guards_pull (b : Batch τ) (count : Nat) :
    Guards (·.Retains p) (fun out => ∃ e, out = .error e ∨ ∃ b', out = .ok (.error e, b'))
      (b.pull count : TapeM τ (Except TapeError Unit × Batch τ)) := by
  induction count generalizing b with
  | zero => exact Guards.pure _
  | succ count ih =>
    apply guards_observing.bind
    · intro outcome
      cases outcome with
      | error e => exact Guards.pure _
      | ok x =>
        apply Guards.lift_bind
        intro b'
        exact ih b'
    · intro e _
      exact ⟨e, .inl rfl⟩
    · intro outcome h s
      obtain ⟨e, h | h⟩ := h
      · contradiction
      · cases h
        exact Loses.pure ⟨e, .inr ⟨b, rfl⟩⟩

theorem guards_fill (b : Batch τ) :
    Guards (·.Retains p) (fun out => ∃ e, out = .error e ∨ ∃ b', out = .ok (.error e, b'))
      (b.fill : TapeM τ (Except TapeError Nat × Batch τ)) := by
  apply Guards.get
  intro t _
  apply (b.guards_pull _).bind
  · intro pulled
    exact Guards.pure _
  · intro e _
    exact ⟨e, .inl rfl⟩
  · intro pulled h s
    obtain ⟨e, h | ⟨b', h⟩⟩ := h
    · contradiction
    · cases h
      exact Loses.pure ⟨e, .inr ⟨b', rfl⟩⟩

end Batch

namespace Source

variable [FixedWidth τ] {output : Tape τ} {p : Pledge τ}

structure Untouched (output : Tape τ) (p : Pledge τ) (s : Source π τ) : Prop where
  output_eq : s.output = output
  input : s.input.Retains p

omit [FixedWidth τ] in
theorem raises_onTarget {P : MergeError → Prop} {work : MergeM π τ α} (hwork : Raises P work) :
    Raises P (onTarget work : SourceM π τ α) := by
  intro s
  unfold onTarget
  simp only [run_bind, run_get, run_liftM, bind_assoc, pure_bind, run_modify]
  apply (hwork s.toTarget).bind
  intro out hout
  obtain ⟨e | a, target⟩ := out
  · exact Raises.throw (hout e rfl) _
  · exact Raises.pure a _

theorem guards_onTarget {lost : Except MergeError α → Prop} {work : MergeM π τ α}
    (hwork : Guards (fun target => target.output = output) lost work) :
    Guards (Untouched output p) lost (onTarget work : SourceM π τ α) := by
  intro s hs
  unfold onTarget
  simp only [run_bind, run_get, run_liftM, bind_assoc, pure_bind, run_modify]
  apply (hwork s.toTarget hs.output_eq).bind
  intro out hout
  obtain ⟨e | a, target⟩ := out
  · exact Loses.pure (hout.imp id fun h => ⟨h, hs.input⟩)
  · exact Loses.pure (hout.imp id fun h => ⟨h, hs.input⟩)

/-- A failure of the input is no shortage. -/
theorem guards_onInput {lost : Except TapeError α → Prop} {lost' : Except MergeError α → Prop}
    {work : TapeM τ α} (hwork : Guards (·.Retains p) lost work)
    (herror : ∀ e, lost' (.error (.tape e))) (hlost : ∀ a, lost (.ok a) → lost' (.ok a)) :
    Guards (Untouched output p) lost' (onInput work : SourceM π τ α) := by
  intro s hs
  unfold onInput
  simp only [run_bind, run_get, run_liftM, bind_assoc, pure_bind, run_modify]
  apply (hwork s.input hs.input).bind
  intro out hout
  obtain ⟨e | a, input⟩ := out
  · exact Loses.pure (.inl (herror e))
  · exact Loses.pure (hout.imp (hlost a) fun h => ⟨hs.output_eq, h⟩)

variable [CanonicalFixedWidth τ] [Strategy π τ]

omit [Strategy π τ] in
theorem guards_fill (batch : Batch τ) :
    Guards (Untouched output p) Broke (fill batch : SourceM π τ (Batch τ)) := by
  have hfill : Guards (Untouched output p)
      (fun out => Broke out ∨ ∃ e batch', out = .ok (.error e, batch'))
      (onInput batch.fill : SourceM π τ (Except TapeError Nat × Batch τ)) := by
    apply guards_onInput batch.guards_fill
    · exact fun e => .inl (broke_tape e)
    · intro filled h
      obtain ⟨e, h | ⟨batch', h⟩⟩ := h
      · contradiction
      · cases h
        exact .inr ⟨e, batch', rfl⟩
  apply hfill.bind
  · intro filled
    obtain ⟨e | _, batch'⟩ := filled
    · exact Guards.throw _
    · exact Guards.pure _
  · intro e h
    rcases h with ⟨e', h, hshort⟩ | ⟨_, _, h⟩
    · cases h
      exact ⟨e, rfl, hshort⟩
    · contradiction
  · intro filled h s
    rcases h with ⟨_, h, _⟩ | ⟨e, batch', h⟩
    · contradiction
    · cases h
      exact Loses.pure (broke_tape e)

/-- A run is arranged before anything is written. -/
theorem guards_arrange (batch : Batch τ) :
    Guards (Untouched output p) Broke (arrange batch : SourceM π τ (Batch τ)) := by
  apply Broke.bind (guards_fill _)
  · intro batch
    have harrange : Guards (fun target => target.output = output) (fun _ => False)
        (Target.onStrategy (Strategy.arrange batch.items) : MergeM π τ (Array τ)) :=
      Merger.guards_onStrategy _
    apply (guards_onTarget harrange).bind_kept
    intro items
    exact Guards.pure _
  · exact fun e hshort => ⟨e, rfl, hshort⟩

end Source

namespace Merger

open Source

variable [FixedWidth τ] [CanonicalFixedWidth τ] [Strategy π τ] {output : Tape τ} {p : Pledge τ}

omit [CanonicalFixedWidth τ] [Strategy π τ] in
theorem guards_withBatch {capacity : Nat} {work : Batch τ → SourceM π τ α}
    (hwork : ∀ batch, Guards (Untouched output p) Sufficed (work batch)) :
    Guards (Untouched output p) Sufficed (withBatch capacity work) := by
  apply Guards.lift_bind
  intro batch
  apply (hwork batch).rethrow.bind
  · intro a
    apply Guards.lift_bind
    intro _
    exact Guards.pure a
  · exact fun _ h => h
  · intro a _ s
    rw [run_bind, run_liftM, bind_assoc]
    exact Loses.after fun _ => Loses.pure fun _ h => nomatch h

/-- In main memory the output is written last, and whatever is wrong with it is no shortage. -/
theorem guards_arrangeAll (records : Nat) :
    Guards (Untouched output p) Sufficed (arrangeAll records : SourceM π τ Stats) := by
  have hstore (batch : Batch τ) : Raises (fun e : MergeError => ¬e.IsShortage)
      (Source.onTarget (Target.onOutput do batch.store; Tape.flush) : SourceM π τ Unit) :=
    raises_onTarget (Target.raises_onOutput (fun _ => id) _)
  have hbatch (batch : Batch τ) : Guards (Untouched output p) Sufficed (do
      let batch ← Source.arrange batch
      Source.onTarget (Target.onOutput do batch.store; Tape.flush) : SourceM π τ Unit) := by
    apply Broke.bind (guards_arrange batch)
    · intro batch
      exact Guards.of_raises (hstore batch) fun _ h => h
    · exact fun _ => sufficed_error
  apply (guards_withBatch hbatch).bind
  · intro _
    exact Guards.pure _
  · exact fun e h => sufficed_error (h e rfl)
  · intro _ _ s
    exact Loses.pure fun _ h => nomatch h

/-- A run that could not be formed tells why. -/
theorem guards_formed (m : Merger) (batch : Batch τ) :
    Guards (Untouched output p)
      (fun out => ∃ e, ¬e.IsShortage ∧ (out = .error e ∨ out = .ok (.error e)))
      (formWithin.formed m batch : SourceM π τ (Except MergeError (Tape τ))) := by
  unfold formWithin.formed
  apply Guards.observe
  · apply Broke.bind (guards_arrange batch)
    · intro batch
      exact Guards.lift _
    · exact fun e hshort => ⟨e, hshort, .inl rfl⟩
  · intro e h
    obtain ⟨e', hshort, h | h⟩ := h
    · cases h
      exact ⟨e, hshort, .inr rfl⟩
    · contradiction

theorem guards_formWithin (m : Merger) (batch : Batch τ) (runs : List (Tape τ)) (count : Nat) :
    Guards (Untouched output p)
      (fun out => ∃ e, ¬e.IsShortage ∧ (out = .error e ∨ ∃ runs, out = .ok (.error e, runs)))
      (m.formWithin batch runs count :
        SourceM π τ (Except MergeError Unit × List (Tape τ))) := by
  induction count generalizing runs with
  | zero => exact Guards.pure _
  | succ count ih =>
    apply Guards.get
    intro s _
    split
    · exact Guards.pure _
    · apply (m.guards_formed batch).bind
      · intro formed
        cases formed with
        | error e => exact Guards.pure _
        | ok run => exact ih _
      · intro e h
        obtain ⟨e', hshort, h | h⟩ := h
        · cases h
          exact ⟨e, hshort, .inl rfl⟩
        · contradiction
      · intro formed h s
        obtain ⟨e, hshort, h | h⟩ := h
        · contradiction
        · cases h
          exact Loses.pure ⟨e, hshort, .inr ⟨runs, rfl⟩⟩

theorem guards_distribute (m : Merger) (capacity : Nat) :
    Guards (Untouched output p) Broke
      (m.distribute capacity : SourceM π τ (List (Tape τ))) := by
  apply Guards.lift_bind
  intro batch
  apply Guards.get
  intro s _
  apply (m.guards_formWithin batch [] _).bind
  · intro formed
    obtain ⟨outcome, runs⟩ := formed
    apply Guards.lift_bind
    intro _
    cases outcome with
    | error e =>
      apply Guards.lift_bind
      intro _
      exact Guards.throw e
    | ok _ =>
      have hrelease : Guards (Untouched output p) Broke
          (Source.onInput Tape.releaseBlock : SourceM π τ Unit) :=
        guards_onInput Tape.guards_releaseBlock broke_tape fun _ ⟨_, h⟩ => nomatch h
      apply Broke.bind hrelease.rethrow
      · intro _
        exact Guards.pure runs
      · exact fun e hshort => ⟨e, rfl, hshort⟩
  · intro e h
    obtain ⟨e', hshort, h | ⟨_, h⟩⟩ := h
    · cases h
      exact ⟨e, rfl, hshort⟩
    · contradiction
  · intro formed h s
    obtain ⟨e, hshort, h | ⟨runs, h⟩⟩ := h
    · contradiction
    · cases h
      simp only [run_bind, run_liftM, bind_assoc, pure_bind]
      exact Loses.after fun _ => Loses.after fun _ => Loses.pure ⟨e, rfl, hshort⟩

/-- Processing that runs short leaves the output as it was and the records of the input. -/
theorem guards_process (m : Merger) (hstrategy : Strategy.Candid π τ) :
    Guards (Untouched output p) Sufficed (m.process : SourceM π τ Stats) := by
  have hseek : Guards (Untouched output p) Broke
      (Source.onInput (Tape.seek 0) : SourceM π τ Unit) :=
    guards_onInput (Tape.guards_seek 0) broke_tape fun _ ⟨_, h⟩ => nomatch h
  unfold process
  apply Broke.bind hseek _ fun _ => sufficed_error
  intro _
  apply Guards.get
  intro s _
  apply Guards.lift_bind
  intro capacity
  cases capacity with
  | error e => exact Guards.throw e
  | ok capacity =>
    simp only
    split
    · apply Guards.lift_bind
      intro _
      exact guards_arrangeAll _
    · apply Guards.lift_bind
      intro _
      apply Broke.bind (m.guards_distribute capacity) _ fun _ => sufficed_error
      intro runs
      apply Guards.lift_bind
      intro _
      exact guards_onTarget (m.guards_merge hstrategy runs)

end Merger

section Candid

theorem Ordered.raises_discard {P : MergeError → Prop} :
    Raises P (discard : StrategyM (Ordered τ) Unit) := by
  unfold discard
  apply Raises.get.bind
  intro p
  apply (Raises.modify _).bind
  intro _
  split
  · exact Raises.pure _
  · exact Raises.lift _

theorem Ordered.candid [FixedWidth τ] : Strategy.Candid (Ordered τ) τ where
  prepare inputs := by
    change Raises _ (Ordered.prepare inputs)
    unfold prepare
    split
    · exact Raises.throw id
    · apply raises_discard.bind
      intro _
      apply (Raises.lift _).bind
      intro s
      apply Raises.get.bind
      intro p
      apply (Raises.lift _).bind
      intro s
      exact Raises.modify _
  operate inputs taken := by
    change Raises _ (Ordered.operate inputs taken)
    unfold operate
    apply Raises.get.bind
    intro p
    split
    · exact Raises.throw id
    · apply (Raises.lift _).bind
      intro s
      split
      · apply (Raises.lift _).bind
        intro taken
        exact (Raises.set _).bind fun _ => Raises.pure _
      · apply (Raises.set _).bind
        intro _
        exact (Raises.lift _).bind fun _ => Raises.pure _

theorem Interleave.raises_discard {γ : Type} {P : MergeError → Prop} :
    Raises P (discard : StrategyM (Interleave γ) Unit) := by
  unfold discard
  apply Raises.get.bind
  intro p
  apply (Raises.modify _).bind
  intro _
  split
  · exact Raises.pure _
  · exact Raises.lift _

theorem Interleave.candid {γ : Type} [WordSource γ] : Strategy.Candid (Interleave γ) τ where
  prepare inputs := by
    change Raises _ (Interleave.prepare inputs)
    unfold prepare
    split
    · exact Raises.throw id
    · apply (Raises.modify _).bind
      intro _
      apply raises_discard.bind
      intro _
      apply (Raises.lift _).bind
      intro s
      apply Raises.get.bind
      intro p
      apply (Raises.lift _).bind
      intro entered
      exact Raises.modify _
  operate inputs taken := by
    change Raises _ (Interleave.operate inputs taken)
    unfold operate
    apply Raises.get.bind
    intro p
    apply (Raises.lift _).bind
    intro _
    split
    · exact Raises.throw id
    · apply (Raises.lift _).bind
      intro seen
      split
      · apply (Raises.set _).bind
        intro _
        apply (Raises.lift _).bind
        intro _
        exact (Raises.lift _).bind fun _ => Raises.pure _
      · apply (Raises.lift _).bind
        intro x
        split
        · exact (Raises.set _).bind fun _ => Raises.pure _
        · apply (Raises.lift _).bind
          intro entered
          apply (Raises.lift _).bind
          intro taken
          exact (Raises.set _).bind fun _ => Raises.pure _

theorem FirstPending.candid : Strategy.Candid (FirstPending τ) τ where
  prepare _ := Raises.modify _
  operate inputs taken := by
    change Raises _ (FirstPending.operate inputs taken)
    unfold operate
    apply Raises.get.bind
    intro p
    split
    · exact Raises.pure _
    · split
      · exact Raises.pure _
      · apply (Raises.set _).bind
        intro _
        split
        · exact (Raises.lift _).bind fun _ => Raises.pure _
        · exact (Raises.lift _).bind fun _ => Raises.pure _
        · exact (Raises.lift _).bind fun _ => Raises.pure _

end Candid

section Transfer

variable [FixedWidth τ] {p : Pledge τ}

/-- If something was missing, the output is as it was, and the input has as many records as before
and the ones that were pledged. -/
def LeavesAlone (input output : Tape τ) (p : Pledge τ) (outcome : Except MergeError α)
    (input' output' : Tape τ) : Prop :=
  ∀ e, outcome = .error e → e.IsShortage →
    output' = output ∧ input'.size = input.size ∧ input'.Retains p

theorem Source.Untouched.leavesAlone {input output : Tape τ} {outcome : Except MergeError α}
    {s : Source π τ} (hinput : input.Honours p) (h : Sufficed outcome ∨ s.Untouched output p) :
    LeavesAlone input output p outcome s.input s.output := by
  intro e herror hshort
  rcases h with hsufficed | ⟨houtput, q, hq, hsize, hrecord⟩
  · exact absurd hshort (hsufficed e herror)
  · refine ⟨houtput, ?_, q, hq, hsize, hrecord⟩
    rw [Tape.Secures.size_eq hq, hsize, hinput.size_eq]

namespace Merger

variable [CanonicalFixedWidth τ]

theorem loses_processWith [Strategy π τ] (m : Merger) (hstrategy : Strategy.Candid π τ)
    (strategy : π) (t : Transfer τ) (hinput : t.input.Honours p) :
    Loses (m.processWith strategy t : SiteM (Except MergeError Stats × Transfer τ)) fun out =>
      LeavesAlone t.input t.output p out.1 out.2.input out.2.output := by
  unfold processWith
  simp only [run_bind, run_get, run_liftM, bind_assoc, pure_bind, run_set]
  have hstart : Source.Untouched t.output p
      { input := t.input, output := t.output, strategy : Source π τ } :=
    ⟨rfl, p, hinput, rfl, rfl⟩
  apply (m.guards_process hstrategy _ hstart).bind
  intro out hout
  have halone := Source.Untouched.leavesAlone hinput hout
  obtain ⟨e | stats, s⟩ := out
  · exact Loses.after fun _ => Loses.pure halone
  · exact Loses.after fun _ => Loses.pure halone

/-- Processing that fails for a shortage leaves the data alone. Whatever the storage refuses, and
however many runs were formed and passes were done: if the merge turns out to be short of memory or
scratch files, or has no way to arrange a run, then the output is what it was, with its cursor, and
the input has the records that it had. This holds of every strategy that does not claim such a
shortage itself when it is prepared or operated, and so of sorting and of shuffling. -/
theorem shortage_leaves_data (m : Merger) (site : Site) (input output : Tape τ)
    (hinput : input.Honours p) :
    (∀ {π : Type} [Strategy π τ] (strategy : π), Strategy.Candid π τ →
      ((m.process : SourceM π τ Stats) { input, output, strategy } : SiteM _).Ensures site
        (fun out _ => LeavesAlone input output p out.1 out.2.input out.2.output)
        (fun _ _ => True) ∧
      (m.processWith strategy { input, output } : SiteM _).Ensures site
        (fun out _ => LeavesAlone input output p out.1 out.2.input out.2.output)
        (fun _ _ => True)) ∧
    (∀ (cmp : τ → τ → Ordering) (handleSize : Nat) (pivots : Nat → Sorting.PivotChoice),
      (m.sortBy cmp handleSize pivots { input, output } : SiteM _).Ensures site
        (fun out _ => LeavesAlone input output p out.1 out.2.input out.2.output)
        (fun _ _ => True)) ∧
    ∀ {γ : Type} [WordSource γ] (source : γ),
      (m.shuffle source { input, output } : SiteM _).Ensures site
        (fun out _ => LeavesAlone input output p out.1 out.2.input out.2.output)
        (fun _ _ => True) := by
  refine ⟨?_, ?_, ?_⟩
  · intro π _ strategy hstrategy
    have hstart : Source.Untouched output p { input, output, strategy : Source π τ } :=
      ⟨rfl, p, hinput, rfl, rfl⟩
    constructor
    · exact (m.guards_process hstrategy _ hstart).mono
        (fun _ h => Source.Untouched.leavesAlone hinput h) site
    · exact m.loses_processWith hstrategy strategy ⟨input, output⟩ hinput site
  · intro cmp handleSize pivots
    exact m.loses_processWith Ordered.candid _ ⟨input, output⟩ hinput site
  · intro γ _ source
    exact m.loses_processWith Interleave.candid _ ⟨input, output⟩ hinput site

end Merger

end Transfer

section Bytes

def fourBytes : Transfer Byte where
  input := {
    Tape.ofDisk (Disk.ofBytes (FixedWidth.encodeAll ([7#8, 1#8, 2#8, 9#8] : List Byte))) none 2 with
    offset := 3 }
  output := {
    Tape.ofDisk (Disk.ofBytes (FixedWidth.encodeAll ([5#8, 6#8] : List Byte))) none 2 with
    offset := 1 }

/-- Memory for two bytes in a run, and scratch space for one file. -/
def oneFile : Site where
  ledger := { limit := 330, policy := .warn }
  scratch := { supply := fun n => if n = 0 then .ok {} else .error .noSpace }

/-- The first run is formed, and there is no room for the second one. -/
theorem shortage_leaves_data_bytes :
    ∃ outcome t after, (Merger.sortBy { blockSize := 2 } (compareOn fun x : Byte => x.toNat) 80
        (fun _ => Sorting.middlePivot) fourBytes : SiteM _) oneFile =
          (.ok (outcome, t), after) ∧
      outcome = .error (.scratch .noSpace) ∧ t.output = fourBytes.output ∧
      t.input.Retains (Pledge.ofRecords ([7#8, 1#8, 2#8, 9#8] : List Byte)) := by
  have hinput : fourBytes.input.Honours
      ((Pledge.ofRecords ([7#8, 1#8, 2#8, 9#8] : List Byte)).move 3) :=
    (Tape.honours_ofDisk width_byte_pos {} _ none 2).move 3 (by decide)
  have halone := (Merger.shortage_leaves_data { blockSize := 2 } oneFile fourBytes.input
    fourBytes.output hinput).2.1 (compareOn fun x : Byte => x.toNat) 80
    fun _ => Sorting.middlePivot
  have hfails : (((Merger.sortBy { blockSize := 2 } (compareOn fun x : Byte => x.toNat) 80
      (fun _ => Sorting.middlePivot) fourBytes : SiteM _) oneFile : Except Halt _ × Site).1.map
        fun out => out.1) = .ok (.error (.scratch .noSpace)) := by
    decide +kernel
  cases hrun : ((Merger.sortBy { blockSize := 2 } (compareOn fun x : Byte => x.toNat) 80
      (fun _ => Sorting.middlePivot) fourBytes : SiteM _) oneFile : Except Halt _ × Site) with
  | mk result after =>
    rw [hrun] at hfails
    rcases result with h | ⟨outcome, t⟩
    · contradiction
    · cases hfails
      obtain ⟨houtput, -, hretains⟩ := halone.of_run hrun _ rfl trivial
      exact ⟨_, t, after, rfl, rfl, houtput, hretains⟩

end Bytes

end BoundedMerge
