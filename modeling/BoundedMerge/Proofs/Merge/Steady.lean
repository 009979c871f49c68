import BoundedMerge.Merge.Passes
import BoundedMerge.Proofs.Strategy.Blind
import BoundedMerge.Proofs.Tape.Steady

/-!
A merge beside the same merge on disks that refuse nothing. A strategy knows of no disk, so it
decides the same, and wherever the first merge succeeds the second comes to the same result and
writes the same.
-/

namespace BoundedMerge

open SiteM

variable {α β π τ : Type}

namespace Target

def steady (t : Target π τ) : Target π τ := { t with output := t.output.steady }

theorem echoes_onOutput {work : TapeM τ α} (h : Tape.Echoes work) :
    Work.Echoes steady id (onOutput work : MergeM π τ α) (onOutput work) := by
  intro t
  unfold onOutput
  simp only [Work.run_bind, Work.run_get, Work.run_liftM, Work.run_modify, bind_assoc, pure_bind]
  apply Work.Echoes.run h t.output
  · intro e output
    exact Loses.pure ⟨_, rfl⟩
  · intro a output
    exact SiteM.Echoes.pure ⟨a, rfl, rfl⟩

theorem echoes_onStrategy {g : α → β} {work : StrategyM π α} {twin : StrategyM π β}
    (h : Work.Echoes id g work twin) :
    Work.Echoes steady g (onStrategy work : MergeM π τ α) (onStrategy twin) := by
  intro t
  unfold onStrategy
  simp only [Work.run_bind, Work.run_get, Work.run_liftM, Work.run_modify, bind_assoc, pure_bind]
  apply h.run t.strategy
  · intro e strategy
    exact Loses.pure ⟨_, rfl⟩
  · intro a strategy
    exact SiteM.Echoes.pure ⟨a, rfl, rfl⟩

end Target

namespace Bench

def steady (b : Bench π τ) : Bench π τ where
  toTarget := b.toTarget.steady
  inputs := b.inputs.map Tape.steady

theorem steady_mk (target : Target π τ) (tapes : List (Tape τ)) :
    steady { target with inputs := tapes.toArray } =
      { target.steady with inputs := (tapes.map Tape.steady).toArray } := by
  simp only [steady, List.map_toArray]

theorem echoes_onTarget {g : α → β} {work : MergeM π τ α} {twin : MergeM π τ β}
    (h : Work.Echoes Target.steady g work twin) :
    Work.Echoes steady g (onTarget work : BenchM π τ α) (onTarget twin) := by
  intro b
  unfold onTarget
  simp only [Work.run_bind, Work.run_get, Work.run_liftM, Work.run_modify, bind_assoc, pure_bind]
  apply h.run b.toTarget
  · intro e target
    exact Loses.pure ⟨_, rfl⟩
  · intro a target
    exact SiteM.Echoes.pure ⟨a, rfl, rfl⟩

theorem echoes_onInput {work : TapeM τ α} (h : Tape.Echoes work) (index : Nat) :
    Work.Echoes steady id (onInput index work : BenchM π τ α) (onInput index work) := by
  intro b
  unfold onInput
  simp only [Work.run_bind, Work.run_get, Work.run_liftM, Work.run_modify, bind_assoc, pure_bind]
  have hinput : b.steady.inputs[index]? = b.inputs[index]?.map Tape.steady := Array.getElem?_map
  rw [hinput]
  cases b.inputs[index]? with
  | none => exact SiteM.Echoes.halt _ _
  | some tape =>
    apply Work.Echoes.run h tape
    · intro e tape'
      exact Loses.pure ⟨_, rfl⟩
    · intro a tape'
      apply SiteM.Echoes.pure
      refine ⟨a, rfl, ?_⟩
      simp only [steady, Array.map_setIfInBounds]

variable [FixedWidth τ]

theorem echoes_readFirsts (index count : Nat) :
    Work.Echoes steady id (readFirsts index count : BenchM π τ (List (Option τ)))
      (readFirsts index count) := by
  induction count generalizing index with
  | zero => exact Work.Echoes.pure []
  | succ count ih =>
    rw [readFirsts]
    apply (echoes_onInput Tape.echoes_next? index).bind
    intro x
    exact (ih (index + 1)).bind fun xs => Work.Echoes.pure (x :: xs)

theorem echoes_advance (pending : List (Option τ)) (indices : List Nat) :
    Work.Echoes steady id (advance pending indices : BenchM π τ (List (Option τ) × Nat))
      (advance pending indices) := by
  induction indices generalizing pending with
  | nil => exact Work.Echoes.pure (pending, 0)
  | cons index indices ih =>
    rw [advance]
    apply (echoes_onInput Tape.echoes_next? index).bind
    intro x
    exact (ih _).bind fun moved => Work.Echoes.pure (moved.1, _ + moved.2)

theorem echoes_releaseInputs (indices : List Nat) :
    Work.Echoes steady id (releaseInputs indices : BenchM π τ Unit) (releaseInputs indices) := by
  induction indices with
  | nil => exact Work.Echoes.pure ()
  | cons index indices ih =>
    rw [releaseInputs]
    exact (echoes_onInput Tape.echoes_releaseBlock index).bind fun _ => ih

variable [Strategy π τ]

theorem echoes_follow (hblind : Strategy.Blind π τ) (stats : Stats) (pending : List (Option τ))
    (steps : Nat) : Work.Echoes steady id (follow stats pending steps : BenchM π τ Stats)
      (follow stats pending steps) := by
  induction steps generalizing stats pending with
  | zero => exact Work.Echoes.blind (Blind.halt _)
  | succ steps ih =>
    rw [follow]
    have hoperate := Work.Echoes.of_blind
      (hblind.operate pending (Taken.none pending.length))
    apply (echoes_onTarget (Target.echoes_onStrategy hoperate)).bind
    intro decided
    obtain ⟨step, taken⟩ := decided
    cases step with
    | done =>
      simp only [id]
      split
      · exact Work.Echoes.throw _ _
      · exact Work.Echoes.pure stats
    | skip =>
      apply (echoes_advance pending taken.indices).bind
      intro moved
      exact ih _ moved.1
    | emit x =>
      apply (echoes_onTarget (Target.echoes_onOutput (Tape.echoes_write x))).bind
      intro _
      apply (echoes_advance pending taken.indices).bind
      intro moved
      exact ih _ moved.1

omit [FixedWidth τ] in
theorem stepLimit_steady (b : Bench π τ) : b.steady.stepLimit = b.stepLimit := by
  simp only [stepLimit, steady, Array.toList_map, List.map_map]
  rfl

theorem echoes_mergePass (hblind : Strategy.Blind π τ) :
    Work.Echoes steady id (mergePass : BenchM π τ Stats) mergePass := by
  apply Work.Echoes.get
  intro b
  have hsize : b.steady.inputs.size = b.inputs.size := Array.size_map
  rw [hsize, b.stepLimit_steady]
  simp only
  split
  · exact Work.Echoes.throw _ _
  · apply (echoes_readFirsts 0 b.inputs.size).bind
    intro pending
    apply (echoes_onTarget (Target.echoes_onStrategy
      (Work.Echoes.of_blind (hblind.prepare pending)))).bind
    intro _
    apply (echoes_follow hblind _ pending b.stepLimit).bind
    intro stats
    apply (echoes_releaseInputs _).bind
    intro _
    apply (echoes_onTarget (Target.echoes_onOutput Tape.echoes_flush)).bind
    intro _
    exact Work.Echoes.pure stats

end Bench

namespace Merger

variable [FixedWidth τ]

theorem echoes_closeAll (tapes : List (Tape τ)) :
    SiteM.Echoes (closeAll tapes) (closeAll (tapes.map Tape.steady)) (fun _ => False)
      fun _ _ => True := by
  induction tapes with
  | nil => exact SiteM.Echoes.pure trivial
  | cons tape tapes ih =>
    rw [List.map_cons, closeAll, closeAll]
    exact tape.echoes_close.bind' fun _ _ _ => ih

theorem echoes_releaseAll (tapes : List (Tape τ)) :
    SiteM.Echoes (releaseAll tapes) (releaseAll (tapes.map Tape.steady)) Work.Failed
      fun out out' => out.1 = .ok () ∧ out' = (.ok (), out.2.map Tape.steady) := by
  induction tapes with
  | nil => exact SiteM.Echoes.pure ⟨rfl, rfl⟩
  | cons tape tapes ih =>
    rw [List.map_cons, releaseAll, releaseAll]
    apply Work.Echoes.run Tape.echoes_releaseBlock tape
    · intro e tape'
      exact Loses.pure ⟨e, rfl⟩
    · intro _ tape'
      apply ih.bind
      · intro out hfailed
        exact Loses.pure hfailed
      · intro out out' hrel
        obtain ⟨_, tapes'⟩ := out
        obtain ⟨rfl, rfl⟩ := hrel
        exact SiteM.Echoes.pure ⟨rfl, rfl⟩

theorem echoes_newTape (m : Merger) :
    SiteM.Echoes (m.newTape τ) (m.newTape τ) (fun made => ∃ e, made = .error e)
      (fun made made' => ∃ t, made = .ok t ∧ made' = .ok t.steady) := by
  apply (Tape.echoes_temporary m.blockSize).bind
  · intro made hlost
    obtain ⟨e, rfl⟩ := hlost
    cases e <;> exact Loses.pure ⟨_, rfl⟩
  · intro made made' hmade
    obtain ⟨t, rfl, rfl⟩ := hmade
    exact SiteM.Echoes.pure ⟨t, rfl, rfl⟩

omit [FixedWidth τ] in
theorem blind_orCount (plan : Except MergeError Nat) : SiteM.Blind (orCount plan) := by
  unfold orCount
  split
  · exact Blind.bind (Blind.count _) fun _ => Blind.pure
  · exact Blind.pure

theorem blind_measure (blockSize : Nat) : SiteM.Blind (Tape.measure τ blockSize) := by
  have hcount : SiteM.Blind (do
      Site.count (Tape.memoryUsage τ blockSize)
      return Tape.memoryUsage τ blockSize) :=
    Blind.bind (Blind.count _) fun _ => Blind.pure
  exact Blind.ite (Blind.bind (Blind.halt _) fun _ => hcount) hcount

omit [FixedWidth τ] in
/-- A plan depends on no more of the site than the memory that is available. -/
theorem blind_plan (plan : Nat → Except MergeError Nat) :
    SiteM.Blind (do orCount (plan (← get).ledger.available)) := by
  apply SiteM.Echoes.get
  intro site site' htwin
  rw [htwin.ledger]
  exact blind_orCount _

variable [Strategy π τ]

theorem blind_arity (m : Merger) (p : π) (runs : Nat) : SiteM.Blind (m.arity τ p runs) :=
  (blind_measure m.blockSize).bind fun _ => Blind.bind (Blind.count _) fun _ =>
    blind_plan fun available => Plan.arity available _ _ runs

theorem blind_capacity (m : Merger) (p : π) : SiteM.Blind (m.capacity τ p) :=
  (blind_measure m.blockSize).bind fun _ => Blind.bind (Blind.count _) fun _ =>
    blind_plan fun available => Plan.capacity available _ _

theorem echoes_pass (hblind : Strategy.Blind π τ) :
    Work.Echoes Bench.steady id (mergeGroup.pass : BenchM π τ Stats) mergeGroup.pass := by
  apply (Bench.echoes_mergePass hblind).bind
  intro stats
  have hrewind : Tape.Echoes (do Tape.seek 0; Tape.releaseBlock : TapeM τ Unit) :=
    (Tape.echoes_seek 0).bind fun _ => Tape.echoes_releaseBlock
  apply (Bench.echoes_onTarget (Target.echoes_onOutput hrewind)).bind
  intro _
  exact Work.Echoes.pure stats

/-- The run that a group becomes is the one that the steady group becomes. -/
theorem echoes_mergeGroup (m : Merger) (hblind : Strategy.Blind π τ) (group : List (Tape τ)) :
    Work.Echoes id (Prod.map id Tape.steady) (m.mergeGroup group : StrategyM π (Stats × Tape τ))
      (m.mergeGroup (group.map Tape.steady)) := by
  intro p
  unfold mergeGroup
  simp only [Work.run_bind, Work.run_liftM, bind_assoc, pure_bind]
  apply m.echoes_newTape.bind
  · intro made hlost
    obtain ⟨e, rfl⟩ := hlost
    exact Work.Fails.after (fun _ => Work.Fails.throw e) p
  · intro made made' hmade
    obtain ⟨output, rfl, rfl⟩ := hmade
    simp only [Work.run_bind, Work.run_get, Work.run_set, Work.run_liftM, bind_assoc, pure_bind]
    have hsteady := Bench.steady_mk { output, strategy := p } group
    simp only [Target.steady] at hsteady
    simp only [id, ← hsteady]
    apply (echoes_pass hblind).run { output, strategy := p, inputs := group.toArray }
    · intro e b
      exact Work.Fails.after (fun _ => Work.Fails.after fun _ => Work.Fails.throw e) b.strategy
    · intro stats b
      have hclose := echoes_closeAll b.inputs.toList
      rw [← Array.toList_map] at hclose
      simp only [Work.run_bind, Work.run_liftM, bind_assoc, pure_bind]
      apply hclose.bind'
      intro _ _ _
      exact SiteM.Echoes.pure ⟨(stats, b.output), rfl, rfl⟩

theorem echoes_mergeGroups (m : Merger) (hblind : Strategy.Blind π τ) (merged : List (Tape τ))
    (groups : List (List (Tape τ))) :
    Work.Echoes id (Prod.map id (List.map Tape.steady))
      (m.mergeGroups merged groups : StrategyM π (Stats × List (Tape τ)))
      (m.mergeGroups (merged.map Tape.steady) (groups.map (List.map Tape.steady))) := by
  induction groups generalizing merged with
  | nil => exact Work.Echoes.pure (({} : Stats), merged)
  | cons group groups ih =>
    have hrest (run : Tape τ) := ih (merged ++ [run])
    simp only [List.map_append, List.map_cons, List.map_nil] at hrest
    by_cases hone : ∃ run, group = [run]
    · obtain ⟨run, rfl⟩ := hone
      rw [List.map_cons, List.map_cons, List.map_nil, mergeGroups, mergeGroups]
      exact hrest run
    · rw [List.map_cons, mergeGroups, mergeGroups]
      rotate_left
      · intro run hrun
        apply hone
        obtain ⟨run', rfl, -⟩ := List.map_eq_singleton_iff.mp hrun
        exact ⟨run', rfl⟩
      · intro run hrun
        exact hone ⟨run, hrun⟩
      apply Work.Echoes.bind
      · apply Work.Echoes.rethrow (m.echoes_mergeGroup hblind group)
        intro e
        exact Work.Fails.after fun _ => Work.Fails.after fun _ => Work.Fails.throw e
      · intro joined
        apply (hrest joined.2).bind
        intro rest
        exact Work.Echoes.pure (joined.1.add rest.1, rest.2)

theorem echoes_mergeLast (hblind : Strategy.Blind π τ) (runs : List (Tape τ)) :
    Work.Echoes Target.steady id (mergeLast runs : MergeM π τ Stats)
      (mergeLast (runs.map Tape.steady)) := by
  intro target
  unfold mergeLast
  simp only [Work.run_bind, Work.run_get, Work.run_set, Work.run_liftM, bind_assoc, pure_bind]
  rw [← Bench.steady_mk]
  apply (Bench.echoes_mergePass hblind).run { target with inputs := runs.toArray }
  · intro e b
    exact Loses.after fun _ => Loses.pure ⟨e, rfl⟩
  · intro stats b
    have hclose := echoes_closeAll b.inputs.toList
    rw [← Array.toList_map] at hclose
    apply hclose.bind'
    intro _ _ _
    exact SiteM.Echoes.pure ⟨stats, rfl, rfl⟩

theorem groupsOf_map (f : α → β) (size : Nat) (xs : List α) :
    groupsOf size (xs.map f) = (groupsOf size xs).map (List.map f) := by
  induction xs using groupsOf.induct size with
  | case1 => simp only [List.map_nil, groupsOf]
  | case2 x xs ih =>
    rw [List.map_cons, groupsOf, groupsOf, List.map_cons, List.map_cons, ← ih, List.map_take,
      List.map_drop]

theorem echoes_mergeWithin (m : Merger) (hblind : Strategy.Blind π τ) (stats : Stats)
    (runs : List (Tape τ)) (passes : Nat) :
    Work.Echoes Target.steady id (m.mergeWithin stats runs passes : MergeM π τ Stats)
      (m.mergeWithin stats (runs.map Tape.steady) passes) := by
  induction passes generalizing stats runs with
  | zero => exact Work.Echoes.blind (Blind.halt _)
  | succ passes ih =>
    rw [mergeWithin, mergeWithin, List.length_map]
    apply Work.Echoes.get
    intro target
    have hstrategy : target.steady.strategy = target.strategy := rfl
    rw [hstrategy]
    apply (Work.Echoes.blind (m.blind_arity target.strategy runs.length)).bind
    intro plan
    cases plan with
    | error e =>
      intro target'
      exact SiteM.Echoes.of_loses (Work.Fails.after (fun _ => Work.Fails.throw e) target')
    | ok arity =>
      simp only [id]
      split
      · apply (Work.Echoes.blind (Blind.report _)).bind
        intro _
        exact (echoes_mergeLast hblind runs).bind fun last => Work.Echoes.pure (stats.add last)
      · apply (Work.Echoes.blind (Blind.report _)).bind
        intro _
        rw [groupsOf_map]
        have hgroups := m.echoes_mergeGroups hblind [] (groupsOf arity runs)
        apply (Target.echoes_onStrategy hgroups).bind
        intro merged
        exact ih _ merged.2

/-- A merge that succeeds goes as the one where the disks refuse nothing. -/
theorem echoes_merge (m : Merger) (hblind : Strategy.Blind π τ) (runs : List (Tape τ)) :
    Work.Echoes Target.steady id (m.merge runs : MergeM π τ Stats)
      (m.merge (runs.map Tape.steady)) := by
  unfold merge
  have hempty : (runs.map Tape.steady).isEmpty = runs.isEmpty := List.isEmpty_map
  rw [hempty]
  split
  · exact Work.Echoes.pure ({} : Stats)
  · intro target
    simp only [Work.run_bind, Work.run_liftM, bind_assoc, pure_bind]
    apply (echoes_releaseAll runs).bind
    · intro out hfailed
      obtain ⟨_, runs'⟩ := out
      obtain ⟨e, rfl⟩ := hfailed
      exact Work.Fails.after (fun _ => Work.Fails.throw _) target
    · intro out out' hrel
      obtain ⟨_, runs'⟩ := out
      obtain ⟨rfl, rfl⟩ := hrel
      simp only [List.length_map]
      exact m.echoes_mergeWithin hblind _ runs' runs'.length target

end Merger

end BoundedMerge
