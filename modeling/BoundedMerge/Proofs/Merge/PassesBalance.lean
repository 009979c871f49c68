import BoundedMerge.Proofs.Merge.Balance

/-!
The memory of a merge. The runs that a merge takes over are closed when it ends, those that it
made on the way too, at whatever point it fails. So what remains is held by the output and the
strategy.
-/

namespace BoundedMerge

open SiteM Holder

variable {π τ : Type} [FixedWidth τ] [Holder π]

namespace Merger

section Tapes

variable {before : Nat}

theorem settles_closeAll {tapes : List (Tape τ)} (h : Paid tapes) :
    Settles (held tapes) (closeAll tapes) (fun _ => True) fun _ => 0 := by
  induction tapes with
  | nil => exact Settles.pure trivial rfl
  | cons tape tapes ih =>
    obtain ⟨htape, htapes⟩ := paid_cons.mp h
    exact ((Tape.settles_close htape).beside (held tapes)).bind fun _ _ => ih htapes

theorem settles_releaseAll {tapes : List (Tape τ)} (h : Paid tapes) :
    Settles (held tapes) (releaseAll tapes) (fun out => Paid out.2) fun out => held out.2 := by
  induction tapes with
  | nil => exact Settles.pure paid_nil rfl
  | cons tape tapes ih =>
    obtain ⟨htape, htapes⟩ := paid_cons.mp h
    rw [held_cons, Nat.add_comm]
    have hrelease := (Tape.balances_releaseBlock.settles htape).frame (held tapes)
    refine hrelease.bind fun out hout => ?_
    obtain ⟨outcome, tape'⟩ := out
    cases outcome with
    | error e => exact Settles.pure (paid_cons.mpr ⟨hout, htapes⟩) (Nat.add_comm _ _)
    | ok _ =>
      simp only [Nat.add_comm (held tapes)]
      exact ((ih htapes).frame (held tape')).bind fun rest hrest =>
        Settles.pure (paid_cons.mpr ⟨hout, hrest⟩) rfl

theorem settles_newTape (m : Merger) :
    Settles before (m.newTape τ) (fun out => ∀ tape, out = .ok tape → tape.block = none)
      fun _ => before := by
  unfold newTape
  refine ((Tape.settles_temporary _).frame before).bind fun out hout => ?_
  cases out with
  | ok tape =>
    refine Settles.pure ?_ rfl
    intro tape' htape'
    obtain rfl := Except.ok.inj htape'
    exact hout tape rfl
  | error e =>
    cases e with
    | disk e => exact Settles.pure (by simp) rfl
    | _ => exact Settles.pure (by simp) rfl

theorem settles_measure (blockSize : Nat) :
    Settles before (Tape.measure τ blockSize) (fun _ => True) fun _ => before := by
  unfold Tape.measure
  simp only
  split
  · exact Settles.halt_bind _
  · exact (Settles.count _).bind fun _ _ => Settles.pure trivial rfl

theorem settles_orCount (plan : Except MergeError Nat) :
    Settles before (orCount plan) (fun _ => True) fun _ => before := by
  unfold orCount
  split
  · exact (Settles.count _).bind fun _ _ => Settles.pure trivial rfl
  · exact Settles.pure trivial rfl

variable [Strategy π τ]

omit [Holder π] in
theorem settles_arity (m : Merger) (p : π) (runs : Nat) :
    Settles before (m.arity τ p runs) (fun _ => True) fun _ => before := by
  unfold arity
  exact (settles_measure _).bind fun _ _ => (Settles.count _).bind fun _ _ =>
    Settles.get.bind fun _ _ => settles_orCount _

omit [Holder π] in
theorem settles_capacity (m : Merger) (p : π) :
    Settles before (m.capacity τ p) (fun _ => True) fun _ => before := by
  unfold capacity
  exact (settles_measure _).bind fun _ _ => (Settles.count _).bind fun _ _ =>
    Settles.get.bind fun _ _ => settles_orCount _

end Tapes

variable [Strategy π τ] [Strategy.Accountable π τ]

theorem balances_pass : Balances (mergeGroup.pass : BenchM π τ Stats) := by
  unfold mergeGroup.pass
  refine Bench.balances_mergePass.bind fun stats => ?_
  have hrewind : Balances (do Tape.seek 0; Tape.releaseBlock : TapeM τ Unit) :=
    (Tape.balances_seek 0).bind fun _ => Tape.balances_releaseBlock
  exact (Bench.balances_onTarget (Target.balances_onOutput hrewind)).bind
    fun _ => Balances.pure stats

/-- A group of runs is replaced by one run, or by none if the merge fails. -/
theorem trades_mergeGroup (m : Merger) {group : List (Tape τ)} (hgroup : Paid group) :
    Trades (held group) (m.mergeGroup group : StrategyM π (Stats × Tape τ))
      (Sure fun out => Paid out.2) (gain fun out => held out.2) := by
  intro p hp
  unfold mergeGroup
  simp only [Work.run_bind, Work.run_liftM, bind_assoc, pure_bind]
  refine m.settles_newTape.bind fun out hout => ?_
  cases out with
  | error e =>
    simp only [Work.run_bind, Work.run_liftM, Work.run_throw, bind_assoc, pure_bind]
    exact ((settles_closeAll hgroup).beside (held p)).bind fun _ _ =>
      Settles.pure ⟨trivial, hp⟩ (Nat.zero_add _).symm
  | ok output =>
    have hvacant := hout output rfl
    simp only [Work.run_bind, Work.run_get, Work.run_set, Work.run_liftM, bind_assoc, pure_bind]
    have hbench : Paid { output, strategy := p, inputs := group.toArray : Bench π τ } :=
      ⟨hgroup, Tape.paid_vacant hvacant, hp⟩
    have hheld : held { output, strategy := p, inputs := group.toArray : Bench π τ } =
        held group + held p := by
      change held group + (held output + held p) = _
      rw [Tape.held_vacant hvacant, Nat.zero_add]
    have hpass := balances_pass.settles hbench
    rw [hheld] at hpass
    refine hpass.bind fun out hout => ?_
    obtain ⟨outcome, b⟩ := out
    obtain ⟨hinputs, houtput, hstrategy⟩ : Paid b.inputs.toList ∧ Paid b.output ∧
      Paid b.strategy := hout
    have heven : held b = held b.inputs.toList + (held b.output + held b.strategy) := rfl
    cases outcome with
    | ok stats =>
      simp only [Work.run_bind, Work.run_liftM, bind_assoc, pure_bind]
      rw [heven]
      exact ((settles_closeAll hinputs).beside (held b.output + held b.strategy)).bind
        fun _ _ => Settles.pure ⟨houtput, hstrategy⟩ rfl
    | error e =>
      simp only [Work.run_bind, Work.run_liftM, bind_assoc, pure_bind]
      have hclose : Settles (held b) b.output.close (fun _ => True)
          fun _ => held b.strategy + held b.inputs.toList :=
        (Tape.settles_close houtput).adapt (held b.strategy + held b.inputs.toList)
          (by rw [heven]; omega) fun _ _ => ⟨trivial, rfl⟩
      exact hclose.bind fun _ _ => ((settles_closeAll hinputs).frame (held b.strategy)).bind
        fun _ _ => Settles.pure ⟨trivial, hstrategy⟩ (Nat.zero_add _).symm

/-- Groups of runs are replaced by one run each, which come after those that were merged before. If
a group cannot be merged all runs are closed. -/
theorem trades_mergeGroups (m : Merger) {merged : List (Tape τ)} {groups : List (List (Tape τ))}
    (hmerged : Paid merged) (hgroups : Paid groups.flatten) :
    Trades (held merged + held groups.flatten)
      (m.mergeGroups merged groups : StrategyM π (Stats × List (Tape τ)))
      (Sure fun out => Paid out.2) (gain fun out => held out.2) := by
  induction groups generalizing merged with
  | nil => exact Trades.pure hmerged rfl
  | cons group groups ih =>
    rw [List.flatten_cons] at hgroups ⊢
    obtain ⟨hgroup, hlater⟩ := paid_append.mp hgroups
    rw [held_append]
    by_cases hone : ∃ run, group = [run]
    · obtain ⟨run, rfl⟩ := hone
      rw [mergeGroups]
      refine (ih (paid_append.mpr ⟨hmerged, hgroup⟩) hlater).adapt 0 ?_ fun out hout => ⟨hout, ?_⟩
      · rw [held_append]
        omega
      · rw [Nat.zero_add]
    · rw [mergeGroups]
      swap
      · exact fun run hrun => hone ⟨run, hrun⟩
      have hhandle (e : MergeError) : Trades (held merged + held groups.flatten)
          (do
            closeAll groups.flatten
            closeAll merged
            throw e : StrategyM π (Stats × Tape τ))
          (Sure fun out => Paid out.2) (gain fun out => held merged + held groups.flatten +
            held out.2) :=
        Trades.liftM_bind ((settles_closeAll hlater).frame (held merged)) fun _ _ =>
          Trades.liftM_bind (settles_closeAll hmerged) fun _ _ => Trades.throw trivial rfl
      have hjoin : Trades (held merged + (held group + held groups.flatten))
          (m.mergeGroup group : StrategyM π (Stats × Tape τ)) (Sure fun out => Paid out.2)
          fun out => held merged + held groups.flatten + gain (fun out => held out.2) out :=
        (m.trades_mergeGroup hgroup).adapt (held merged + held groups.flatten) (by omega)
          fun _ hout => ⟨hout, rfl⟩
      apply (hjoin.tryCatch (fun _ hout => ⟨hout, rfl⟩) fun e _ => hhandle e).bind
      · intro out hrun
        obtain ⟨stats, run⟩ := out
        have hadded : Paid (merged ++ [run]) :=
          paid_append.mpr ⟨hmerged, paid_cons.mpr ⟨hrun, paid_nil⟩⟩
        have hheld : held merged + held groups.flatten + held run =
            held (merged ++ [run]) + held groups.flatten := by
          rw [held_append, held_cons, held_nil]
          omega
        have hrest := ih hadded hlater
        rw [← hheld] at hrest
        apply hrest.bind
        · exact fun out hout => Trades.pure hout rfl
        · exact fun _ _ => ⟨trivial, rfl⟩
      · exact fun _ _ => ⟨trivial, rfl⟩

/-- The runs are closed when the last pass ends. -/
theorem trades_mergeLast {runs : List (Tape τ)} (hruns : Paid runs) :
    Trades (held runs) (mergeLast runs : MergeM π τ Stats) (fun _ => True) fun _ => 0 := by
  intro t ht
  unfold mergeLast
  simp only [Work.run_bind, Work.run_get, Work.run_set, Work.run_liftM, bind_assoc, pure_bind]
  have hbench : Paid { t with inputs := runs.toArray : Bench π τ } := ⟨hruns, ht⟩
  refine (Bench.balances_mergePass.settles hbench).bind fun out hout => ?_
  obtain ⟨outcome, b⟩ := out
  obtain ⟨hinputs, htarget⟩ : Paid b.inputs.toList ∧ Paid b.toTarget := hout
  refine ((settles_closeAll hinputs).beside (held b.toTarget)).bind fun _ _ => ?_
  cases outcome with
  | ok stats => exact Settles.pure ⟨trivial, htarget⟩ (Nat.zero_add _).symm
  | error e => exact Settles.pure ⟨trivial, htarget⟩ (Nat.zero_add _).symm

theorem trades_mergeWithin (m : Merger) (stats : Stats) {runs : List (Tape τ)} (hruns : Paid runs)
    (passes : Nat) :
    Trades (held runs) (m.mergeWithin stats runs passes : MergeM π τ Stats) (fun _ => True)
      fun _ => 0 := by
  induction passes generalizing stats runs with
  | zero =>
    have hhalt : Settles (held runs) (Site.halt .stalled) (fun _ : Stats => False) fun _ => 0 :=
      Settles.halt _
    exact Trades.liftM hhalt fun _ hfalse => hfalse.elim
  | succ passes ih =>
    rw [mergeWithin]
    refine Trades.get fun t => Trades.liftM_bind (m.settles_arity _ _) fun plan _ => ?_
    cases plan with
    | error e =>
      exact Trades.liftM_bind (settles_closeAll hruns) fun _ _ => Trades.throw trivial rfl
    | ok arity =>
      simp only
      split
      · refine Trades.liftM_bind (Settles.report rfl) fun _ _ => ?_
        apply (trades_mergeLast hruns).bind
        · exact fun last _ => Trades.pure trivial rfl
        · exact fun _ _ => ⟨trivial, rfl⟩
      · refine Trades.liftM_bind (Settles.report rfl) fun _ _ => ?_
        have hflatten : (groupsOf arity runs).flatten = runs := flatten_groupsOf arity runs
        have hnone : Paid ([] : List (Tape τ)) := paid_nil
        have hgroups : Trades (held ([] : List (Tape τ)) + held (groupsOf arity runs).flatten)
            (m.mergeGroups [] (groupsOf arity runs) : StrategyM π (Stats × List (Tape τ))) _ _ :=
          m.trades_mergeGroups hnone (by rwa [hflatten])
        rw [hflatten, held_nil, Nat.zero_add] at hgroups
        apply (Target.trades_onStrategy hgroups).bind
        · intro out hpaid
          exact ih _ hpaid
        · exact fun _ _ => ⟨trivial, rfl⟩

/-- A merge takes the runs over. -/
theorem trades_merge (m : Merger) {runs : List (Tape τ)} (hruns : Paid runs) :
    Trades (held runs) (m.merge runs : MergeM π τ Stats) (fun _ => True) fun _ => 0 := by
  unfold merge
  split
  · next hempty =>
    obtain rfl := List.isEmpty_iff.mp hempty
    exact Trades.pure trivial rfl
  · refine Trades.liftM_bind (settles_releaseAll hruns) fun out hout => ?_
    obtain ⟨outcome, tapes⟩ := out
    cases outcome with
    | error e =>
      exact Trades.liftM_bind (settles_closeAll hout) fun _ _ => Trades.throw trivial rfl
    | ok _ => exact m.trades_mergeWithin _ hout _

end Merger

end BoundedMerge
