import BoundedMerge.Merge.Formation
import BoundedMerge.Proofs.Merge.PassesBalance

/-!
The memory of a run formation. A batch is charged for all records that it has room for, and given
back when the runs are formed, or when this fails. A strategy that is made to sort or to shuffle is
closed in the end, and what is left is what the two tapes of the caller hold.
-/

namespace BoundedMerge

open SiteM Holder

variable {α π τ : Type} [FixedWidth τ] [Holder π]

namespace Batch

instance : Holder (Batch τ) where
  held b := b.capacity * (FixedWidth.footprint τ).size
  Paid b := b.lease.bytes = b.capacity * (FixedWidth.footprint τ).size

theorem settles_new (capacity : Nat) :
    Settles 0 (new capacity : SiteM (Batch τ)) Paid held := by
  unfold new
  refine (Settles.count _).bind fun _ _ => (Settles.take _).bind fun lease hlease => ?_
  refine (Settles.provide _).bind fun _ _ => Settles.pure hlease rfl

theorem settles_push {before : Nat} {b : Batch τ} (hb : Paid b) (x : τ) :
    Settles before (b.push x) (fun b' => Paid b' ∧ held b' = held b) fun _ => before := by
  unfold push
  exact (Settles.assert _ _).bind fun _ _ => Settles.pure ⟨hb, rfl⟩ rfl

theorem settles_close {b : Batch τ} (hb : Paid b) :
    Settles (held b) b.close (fun _ => True) fun _ => 0 := by
  have hbytes : held b = b.lease.bytes := Eq.symm hb
  rw [hbytes]
  exact Settles.release b.lease

theorem trades_pull {b : Batch τ} (hb : Paid b) (count : Nat) :
    Trades 0 (b.pull count : TapeM τ (Except TapeError Unit × Batch τ))
      (Sure fun out => Paid out.2 ∧ held out.2 = held b) fun _ => 0 := by
  induction count generalizing b with
  | zero => exact Trades.pure ⟨hb, rfl⟩ rfl
  | succ count ih =>
    rw [pull]
    have hobserve : Balances (pull.observing Tape.read : TapeM τ (Except TapeError τ)) :=
      (Tape.balances_read.map _).tryCatch fun _ => Balances.pure _
    refine Trades.bind hobserve (fun outcome _ => ?_) fun _ _ => ⟨trivial, rfl⟩
    cases outcome with
    | error e => exact Trades.pure ⟨hb, rfl⟩ rfl
    | ok x =>
      refine Trades.liftM_bind (settles_push hb x) fun b' hb' => ?_
      refine (ih hb'.1).adapt 0 rfl fun out hout => ⟨?_, rfl⟩
      cases out with
      | error e => trivial
      | ok out => exact ⟨hout.1, hout.2.trans hb'.2⟩

/-- A batch stays what it is when it is filled, whether all records could be read or not. -/
theorem trades_fill {b : Batch τ} (hb : Paid b) :
    Trades 0 (b.fill : TapeM τ (Except TapeError Nat × Batch τ))
      (Sure fun out => Paid out.2 ∧ held out.2 = held b) fun _ => 0 :=
  Trades.get fun _ => (trades_pull hb _).bind (fun _ hout => Trades.pure hout rfl)
    fun _ _ => ⟨trivial, rfl⟩

theorem balances_store (b : Batch τ) : Balances (b.store : TapeM τ Unit) :=
  Tape.balances_writeArray _

end Batch

namespace Source

instance : Holder (Source π τ) where
  held s := Holder.held s.input + Holder.held s.toTarget
  Paid s := Paid s.input ∧ Paid s.toTarget

theorem part_target :
    Portion (fun s : Source π τ => s.toTarget) (fun target s => { s with toTarget := target })
      fun s => Holder.held s.input where
  paid_part hs := hs.2
  paid_put hs hr := ⟨hs.1, hr⟩
  held_eq _ := rfl
  held_put _ _ := rfl

theorem part_input :
    Portion (fun s : Source π τ => s.input) (fun input s => { s with input })
      fun s => Holder.held s.toTarget where
  paid_part hs := hs.1
  paid_put hs hr := ⟨hr, hs.2⟩
  held_eq _ := Nat.add_comm _ _
  held_put _ _ := Nat.add_comm _ _

theorem trades_onTarget {work : MergeM π τ α} {before : Nat} {P : Except MergeError α → Prop}
    {after : Except MergeError α → Nat} (h : Trades before work P after) :
    Trades before (onTarget work : SourceM π τ α) P after := by
  refine part_target.trades id h (fun s => ?_) fun out hout => ?_
  · unfold onTarget
    simp only [Work.run_bind, Work.run_get, Work.run_liftM, Work.run_modify, bind_assoc, pure_bind]
    refine bind_congr fun out => ?_
    obtain ⟨_ | _, _⟩ := out <;> rfl
  · cases out <;> exact ⟨hout, rfl⟩

theorem balances_onInput {work : TapeM τ α} (h : Balances work) :
    Balances (onInput work : SourceM π τ α) := by
  refine part_input.balances .tape h fun s => ?_
  unfold onInput
  simp only [Work.run_bind, Work.run_get, Work.run_liftM, Work.run_modify, bind_assoc, pure_bind]
  refine bind_congr fun out => ?_
  obtain ⟨_ | _, _⟩ := out <;> rfl

theorem balances_fill {batch : Batch τ} (hbatch : Paid batch) :
    Balances (fill batch : SourceM π τ (Batch τ)) := by
  have hfill : Balances (batch.fill : TapeM τ (Except TapeError Nat × Batch τ)) :=
    (Batch.trades_fill hbatch).adapt 0 rfl fun _ _ => ⟨trivial, rfl⟩
  refine (balances_onInput hfill).bind fun out => ?_
  obtain ⟨outcome, batch'⟩ := out
  cases outcome with
  | ok _ => exact Balances.pure batch'
  | error e => exact Balances.throw _

variable [Strategy π τ] [Strategy.Accountable π τ]

theorem balances_arrange {batch : Batch τ} (hbatch : Paid batch) :
    Balances (arrange batch : SourceM π τ (Batch τ)) := by
  have hclear : Paid batch.clear := hbatch
  refine (balances_fill hclear).bind fun batch' => ?_
  have hitems : Balances (Strategy.arrange batch'.items : StrategyM π (Array τ)) :=
    Strategy.Accountable.arrange batch'.items
  exact Balances.bind (trades_onTarget (Target.balances_onStrategy hitems))
    fun items => Balances.pure _

end Source

namespace Merger

variable [Strategy π τ]

omit [Strategy π τ] in
/-- The memory of a batch is given back, whether the work with it fails or not. -/
theorem balances_withBatch {capacity : Nat} {work : Batch τ → SourceM π τ α}
    (h : ∀ batch, Paid batch → Balances (work batch)) : Balances (withBatch capacity work) := by
  unfold withBatch
  refine Trades.liftM_bind (Batch.settles_new capacity) fun batch hbatch => ?_
  apply ((h batch hbatch).orElse (Batch.settles_close hbatch)).bind
  · exact fun a _ => Trades.liftM_bind (Batch.settles_close hbatch) fun _ _ =>
      Trades.pure trivial rfl
  · exact fun _ _ => ⟨trivial, rfl⟩

omit [Holder π] [Strategy π τ] in
/-- A batch is parked on a tape that holds what is left of its own block. -/
theorem settles_park (m : Merger) (batch : Batch τ) :
    Settles 0 (m.park batch) (Sure Paid) (gain held) := by
  unfold park
  refine m.settles_newTape.bind fun out hout => ?_
  cases out with
  | error e => exact Settles.pure trivial rfl
  | ok tape =>
    have hvacant := hout tape rfl
    have hwork : Balances (do batch.store; Tape.seek 0; Tape.releaseBlock : TapeM τ Unit) :=
      (Batch.balances_store batch).bind fun _ => (Tape.balances_seek 0).bind
        fun _ => Tape.balances_releaseBlock
    have hstored := hwork.settles (Tape.paid_vacant hvacant)
    rw [Tape.held_vacant hvacant] at hstored
    refine hstored.bind fun out hout => ?_
    obtain ⟨outcome, tape'⟩ := out
    cases outcome with
    | ok _ => exact Settles.pure hout rfl
    | error e => exact (Tape.settles_close hout).bind fun _ _ => Settles.pure trivial rfl

variable [Strategy.Accountable π τ]

theorem balances_arrangeAll (records : Nat) :
    Balances (arrangeAll records : SourceM π τ Stats) := by
  refine (balances_withBatch fun batch hbatch => ?_).bind fun _ => Balances.pure _
  refine (Source.balances_arrange hbatch).bind fun batch' => ?_
  have hstore : Balances (do batch'.store; Tape.flush : TapeM τ Unit) :=
    (Batch.balances_store batch').bind fun _ => Tape.balances_flush
  exact Source.trades_onTarget (Target.balances_onOutput hstore)

/-- The next run, or the reason why there is none. -/
theorem trades_formed (m : Merger) {batch : Batch τ} (hbatch : Paid batch) :
    Trades 0 (formWithin.formed m batch : SourceM π τ (Except MergeError (Tape τ)))
      (Safe (Sure Paid)) (gain (gain held)) := by
  unfold formWithin.formed
  have hwork : Trades 0 (do m.park (← Source.arrange batch) :
      SourceM π τ (Except MergeError (Tape τ))) (Sure (Sure Paid)) (gain (gain held)) := by
    apply Trades.bind (Source.balances_arrange hbatch)
    · exact fun batch' _ => Trades.liftM (m.settles_park batch') fun _ hrun => ⟨hrun, rfl⟩
    · exact fun _ _ => ⟨trivial, rfl⟩
  apply hwork.tryCatch
  · exact fun run hrun => ⟨hrun, rfl⟩
  · exact fun e _ => Trades.pure trivial rfl

theorem trades_formWithin (m : Merger) {batch : Batch τ} (hbatch : Paid batch)
    {runs : List (Tape τ)} (hruns : Paid runs) (count : Nat) :
    Trades (held runs)
      (m.formWithin batch runs count : SourceM π τ (Except MergeError Unit × List (Tape τ)))
      (Safe fun formed => Paid formed.2) (gain fun formed => held formed.2) := by
  induction count generalizing runs with
  | zero => exact Trades.pure hruns rfl
  | succ count ih =>
    rw [formWithin]
    refine Trades.get fun s => ?_
    split
    · exact Trades.pure hruns rfl
    · refine ((m.trades_formed hbatch).frame (held runs)).bind_safe fun run hrun => ?_
      cases run with
      | error e => exact Trades.pure hruns rfl
      | ok run =>
        have hadded : Paid (runs ++ [run]) :=
          paid_append.mpr ⟨hruns, paid_cons.mpr ⟨hrun, paid_nil⟩⟩
        have hrest := ih hadded
        rw [held_append, held_cons, held_nil, Nat.add_zero] at hrest
        exact hrest

/-- The runs that the input is distributed over. If not all of them can be formed all are closed. -/
theorem trades_distribute (m : Merger) (capacity : Nat) :
    Trades 0 (m.distribute capacity : SourceM π τ (List (Tape τ))) (Sure Paid) (gain held) := by
  unfold distribute
  refine Trades.liftM_bind (Batch.settles_new capacity) fun batch hbatch => ?_
  refine Trades.get fun s => ?_
  have hnone : Paid ([] : List (Tape τ)) := paid_nil
  have hform := m.trades_formWithin (π := π) hbatch hnone s.input.size
  refine (hform.frame (held batch)).bind_safe fun formed hruns => ?_
  obtain ⟨outcome, runs⟩ := formed
  refine Trades.liftM_bind ((Batch.settles_close hbatch).beside (held runs)) fun _ _ => ?_
  cases outcome with
  | error e => exact Trades.liftM_bind (settles_closeAll hruns) fun _ _ => Trades.throw trivial rfl
  | ok _ =>
    have hrelease := Source.balances_onInput (π := π) (Tape.balances_releaseBlock (τ := τ))
    apply (hrelease.orElse (settles_closeAll hruns)).bind
    · exact fun _ _ => Trades.pure hruns rfl
    · exact fun _ _ => ⟨trivial, rfl⟩

/-- Whatever becomes of the merge, the caller's tapes and the strategy hold all that is left. -/
theorem balances_process (m : Merger) : Balances (m.process : SourceM π τ Stats) := by
  refine (Source.balances_onInput (Tape.balances_seek 0)).bind fun _ => Balances.get fun s => ?_
  refine Trades.liftM_bind (m.settles_capacity _) fun capacity _ => ?_
  cases capacity with
  | error e => exact Balances.throw e
  | ok capacity =>
    simp only
    split
    · exact (Balances.liftM (Settles.report rfl)).bind fun _ => balances_arrangeAll _
    · refine (Balances.liftM (Settles.report rfl)).bind fun _ => ?_
      apply (m.trades_distribute capacity).bind
      · intro runs hruns
        refine Trades.liftM_bind (Settles.report rfl) fun _ _ => ?_
        exact Source.trades_onTarget (m.trades_merge hruns)
      · exact fun _ _ => ⟨trivial, rfl⟩

end Merger

namespace Transfer

omit [Holder π]

instance : Holder (Transfer τ) where
  held t := held t.input + held t.output
  Paid t := Paid t.input ∧ Paid t.output

end Transfer

namespace Merger

/-- A strategy that is made for the purpose is closed, with all that it holds. -/
theorem balances_processWith [Strategy π τ] [Strategy.Accountable π τ] (m : Merger) {p : π}
    (hpaid : Paid p) (hheld : held p = 0) :
    Balances (m.processWith p : ExceptT MergeError (StateT (Transfer τ) SiteM) Stats) := by
  apply Balances.of_settles
  intro t ht
  unfold processWith
  simp only [Work.run_bind, Work.run_get, Work.run_set, Work.run_liftM, bind_assoc, pure_bind]
  have hsource : Paid { input := t.input, output := t.output, strategy := p : Source π τ } :=
    ⟨ht.1, ht.2, hpaid⟩
  have hheld' : held { input := t.input, output := t.output, strategy := p : Source π τ } =
      held t := by
    change held t.input + (held t.output + held p) = _
    rw [hheld]
    rfl
  have hprocess := m.balances_process.settles hsource
  rw [hheld'] at hprocess
  refine hprocess.bind fun out hout => ?_
  obtain ⟨outcome, s⟩ := out
  obtain ⟨hinput, houtput, hstrategy⟩ : Paid s.input ∧ Paid s.output ∧ Paid s.strategy := hout
  have hclose : Settles (held s) (Strategy.close τ s.strategy) (fun _ => True)
      fun _ => held s.input + held s.output :=
    (Strategy.Accountable.close s.strategy hstrategy).adapt (held s.input + held s.output)
      (Nat.add_assoc _ _ _).symm fun _ _ => ⟨trivial, rfl⟩
  refine hclose.bind fun _ _ => ?_
  cases outcome with
  | ok stats => exact Settles.pure ⟨hinput, houtput⟩ rfl
  | error e => exact Settles.pure ⟨hinput, houtput⟩ rfl

theorem balances_sortBy (m : Merger) (cmp : τ → τ → Ordering) (handleSize : Nat)
    (pivots : Nat → Sorting.PivotChoice) :
    Balances (m.sortBy cmp handleSize pivots :
      ExceptT MergeError (StateT (Transfer τ) SiteM) Stats) :=
  m.balances_processWith Selection.covered_none rfl

theorem balances_shuffle {γ : Type} [WordSource γ] (m : Merger) (source : γ) :
    Balances (m.shuffle source : ExceptT MergeError (StateT (Transfer τ) SiteM) Stats) :=
  m.balances_processWith Selection.covered_none rfl

end Merger

end BoundedMerge
