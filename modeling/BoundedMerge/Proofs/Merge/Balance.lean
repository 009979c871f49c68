import BoundedMerge.Merge.Passes
import BoundedMerge.Proofs.Strategy.Balance
import BoundedMerge.Proofs.Tape.Balance

/-!
The memory of a pass. What is at a bench is held by its tapes and its strategy, so work on one of
them is work at the bench. No tape and no strategy needs more than its own account for that.
-/

namespace BoundedMerge

open SiteM Holder

variable {α π τ : Type} [FixedWidth τ] [Holder π]

namespace Target

instance : Holder (Target π τ) where
  held t := held t.output + held t.strategy
  Paid t := Paid t.output ∧ Paid t.strategy

theorem part_output : Portion (fun t : Target π τ => t.output) (fun output t => { t with output })
    fun t => held t.strategy where
  paid_part hs := hs.1
  paid_put hs hr := ⟨hr, hs.2⟩
  held_eq _ := Nat.add_comm _ _
  held_put _ _ := Nat.add_comm _ _

theorem part_strategy :
    Portion (fun t : Target π τ => t.strategy) (fun strategy t => { t with strategy })
      fun t => held t.output where
  paid_part hs := hs.2
  paid_put hs hr := ⟨hs.1, hr⟩
  held_eq _ := rfl
  held_put _ _ := rfl

theorem balances_onOutput {work : TapeM τ α} (h : Balances work) :
    Balances (onOutput work : MergeM π τ α) := by
  refine part_output.balances .tape h fun t => ?_
  · unfold onOutput
    simp only [Work.run_bind, Work.run_get, Work.run_liftM, Work.run_modify, bind_assoc, pure_bind]
    refine bind_congr fun out => ?_
    obtain ⟨_ | _, _⟩ := out <;> rfl

theorem trades_onStrategy {work : StrategyM π α} {before : Nat} {P : Except MergeError α → Prop}
    {after : Except MergeError α → Nat} (h : Trades before work P after) :
    Trades before (onStrategy work : MergeM π τ α) P after := by
  refine part_strategy.trades id h (fun t => ?_) fun out hout => ?_
  · unfold onStrategy
    simp only [Work.run_bind, Work.run_get, Work.run_liftM, Work.run_modify, bind_assoc, pure_bind]
    refine bind_congr fun out => ?_
    obtain ⟨_ | _, _⟩ := out <;> rfl
  · cases out <;> exact ⟨hout, rfl⟩

theorem balances_onStrategy {work : StrategyM π α} (h : Balances work) :
    Balances (onStrategy work : MergeM π τ α) :=
  trades_onStrategy h

end Target

namespace Bench

instance : Holder (Bench π τ) where
  held b := Holder.held b.inputs.toList + Holder.held b.toTarget
  Paid b := Paid b.inputs.toList ∧ Paid b.toTarget

theorem part_target :
    Portion (fun b : Bench π τ => b.toTarget) (fun target b => { b with toTarget := target })
      fun b => Holder.held b.inputs.toList where
  paid_part hs := hs.2
  paid_put hs hr := ⟨hs.1, hr⟩
  held_eq _ := rfl
  held_put _ _ := rfl

theorem balances_onTarget {work : MergeM π τ α} (h : Balances work) :
    Balances (onTarget work : BenchM π τ α) := by
  refine part_target.balances id h fun b => ?_
  unfold onTarget
  simp only [Work.run_bind, Work.run_get, Work.run_liftM, Work.run_modify, bind_assoc, pure_bind]
  refine bind_congr fun out => ?_
  obtain ⟨_ | _, _⟩ := out <;> rfl

/-- An element of an array, between the ones before and after it. -/
theorem exists_between {all : Array α} {index : Nat} {a : α} (h : all[index]? = some a) :
    ∃ before after, all.toList = before ++ a :: after ∧
      ∀ a', (all.setIfInBounds index a').toList = before ++ a' :: after := by
  rw [← Array.getElem?_toList] at h
  obtain ⟨hlt, hget⟩ := List.getElem?_eq_some_iff.mp h
  refine ⟨all.toList.take index, all.toList.drop (index + 1), ?_, ?_⟩
  · rw [← hget, ← List.drop_eq_getElem_cons hlt, List.take_append_drop]
  · intro a'
    rw [Array.toList_setIfInBounds, List.set_eq_take_append_cons_drop, if_pos hlt]

theorem balances_onInput (index : Nat) {work : TapeM τ α} (h : Balances work) :
    Balances (onInput index work : BenchM π τ α) := by
  apply Balances.of_settles
  intro b hb
  unfold onInput
  simp only [Work.run_bind, Work.run_get, Work.run_liftM, Work.run_modify, bind_assoc, pure_bind]
  refine (Settles.demand _).bind fun t ht => ?_
  obtain ⟨before, after, hinputs, hset⟩ := exists_between ht
  obtain ⟨hpaid, htarget⟩ := hb
  rw [hinputs, paid_append, paid_cons] at hpaid
  obtain ⟨hbefore, hinput, hafter⟩ := hpaid
  have hframed : Settles (Holder.held b) (work t) (fun out => Paid out.2)
      fun out => Holder.held before + Holder.held after + Holder.held b.toTarget +
        Holder.held out.2 := by
    refine (h.settles hinput).adapt _ ?_ fun _ hout => ⟨hout, rfl⟩
    change Holder.held b.inputs.toList + Holder.held b.toTarget = _
    rw [hinputs, held_append, held_cons]
    omega
  apply hframed.bind
  intro out hout
  have hpaid : Paid { b with inputs := b.inputs.setIfInBounds index out.2 } := by
    refine ⟨?_, htarget⟩
    rw [hset, paid_append, paid_cons]
    exact ⟨hbefore, hout, hafter⟩
  have heven : Holder.held before + Holder.held after + Holder.held b.toTarget +
      Holder.held out.2 = Holder.held { b with inputs := b.inputs.setIfInBounds index out.2 } := by
    change _ = Holder.held (b.inputs.setIfInBounds index out.2).toList + Holder.held b.toTarget
    rw [hset, held_append, held_cons]
    omega
  obtain ⟨outcome, t'⟩ := out
  cases outcome with
  | ok a => exact Settles.pure hpaid heven
  | error e => exact Settles.pure hpaid heven

theorem balances_readFirsts (index count : Nat) :
    Balances (readFirsts index count : BenchM π τ (List (Option τ))) := by
  induction count generalizing index with
  | zero => exact Balances.pure []
  | succ count ih =>
    exact (balances_onInput index Tape.balances_next?).bind fun x => (ih (index + 1)).bind
      fun xs => Balances.pure (x :: xs)

theorem balances_advance (pending : List (Option τ)) (indices : List Nat) :
    Balances (advance pending indices : BenchM π τ (List (Option τ) × Nat)) := by
  induction indices generalizing pending with
  | nil => exact Balances.pure (pending, 0)
  | cons index indices ih =>
    exact (balances_onInput index Tape.balances_next?).bind fun x => (ih _).bind
      fun out => Balances.pure _

theorem balances_releaseInputs (indices : List Nat) :
    Balances (releaseInputs indices : BenchM π τ Unit) := by
  induction indices with
  | nil => exact Balances.pure ()
  | cons index indices ih =>
    exact (balances_onInput index Tape.balances_releaseBlock).bind fun _ => ih

variable [Strategy π τ] [Strategy.Accountable π τ]

theorem balances_follow (stats : Stats) (pending : List (Option τ)) (steps : Nat) :
    Balances (follow stats pending steps : BenchM π τ Stats) := by
  induction steps generalizing stats pending with
  | zero => exact Balances.liftM (Settles.halt (P := fun _ => False) _)
  | succ steps ih =>
    have hoperate : Balances (Strategy.operate pending (Taken.none pending.length) :
        StrategyM π (Step τ × Taken)) := Strategy.Accountable.operate pending _
    refine (balances_onTarget (Target.balances_onStrategy hoperate)).bind fun out => ?_
    obtain ⟨step, taken⟩ := out
    cases step with
    | done => exact Balances.guarded (Balances.pure stats)
    | skip => exact (balances_advance _ _).bind fun out => ih _ _
    | emit x =>
      refine (balances_onTarget (Target.balances_onOutput (Tape.balances_write x))).bind ?_
      exact fun _ => (balances_advance _ _).bind fun out => ih _ _

theorem balances_mergePass : Balances (mergePass : BenchM π τ Stats) := by
  refine Balances.get fun b => Balances.guarded ?_
  refine (balances_readFirsts _ _).bind fun pending => ?_
  have hprepare : Balances (Strategy.prepare pending : StrategyM π Unit) :=
    Strategy.Accountable.prepare pending
  refine (balances_onTarget (Target.balances_onStrategy hprepare)).bind fun _ => ?_
  refine (balances_follow _ _ _).bind fun stats => ?_
  refine (balances_releaseInputs _).bind fun _ => ?_
  exact (balances_onTarget (Target.balances_onOutput Tape.balances_flush)).bind
    fun _ => Balances.pure stats

end Bench

end BoundedMerge
