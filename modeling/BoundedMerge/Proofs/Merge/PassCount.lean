import BoundedMerge.Merge.Pass
import BoundedMerge.Proofs.Strategy.Diligent
import BoundedMerge.Proofs.Tape.Progress

/-!
What one pass counts. A diligent strategy uses up one of the records that are ahead with each step
that is not idle, and writes one. So a pass that follows it comes to an end in the steps it is
allowed, and if it does not fail it read all records that were left on its inputs and wrote as many.
-/

namespace BoundedMerge

open Work

open Interleave (pendings pendings_set)

variable {α π τ : Type} {stall : Prop}

theorem sum_set {counts : List Nat} {i n : Nat} (h : counts[i]? = some n) (m : Nat) :
    (counts.set i m).sum + n = counts.sum + m := by
  induction counts generalizing i with
  | nil => simp at h
  | cons k counts ih =>
    cases i with
    | zero =>
      rw [List.getElem?_cons_zero, Option.some.injEq] at h
      rw [List.set_cons_zero, List.sum_cons, List.sum_cons, h]
      omega
    | succ i =>
      rw [List.getElem?_cons_succ] at h
      have hrest := ih h
      rw [List.set_cons_succ, List.sum_cons, List.sum_cons]
      omega

def Tape.leftAll (tapes : List (Tape τ)) : Nat := (tapes.map Tape.left).sum

theorem Tape.leftAll_append (front back : List (Tape τ)) :
    leftAll (front ++ back) = leftAll front + leftAll back := by
  rw [leftAll, List.map_append, List.sum_append]
  rfl

namespace Target

variable {t : Target π τ}

theorem quiet_onOutput {work : TapeM τ α} {Q : α → Tape τ → Prop}
    (h : Quiet stall work t.output Q) :
    Quiet stall (onOutput work : MergeM π τ α) t fun a t' =>
      ∃ output, t' = { t with output } ∧ Q a output := by
  unfold onOutput
  rw [Quiet.get]
  apply Quiet.lift_run h
  · intro a output hout
    exact Quiet.modify.mpr (Quiet.pure ⟨output, rfl, hout⟩)
  · intro e output
    exact Quiet.modify.mpr Quiet.throw

theorem quiet_onStrategy {work : StrategyM π α} {Q : α → π → Prop}
    (h : Quiet stall work t.strategy Q) :
    Quiet stall (onStrategy work : MergeM π τ α) t fun a t' =>
      ∃ strategy, t' = { t with strategy } ∧ Q a strategy := by
  unfold onStrategy
  rw [Quiet.get]
  apply Quiet.lift_run h
  · intro a strategy hout
    exact Quiet.modify.mpr (Quiet.pure ⟨strategy, rfl, hout⟩)
  · intro e strategy
    exact Quiet.modify.mpr Quiet.throw

end Target

namespace Bench

variable {b : Bench π τ} {pending : List (Option τ)}

theorem quiet_onTarget {work : MergeM π τ α} {Q : α → Target π τ → Prop}
    (h : Quiet stall work b.toTarget Q) :
    Quiet stall (onTarget work : BenchM π τ α) b fun a b' =>
      ∃ target, b' = { b with toTarget := target } ∧ Q a target := by
  unfold onTarget
  rw [Quiet.get]
  apply Quiet.lift_run h
  · intro a target hout
    exact Quiet.modify.mpr (Quiet.pure ⟨target, rfl, hout⟩)
  · intro e target
    exact Quiet.modify.mpr Quiet.throw

theorem quiet_onInput {index : Nat} {work : TapeM τ α} {Q : Tape τ → α → Tape τ → Prop}
    (h : ∀ t, Quiet stall work t (Q t)) :
    Quiet stall (onInput index work : BenchM π τ α) b fun a b' =>
      ∃ t t', b.inputs[index]? = some t ∧ Q t a t' ∧
        b' = { b with inputs := b.inputs.setIfInBounds index t' } := by
  unfold onInput
  rw [Quiet.get]
  apply Quiet.lift (SiteM.Quiet.demand _)
  intro t ht
  apply Quiet.lift_run (h t)
  · intro a t' hout
    exact Quiet.modify.mpr (Quiet.pure ⟨t, t', ht, hout, rfl⟩)
  · intro e t'
    exact Quiet.modify.mpr Quiet.throw

/-- One input of many has changed. -/
theorem leftAll_set {index : Nat} {t : Tape τ} (ht : b.inputs[index]? = some t) (t' : Tape τ) :
    Tape.leftAll (b.inputs.setIfInBounds index t').toList + t.left =
      Tape.leftAll b.inputs.toList + t'.left := by
  rw [Tape.leftAll, Array.toList_setIfInBounds, List.map_set]
  apply sum_set
  rw [List.getElem?_map, Array.getElem?_toList, ht]
  rfl

/-- Every input whose next record is not pending has none. -/
structure Shows (b : Bench π τ) (pending : List (Option τ)) : Prop where
  length_eq : pending.length = b.inputs.size
  empty : ∀ (i : Nat) (t : Tape τ), pending[i]? = some none → b.inputs[i]? = some t → t.left = 0

def ahead (b : Bench π τ) (pending : List (Option τ)) : Nat :=
  Tape.leftAll b.inputs.toList + pendings pending

/-- Where nothing is pending nothing is ahead. -/
theorem Shows.ahead_eq_zero (h : b.Shows pending) (hnone : ∀ x ∈ pending, x = none) :
    b.ahead pending = 0 := by
  have hpendings : pendings pending = 0 := by
    rw [pendings, List.countP_eq_zero]
    intro x hx
    rw [hnone x hx]
    simp
  have hleft : Tape.leftAll b.inputs.toList = 0 := by
    rw [Tape.leftAll, List.sum_eq_zero_iff_forall_eq_nat]
    intro n hn
    obtain ⟨t, ht, rfl⟩ := List.mem_map.mp hn
    obtain ⟨i, hi⟩ := List.mem_iff_getElem?.mp ht
    have hlt : i < pending.length := by
      rw [h.length_eq, ← Array.length_toList]
      exact (List.getElem?_eq_some_iff.mp hi).1
    have hget := List.getElem?_eq_getElem hlt
    rw [hnone _ (List.getElem_mem hlt)] at hget
    exact h.empty i t hget (by rwa [← Array.getElem?_toList])
  rw [ahead, hpendings, hleft]

variable [FixedWidth τ]

/-- Reading the first records leaves all of them ahead. -/
theorem quiet_readFirsts (index count : Nat) (b : Bench π τ)
    (hcount : index + count = b.inputs.size) :
    Quiet stall (readFirsts index count : BenchM π τ (List (Option τ))) b fun firsts b' =>
      b'.toTarget = b.toTarget ∧ b'.inputs.size = b.inputs.size ∧ firsts.length = count ∧
      (∀ i < index, b'.inputs[i]? = b.inputs[i]?) ∧
      (∀ i t, firsts[i]? = some none → b'.inputs[index + i]? = some t → t.left = 0) ∧
      Tape.leftAll b'.inputs.toList + pendings firsts = Tape.leftAll b.inputs.toList := by
  induction count generalizing index b with
  | zero => exact Quiet.pure ⟨rfl, rfl, rfl, fun _ _ => rfl, fun i t h => by simp at h, rfl⟩
  | succ count ih =>
    apply (quiet_onInput fun t => Tape.quiet_next? t).bind
    intro x b₁ hone
    obtain ⟨t, t', ht, ⟨hleft, hend⟩, rfl⟩ := hone
    have hin : index < b.inputs.size := by omega
    have hsum := leftAll_set ht t'
    apply (ih (index + 1) _ (by simp only [Array.size_setIfInBounds]; omega)).bind
    intro xs b₂ hrest
    obtain ⟨htarget, hsize, hlength, hframe, hempty, hahead⟩ := hrest
    simp only [Array.size_setIfInBounds] at hsize hframe hahead
    refine Quiet.pure ⟨htarget, hsize, by rw [List.length_cons, hlength], ?_, ?_, ?_⟩
    · intro i hi
      rw [hframe i (by omega), Array.getElem?_setIfInBounds_ne (by omega)]
    · intro i t₂ hi ht₂
      cases i with
      | zero =>
        rw [List.getElem?_cons_zero, Option.some.injEq] at hi
        rw [Nat.add_zero, hframe index (Nat.lt_succ_self index),
          Array.getElem?_setIfInBounds_self_of_lt hin, Option.some.injEq] at ht₂
        rw [← ht₂]
        exact hend hi
      | succ i =>
        rw [List.getElem?_cons_succ] at hi
        exact hempty i t₂ hi (by rwa [Nat.add_assoc, Nat.add_comm 1 i])
    · simp only [pendings, List.countP_cons] at hahead ⊢
      omega

/-- The input whose pending record was used moves on: one record less is ahead. -/
theorem quiet_advance {i : Nat} {x : τ} (h : b.Shows pending)
    (hx : pending[i]? = some (some x)) :
    Quiet stall (advance pending [i] : BenchM π τ (List (Option τ) × Nat)) b fun out b' =>
      ∃ y, out = (pending.set i y, 1) ∧ b'.toTarget = b.toTarget ∧ b'.Shows (pending.set i y) ∧
        b'.ahead (pending.set i y) + 1 = b.ahead pending := by
  unfold advance
  apply (quiet_onInput fun t => Tape.quiet_next? t).bind
  intro y b' hone
  obtain ⟨t, t', ht, ⟨hleft, hend⟩, rfl⟩ := hone
  have hlt : i < pending.length := (List.getElem?_eq_some_iff.mp hx).1
  have hin : i < b.inputs.size := by rwa [← h.length_eq]
  have hsum := leftAll_set ht t'
  have hset := pendings_set pending i x y hx
  unfold advance
  refine Quiet.pure ⟨y, ?_, rfl, ⟨?_, fun j u hj hu => ?_⟩, ?_⟩
  · simp [hx]
  · rw [List.length_set, h.length_eq, Array.size_setIfInBounds]
  · by_cases hji : j = i
    · rw [hji, List.getElem?_set_self hlt, Option.some.injEq] at hj
      rw [hji, Array.getElem?_setIfInBounds_self_of_lt hin, Option.some.injEq] at hu
      rw [← hu]
      exact hend hj
    · rw [List.getElem?_set_ne (Ne.symm hji)] at hj
      rw [Array.getElem?_setIfInBounds_ne (Ne.symm hji)] at hu
      exact h.empty j u hj hu
  · simp only [ahead]
    omega

theorem quiet_releaseInputs (indices : List Nat) (b : Bench π τ) :
    Quiet stall (releaseInputs indices : BenchM π τ Unit) b fun _ b' =>
      b'.toTarget = b.toTarget := by
  induction indices generalizing b with
  | nil => exact Quiet.pure rfl
  | cons index indices ih =>
    apply (quiet_onInput fun t => Tape.quiet_releaseBlock t).bind
    intro _ b₁ hone
    obtain ⟨_, _, _, _, rfl⟩ := hone
    exact (ih _).mono fun _ _ htarget => htarget

variable [Strategy π τ] {Ready : Nat → π → List (Option τ) → Prop}

/-- Enough steps use up what is ahead, and write as much. -/
theorem quiet_follow (hstrategy : Strategy.Diligent stall Ready) (stats : Stats) (steps idle : Nat)
    (pending : List (Option τ)) (b : Bench π τ) (hready : Ready idle b.strategy pending)
    (hshows : b.Shows pending) (hsteps : b.ahead pending + idle < steps) :
    Quiet stall (follow stats pending steps : BenchM π τ Stats) b fun stats' b' =>
      stats' = { stats with
        consumed := stats.consumed + b.ahead pending
        produced := stats.produced + b.ahead pending } ∧
      b.output.Grows b'.output (b.ahead pending) := by
  induction steps generalizing stats idle pending b with
  | zero => omega
  | succ steps ih =>
    unfold follow
    apply (quiet_onTarget (Target.quiet_onStrategy (hstrategy.operate idle _ pending hready))).bind
    intro out b₁ hout
    obtain ⟨target, rfl, strategy, rfl, hadvances⟩ := hout
    cases hadvances with
    | done hnone =>
      have hzero := hshows.ahead_eq_zero hnone
      rw [hzero]
      simp only
      split
      · exact Quiet.throw_bind
      · exact Quiet.pure ⟨rfl, (Tape.Stays.refl b.output).grows⟩
    | @skip taken p fewer hfewer htaken hready =>
      simp only [htaken, advance]
      have hrest := ih { stats with consumed := stats.consumed + 0 } fewer pending
        { b with strategy } hready ⟨hshows.length_eq, hshows.empty⟩ (by
          have hsame : Bench.ahead { b with strategy } pending = b.ahead pending := rfl
          omega)
      exact hrest
    | @emit taken p i x hx htaken hready =>
      simp only [htaken]
      apply (quiet_onTarget (Target.quiet_onOutput (Tape.quiet_write x _))).bind
      intro _ b₂ hwrite
      obtain ⟨target, rfl, output, rfl, hgrows⟩ := hwrite
      have hshows' : Bench.Shows { b with strategy, output } pending :=
        ⟨hshows.length_eq, hshows.empty⟩
      apply (quiet_advance hshows' hx).bind
      intro out b₃ hadvance
      obtain ⟨y, rfl, htarget, hshows₃, hahead⟩ := hadvance
      have hsame : Bench.ahead { b with strategy, output } pending = b.ahead pending := rfl
      have hready₃ : Ready idle b₃.strategy (pending.set i y) := by
        rw [htarget]
        exact hready y
      apply (ih _ idle (pending.set i y) b₃ hready₃ hshows₃ (by omega)).mono
      intro stats' b' hrest
      obtain ⟨rfl, hgrows'⟩ := hrest
      have hone : b.ahead pending = 1 + b₃.ahead (pending.set i y) := by omega
      rw [htarget] at hgrows'
      refine ⟨?_, ?_⟩
      · rw [hone, ← Nat.add_assoc, ← Nat.add_assoc]
      · rw [hone]
        exact hgrows.trans hgrows'

/-- A pass reads all that is left on its inputs and writes as much. -/
theorem quiet_mergePass (hstrategy : Strategy.Diligent stall Ready) (b : Bench π τ) :
    Quiet stall (mergePass : BenchM π τ Stats) b fun stats b' =>
      stats = {
        passes := 1
        runs := b.inputs.size
        consumed := Tape.leftAll b.inputs.toList
        produced := Tape.leftAll b.inputs.toList } ∧
      b.output.Grows b'.output (Tape.leftAll b.inputs.toList) := by
  unfold mergePass
  rw [Quiet.get]
  simp only
  split
  · exact Quiet.throw_bind
  · apply (quiet_readFirsts 0 b.inputs.size b (Nat.zero_add _)).bind
    intro firsts b₁ hfirsts
    obtain ⟨htarget, hsize, hlength, -, hempty, hahead⟩ := hfirsts
    apply (quiet_onTarget (Target.quiet_onStrategy (hstrategy.prepare _ firsts))).bind
    intro _ b₂ hprepare
    obtain ⟨_, rfl, strategy, rfl, idle, hidle, hready⟩ := hprepare
    have hshows : Bench.Shows { b₁ with strategy } firsts := by
      refine ⟨hlength.trans hsize.symm, fun i t hi ht => hempty i t hi ?_⟩
      rwa [Nat.zero_add]
    have hsame : Bench.ahead { b₁ with strategy } firsts = Tape.leftAll b.inputs.toList := hahead
    have hsteps : Bench.ahead { b₁ with strategy } firsts + idle < b.stepLimit := by
      rw [hsame, stepLimit, hstrategy.stepLimit_eq, List.length_map, Array.length_toList]
      have hsum : (b.inputs.toList.map fun t => t.size - t.offset).foldr (· + ·) 0 =
          Tape.leftAll b.inputs.toList := rfl
      omega
    apply (quiet_follow hstrategy _ b.stepLimit idle firsts _ hready hshows hsteps).bind
    intro stats b₃ hfollow
    obtain ⟨rfl, hgrows⟩ := hfollow
    rw [hsame] at hgrows ⊢
    simp only [htarget] at hgrows
    apply (quiet_releaseInputs _ b₃).bind
    intro _ b₄ hrelease
    apply (quiet_onTarget (Target.quiet_onOutput (Tape.quiet_flush _))).bind
    intro _ b₅ hflush
    obtain ⟨_, rfl, output, rfl, hstays⟩ := hflush
    rw [hrelease] at hstays
    refine Quiet.pure ⟨?_, hgrows.trans hstays.grows⟩
    rw [Nat.zero_add]

end Bench

end BoundedMerge
