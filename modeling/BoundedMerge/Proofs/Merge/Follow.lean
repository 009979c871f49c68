import BoundedMerge.Proofs.Merge.Feeds
import BoundedMerge.Proofs.Site.Meets
import Mathlib.Data.List.ReduceOption

/-!
Following a strategy. A property that one step of a strategy keeps, over the runs that are left
and the records that were emitted, holds when the strategy is done. The inputs of a pass advance
as the runs do, and the output receives what was emitted, so such a property is all that has to be
known of a strategy; a drive over runs in main memory comes to the same. A strategy that is done in
time meets a measure that every step lowers; of any other it is known what its steps lead to, for as
many as it is allowed.
-/

namespace BoundedMerge

open SiteM

variable {π τ : Type}

namespace Strategy

def advanceOne (runs : List (List τ)) (index : Nat) : List (List τ) :=
  runs.set index (runs.getD index []).tail

@[simp] theorem length_advanceOne (runs : List (List τ)) (index : Nat) :
    (advanceOne runs index).length = runs.length := List.length_set

theorem map_advanceOne {β : Type} (f : List τ → β) (runs : List (List τ)) (index : Nat) :
    (advanceOne runs index).map f = (runs.map f).set index (f (runs.getD index []).tail) :=
  List.map_set

theorem exists_tail {runs : List (List τ)} {index : Nat} {x : τ}
    (h : (runs.map List.head?)[index]? = some (some x)) :
    ∃ tail, runs[index]? = some (x :: tail) := by
  rw [List.getElem?_map, Option.map_eq_some_iff] at h
  obtain ⟨run, hrun, hhead⟩ := h
  obtain ⟨tail, rfl⟩ := List.head?_eq_some_iff.mp hhead
  exact ⟨tail, hrun⟩

theorem advanceOne_split (runs : List (List τ)) (index : Nat) (run : List τ)
    (h : runs[index]? = some run) :
    ∃ before after, runs = before ++ run :: after ∧ before.length = index ∧
      advanceOne runs index = before ++ run.tail :: after := by
  obtain ⟨hlt, hrun⟩ := List.getElem?_eq_some_iff.mp h
  refine ⟨runs.take index, runs.drop (index + 1), ?_, List.length_take_of_le hlt.le, ?_⟩
  · rw [← hrun, ← List.drop_eq_getElem_cons hlt, List.take_append_drop]
  · rw [advanceOne, List.getD_eq_getElem?_getD, h, Option.getD_some,
      List.set_eq_take_append_cons_drop, if_pos hlt]

/-- The pending record of an input that advances is no longer among the records that are left. -/
theorem perm_advanceOne {runs : List (List τ)} {index : Nat} {x : τ}
    (h : (runs.map List.head?)[index]? = some (some x)) :
    (x :: (advanceOne runs index).flatten).Perm runs.flatten := by
  obtain ⟨tail, hrun⟩ := exists_tail h
  obtain ⟨before, after, rfl, -, hadvance⟩ := advanceOne_split runs index _ hrun
  rw [hadvance, List.tail_cons, List.flatten_append, List.flatten_append, List.flatten_cons,
    List.flatten_cons, List.cons_append]
  exact List.perm_middle.symm

/-- An input that advances uses up its pending record, if there is one. -/
theorem remaining_advanceOne (runs : List (List τ)) (index : Nat) :
    (if ((runs.map List.head?)[index]?.join).isSome then 1 else 0) +
      remaining (advanceOne runs index) = remaining runs := by
  induction runs generalizing index with
  | nil => rfl
  | cons run runs ih =>
    cases index with
    | zero =>
      cases run with
      | nil => simp [remaining, advanceOne]
      | cons x run =>
        simp [remaining, advanceOne]
        omega
    | succ index =>
      have hrest := ih index
      simp only [remaining, advanceOne] at hrest
      simp only [remaining, advanceOne, List.map_cons, List.getElem?_cons_succ,
        List.getD_cons_succ, List.set_cons_succ, List.sum_cons]
      omega

theorem remaining_of_empty {runs : List (List τ)} (h : ∀ run ∈ runs, run = []) :
    remaining runs = 0 := by
  rw [remaining, List.sum_eq_zero_iff_forall_eq_nat]
  intro n hn
  obtain ⟨run, hrun, rfl⟩ := List.mem_map.mp hn
  rw [h run hrun, List.length_nil]

theorem getElem?_foldl_advanceOne (indices : List Nat) (hnodup : indices.Nodup)
    (runs : List (List τ)) (j : Nat) :
    (indices.foldl advanceOne runs)[j]? =
      runs[j]?.map fun run => if indices.contains j then run.tail else run := by
  induction indices generalizing runs with
  | nil => simp
  | cons index indices ih =>
    rw [List.nodup_cons] at hnodup
    rw [List.foldl_cons, ih hnodup.2, advanceOne, List.getElem?_set]
    by_cases hj : index = j
    · subst hj
      by_cases hlt : index < runs.length
      · simp [hnodup.1, hlt, List.getD_eq_getElem?_getD]
      · simp [hlt]
    · simp only [if_neg hj, List.contains_cons, beq_iff_eq, Ne.symm hj, Bool.or_eq_true,
        false_or]

/-- The inputs that a step takes advance one after the other. -/
theorem advance_eq (taken : Taken) (hnodup : taken.indices.Nodup) (runs : List (List τ)) :
    advance taken runs = taken.indices.foldl advanceOne runs := by
  apply List.ext_getElem?
  intro j
  rw [getElem?_foldl_advanceOne _ hnodup, advance, List.getElem?_mapIdx]

/-- A record is pending as long as not all runs are used up. -/
theorem any_isSome_heads (runs : List (List τ)) :
    (runs.map List.head?).any Option.isSome = !runs.all List.isEmpty := by
  rw [List.any_map, List.not_all_eq_any_not]
  congr 1
  funext run
  cases run <;> rfl

variable [Strategy π τ]

/-- What a step of the strategy leads to: the property for the runs and records as they are then,
or the end of the merge with what `Q` says of it, or a halt for one of the reasons `H`. -/
def Leads (ref : Site) (Inv : π → List (List τ) → List τ → Prop)
    (Q : Except MergeError Unit → π → List (List τ) → List τ → Prop) (H : Halt → Prop)
    (p : π) (runs : List (List τ)) (out : List τ) : Prop :=
  Meets ref ((operate (runs.map List.head?) (Taken.none runs.length) :
    StrategyM π (Step τ × Taken)) p) (fun res => match res with
    | (.error e, p) => Q (.error e) p runs out
    | (.ok (.done, _), p) =>
      Q (if runs.all List.isEmpty then .ok () else .error .inputsRemaining) p runs out
    | (.ok (.skip, taken), p) => taken.indices.Nodup ∧ (∀ i ∈ taken.indices, i < runs.length) ∧
      Inv p (advance taken runs) out
    | (.ok (.emit x, taken), p) => taken.indices.Nodup ∧ (∀ i ∈ taken.indices, i < runs.length) ∧
      Inv p (advance taken runs) (out ++ [x])) H

def StepsTo (ref : Site) (Inv : Nat → π → List (List τ) → List τ → Prop)
    (Q : Except MergeError Unit → π → List (List τ) → List τ → Prop)
    (steps : Nat) (p : π) (runs : List (List τ)) (out : List τ) : Prop :=
  Yields ref ((operate (runs.map List.head?) (Taken.none runs.length) :
    StrategyM π (Step τ × Taken)) p) fun res => match res with
    | (.error e, p) => Q (.error e) p runs out
    | (.ok (.done, _), p) =>
      Q (if runs.all List.isEmpty then .ok () else .error .inputsRemaining) p runs out
    | (.ok (.skip, taken), p) => taken.indices.Nodup ∧ (∀ i ∈ taken.indices, i < runs.length) ∧
      ∃ left < steps, Inv left p (advance taken runs) out
    | (.ok (.emit x, taken), p) => taken.indices.Nodup ∧ (∀ i ∈ taken.indices, i < runs.length) ∧
      ∃ left < steps, Inv left p (advance taken runs) (out ++ [x])

/-- A step that lowers the measure leaves it below every bound that it was below. -/
theorem StepsTo.leads {ref : Site} {Inv : Nat → π → List (List τ) → List τ → Prop}
    {Q : Except MergeError Unit → π → List (List τ) → List τ → Prop} {steps fuel : Nat} {p : π}
    {runs : List (List τ)} {out : List τ} (h : StepsTo ref Inv Q steps p runs out)
    (hsteps : steps < fuel + 1) :
    Leads ref (fun p runs out => ∃ left < fuel, Inv left p runs out) Q (fun _ => False)
      p runs out := by
  apply (Yields.meets h _).mono
  intro res hres
  obtain ⟨outcome, p'⟩ := res
  rcases outcome with e | ⟨step, taken⟩
  · exact hres
  cases step with
  | done => exact hres
  | skip =>
    obtain ⟨hnodup, hin, left, hleft, hinv⟩ := hres
    exact ⟨hnodup, hin, left, by omega, hinv⟩
  | emit x =>
    obtain ⟨hnodup, hin, left, hleft, hinv⟩ := hres
    exact ⟨hnodup, hin, left, by omega, hinv⟩

section Drive

variable {ref : Site} {Inv : Nat → π → List (List τ) → List τ → Prop}
  {Q : Except MergeError Unit → π → List (List τ) → List τ → Prop}

def Driven (Q : Except MergeError Unit → π → List (List τ) → List τ → Prop) (out : List τ) :
    Except MergeError (List (Option τ)) × π → Prop
  | (.error e, p) => ∃ left out, Q (.error e) p left out
  | (.ok emitted, p) => ∃ left : List (List τ),
    Q (if left.all List.isEmpty then .ok () else .error .inputsRemaining) p left
      (out ++ emitted.reduceOption)

theorem yields_driveWithin
    (hstep : ∀ steps p runs out, Inv steps p runs out → StepsTo ref Inv Q steps p runs out)
    {fuel steps : Nat} {p : π} {runs : List (List τ)} {out : List τ} (hinv : Inv steps p runs out)
    (hfuel : steps < fuel) :
    Yields ref ((driveWithin fuel runs : StrategyM π (List (Option τ))) p) (Driven Q out) := by
  induction fuel generalizing steps p runs out with
  | zero => contradiction
  | succ fuel ih =>
    have hrest {left : Nat} {p : π} {runs : List (List τ)} {out : List τ} (x : Option τ)
        (hinv : Inv left p runs (out ++ x.toList)) (hleft : left < fuel) :
        Yields ref ((driveWithin fuel runs >>= fun emitted => pure (x :: emitted) :
          StrategyM π (List (Option τ))) p) (Driven Q out) := by
      refine Meets.run_bind (ih hinv hleft) (fun emitted p' h => Meets.pure ?_) fun e p' h => h
      obtain ⟨left, hQ⟩ := h
      refine ⟨left, ?_⟩
      rwa [List.append_assoc, ← List.reduceOption_singleton, ← List.reduceOption_append,
        List.singleton_append] at hQ
    rw [driveWithin]
    refine Meets.run_bind (hstep steps p runs out hinv) ?_ fun e p' h => ⟨runs, out, h⟩
    rintro ⟨step, taken⟩ p' h
    cases step with
    | done =>
      refine Meets.pure ⟨runs, ?_⟩
      rwa [List.reduceOption_nil, List.append_nil]
    | skip =>
      obtain ⟨-, -, left, hleft, hinv'⟩ := h
      exact hrest none (by simpa using hinv') (by omega)
    | emit x =>
      obtain ⟨-, -, left, hleft, hinv'⟩ := h
      exact hrest (some x) hinv' (by omega)

/-- What a drive leaves of a strategy that is done in time. -/
theorem yields_drive
    (hstep : ∀ steps p runs out, Inv steps p runs out → StepsTo ref Inv Q steps p runs out)
    {p : π} {runs : List (List τ)}
    (hprepare : Yields ref ((prepare (runs.map List.head?) : StrategyM π Unit) p)
      fun res => match res with
        | (.error e, p) => Q (.error e) p runs []
        | (.ok _, p') => ∃ steps < stepLimit τ p (runs.map List.length), Inv steps p' runs []) :
    Yields ref ((drive runs : StrategyM π (List (Option τ))) p) (Driven Q []) := by
  change Yields ref ((prepare (runs.map List.head?) >>= fun _ =>
    driveWithin (stepLimit τ p (runs.map List.length)) runs : StrategyM π (List (Option τ))) p) _
  refine Meets.run_bind hprepare ?_ fun e p' h => ⟨runs, [], h⟩
  intro _ p' h
  obtain ⟨steps, hsteps, hinv⟩ := h
  exact yields_driveWithin hstep hinv hsteps

end Drive

end Strategy

namespace Target

variable {α : Type} {ref : Site} {target : Target π τ}

theorem meets_onStrategy {work : StrategyM π α} {P : Except MergeError α × π → Prop}
    {H : Halt → Prop} (h : Meets ref (work target.strategy) P H) :
    Meets ref ((onStrategy work : MergeM π τ α) target) (fun out =>
      P (out.1, out.2.strategy) ∧ out.2.output = target.output) H := by
  unfold onStrategy
  simp only [Work.run_bind, Work.run_get, Work.run_liftM, bind_assoc, pure_bind, Work.run_modify]
  apply h.bind
  intro out hout
  obtain ⟨e | a, p⟩ := out
  · exact Meets.pure ⟨hout, rfl⟩
  · exact Meets.pure ⟨hout, rfl⟩

theorem yields_onOutput {work : TapeM τ α} {a : α} {P : Tape τ → Prop}
    (h : Yields ref (work target.output) fun out => out.1 = .ok a ∧ P out.2) :
    Yields ref ((onOutput work : MergeM π τ α) target) fun out =>
      out.1 = .ok a ∧ P out.2.output ∧ out.2.strategy = target.strategy := by
  unfold onOutput
  simp only [Work.run_bind, Work.run_get, Work.run_liftM, bind_assoc, pure_bind, Work.run_modify]
  refine h.bind ?_
  rintro ⟨_, t⟩ ⟨rfl, hout⟩
  exact Meets.pure ⟨rfl, hout, rfl⟩

end Target

namespace Bench

open Strategy

variable [FixedWidth τ] {ref : Site} {b : Bench π τ} {contents : List (List τ)}

def tally (total arity : Nat) (runs : List (List τ)) (out : List τ) : Stats where
  passes := 1
  runs := arity
  consumed := total - remaining runs
  produced := out.length

omit [FixedWidth τ] in
theorem meets_onTarget {α : Type} {work : MergeM π τ α}
    {P : Except MergeError α × Target π τ → Prop} {H : Halt → Prop}
    (h : Meets ref (work b.toTarget) P H) :
    Meets ref ((onTarget work : BenchM π τ α) b) (fun out =>
      P (out.1, out.2.toTarget) ∧ out.2.inputs = b.inputs) H := by
  unfold onTarget
  simp only [Work.run_bind, Work.run_get, Work.run_liftM, bind_assoc, pure_bind, Work.run_modify]
  apply h.bind
  intro out hout
  obtain ⟨e | a, target⟩ := out
  · exact Meets.pure ⟨hout, rfl⟩
  · exact Meets.pure ⟨hout, rfl⟩

omit [FixedWidth τ] in
theorem meets_onStrategy {α : Type} {work : StrategyM π α} {P : Except MergeError α × π → Prop}
    {H : Halt → Prop} (h : Meets ref (work b.strategy) P H) :
    Meets ref ((onTarget (Target.onStrategy work) : BenchM π τ α) b) (fun out =>
      P (out.1, out.2.strategy) ∧ out.2.output = b.output ∧ out.2.inputs = b.inputs) H :=
  (meets_onTarget (Target.meets_onStrategy h)).mono fun _ hout =>
    ⟨hout.1.1, hout.1.2, hout.2⟩

omit [FixedWidth τ] in
theorem yields_onOutput {α : Type} {work : TapeM τ α} {a : α} {P : Tape τ → Prop}
    (h : Yields ref (work b.output) fun out => out.1 = .ok a ∧ P out.2) :
    Yields ref ((onTarget (Target.onOutput work) : BenchM π τ α) b) fun out =>
      out.1 = .ok a ∧ P out.2.output ∧ out.2.strategy = b.strategy ∧
        out.2.inputs = b.inputs :=
  (meets_onTarget (Target.yields_onOutput h)).mono fun _ hout =>
    ⟨hout.1.1, hout.1.2.1, hout.1.2.2, hout.2⟩

variable [LawfulFixedWidth τ]

theorem Feeds.yields_advance (indices : List Nat) (runs : List (List τ))
    (h : b.Feeds contents (runs.map List.tail)) (hindices : ∀ i ∈ indices, i < runs.length) :
    Yields ref ((advance (runs.map List.head?) indices :
        BenchM π τ (List (Option τ) × Nat)) b) fun out =>
      ∃ used, out.1 = .ok ((indices.foldl advanceOne runs).map List.head?, used) ∧
        used + remaining (indices.foldl advanceOne runs) = remaining runs ∧
        out.2.Feeds contents ((indices.foldl advanceOne runs).map List.tail) ∧
        out.2.toTarget = b.toTarget := by
  induction indices generalizing b runs with
  | nil => exact Meets.pure ⟨0, rfl, Nat.zero_add _, h, rfl⟩
  | cons index indices ih =>
    have hlt := hindices index List.mem_cons_self
    have hrun := List.getElem?_eq_getElem hlt
    have hgetD : runs.getD index [] = runs[index] := by
      rw [List.getD_eq_getElem?_getD, hrun, Option.getD_some]
    rw [Bench.advance]
    simp only [Work.run_bind]
    refine (h.yields_next (by rw [List.getElem?_map, hrun, Option.map_some])).bind ?_
    rintro ⟨_, b'⟩ ⟨rfl, hfeeds, htarget⟩
    simp only at hfeeds htarget ⊢
    have hheads := map_advanceOne List.head? runs index
    have htails := map_advanceOne List.tail runs index
    rw [hgetD] at hheads htails
    rw [← htails] at hfeeds
    rw [← hheads]
    have hrest := ih (advanceOne runs index) hfeeds
      fun i hi => by simpa using hindices i (List.mem_cons_of_mem _ hi)
    refine hrest.bind ?_
    rintro ⟨_, b''⟩ ⟨used, rfl, hused, hfeeds', htarget'⟩
    refine Meets.pure ⟨_, rfl, ?_, hfeeds', htarget'.trans htarget⟩
    rw [← remaining_advanceOne runs index, List.foldl_cons]
    omega

/-- A bench at which `runs` are left to be merged, and `out` was written behind `start`. -/
structure Stands (b : Bench π τ) (contents : List (List τ)) (start : Reel τ) (p : π)
    (runs : List (List τ)) (out : List τ) : Prop where
  strategy_eq : b.strategy = p
  feeds : b.Feeds contents (runs.map List.tail)
  shows : b.output.Shows (start.writeArray out)

variable {start : Reel τ}

/-- The inputs that a step takes advance, and the records that they gave up are counted. -/
theorem Stands.yields_advance {p : π} {runs : List (List τ)} {out : List τ} {taken : Taken}
    (h : b.Stands contents start p runs out) (hnodup : taken.indices.Nodup)
    (hin : ∀ i ∈ taken.indices, i < runs.length) :
    Yields ref ((advance (runs.map List.head?) taken.indices :
        BenchM π τ (List (Option τ) × Nat)) b) fun res =>
      ∃ used, res.1 = .ok ((Strategy.advance taken runs).map List.head?, used) ∧
        used + remaining (Strategy.advance taken runs) = remaining runs ∧
        res.2.Stands contents start p (Strategy.advance taken runs) out := by
  rw [advance_eq taken hnodup]
  apply (h.feeds.yields_advance taken.indices runs hin).mono
  intro res hres
  obtain ⟨used, hok, hused, hfeeds, htarget⟩ := hres
  refine ⟨used, hok, hused, ?_, hfeeds, ?_⟩
  · rw [htarget, h.strategy_eq]
  · rw [htarget]
    exact h.shows

theorem Stands.yields_write {p : π} {runs : List (List τ)} {out : List τ}
    (h : b.Stands contents start p runs out) (x : τ) :
    Yields ref ((onTarget (Target.onOutput (Tape.write x)) : BenchM π τ Unit) b) fun res =>
      res.1 = .ok () ∧ res.2.Stands contents start p runs (out ++ [x]) := by
  have hwrite : Yields ref ((Tape.write x : TapeM τ Unit) b.output) fun written =>
      written.1 = .ok () ∧ written.2.Shows (start.writeArray (out ++ [x])) := by
    rw [← Reel.writeArray_append]
    exact (Tape.turns_write h.shows x).mono fun _ h => And.intro h.1 h.2.1
  apply (yields_onOutput (P := fun t => t.Shows _) hwrite).mono
  intro res hres
  obtain ⟨hok, hshows, hstrategy, hinputs⟩ := hres
  exact ⟨hok, hstrategy.trans h.strategy_eq, h.feeds.congr hinputs, hshows⟩

theorem Stands.yields_flush {p : π} {runs : List (List τ)} {out : List τ}
    (h : b.Stands contents start p runs out) :
    Yields ref ((onTarget (Target.onOutput Tape.flush) : BenchM π τ Unit) b) fun res =>
      res.1 = .ok () ∧ res.2.Stands contents start p runs out ∧ res.2.inputs = b.inputs := by
  have hflush : Yields ref ((Tape.flush : TapeM τ Unit) b.output) fun flushed =>
      flushed.1 = .ok () ∧ flushed.2.Shows (start.writeArray out) :=
    (Tape.turns_flush h.shows).mono fun _ h => And.intro h.1 h.2.1
  apply (yields_onOutput (P := fun t => t.Shows _) hflush).mono
  intro res hres
  obtain ⟨hok, hshows, hstrategy, hinputs⟩ := hres
  exact ⟨hok, ⟨hstrategy.trans h.strategy_eq, h.feeds.congr hinputs, hshows⟩, hinputs⟩

/-- When the inputs are released, none of them holds a block. -/
theorem Stands.yields_releaseInputs {p : π} {runs : List (List τ)} {out : List τ}
    (h : b.Stands contents start p runs out) :
    Yields ref ((releaseInputs (List.range contents.length) : BenchM π τ Unit) b) fun res =>
      res.1 = .ok () ∧ res.2.Stands contents start p runs out ∧
        ∀ t ∈ res.2.inputs, t.block = none := by
  have hindices : ∀ i ∈ List.range contents.length, i < (runs.map List.tail).length := by
    intro i hi
    rw [← h.feeds.length_eq]
    exact List.mem_range.mp hi
  apply (h.feeds.yields_releaseInputs _ hindices).mono
  intro res hres
  obtain ⟨hok, hfeeds, htarget, hreleased⟩ := hres
  refine ⟨hok, ⟨?_, hfeeds, ?_⟩, ?_⟩
  · rw [htarget, h.strategy_eq]
  · rw [htarget]
    exact h.shows
  · intro t ht
    obtain ⟨i, hi, rfl⟩ := Array.mem_iff_getElem.mp ht
    apply hreleased i _ (Array.getElem?_eq_getElem hi)
    left
    rw [List.mem_range, hfeeds.length_eq, ← hfeeds.size_eq]
    exact hi

variable [Strategy π τ]

/-- The strategy is followed for as many steps as it is allowed, and no step is left when the
property for no step is reached. -/
theorem meets_follow {Inv : Nat → π → List (List τ) → List τ → Prop}
    {Q : Except MergeError Unit → π → List (List τ) → List τ → Prop} {H : Halt → Prop}
    (hstep : ∀ steps p runs out, Inv (steps + 1) p runs out →
      Leads ref (Inv steps) Q H p runs out)
    (hstall : ∀ p runs out, Inv 0 p runs out → H .stalled)
    (total arity steps : Nat) (p : π) (runs : List (List τ)) (out : List τ)
    (hinv : Inv steps p runs out) (htotal : remaining runs ≤ total)
    (h : b.Stands contents start p runs out) :
    Meets ref ((follow (tally total arity runs out) (runs.map List.head?) steps :
        BenchM π τ Stats) b) (fun res =>
      ∃ outcome p runs out, Q outcome p runs out ∧ res.2.Stands contents start p runs out ∧
        res.1 = outcome.map fun _ => tally total arity runs out) H := by
  induction steps generalizing b p runs out with
  | zero => exact Meets.run_liftM (Meets.halt (hstall p runs out hinv))
  | succ steps ih =>
    -- The inputs that were taken advance, and the strategy is followed on from there.
    have hnext (b₁ : Bench π τ) (taken : Taken) (p₁ : π) (out₁ : List τ)
        (hnodup : taken.indices.Nodup) (hin : ∀ i ∈ taken.indices, i < runs.length)
        (hinv₁ : Inv steps p₁ (Strategy.advance taken runs) out₁)
        (h₁ : b₁.Stands contents start p₁ runs out₁) :
        Meets ref ((advance (runs.map List.head?) taken.indices >>= fun moved =>
          follow { passes := 1, runs := arity, consumed := total - remaining runs + moved.2,
                   produced := out₁.length } moved.1 steps : BenchM π τ Stats) b₁) (fun res =>
          ∃ outcome p runs out, Q outcome p runs out ∧ res.2.Stands contents start p runs out ∧
            res.1 = outcome.map fun _ => tally total arity runs out) H := by
      apply ((h₁.yields_advance hnodup hin).meets H).run_bind
      · intro moved b₂ hout
        obtain ⟨used, hok, hused, hstands⟩ := hout
        cases hok
        have hcount : total - remaining runs + used =
            total - remaining (Strategy.advance taken runs) := by omega
        simp only [hcount]
        exact ih p₁ _ out₁ hinv₁ (by omega) hstands
      · intro e b₂ hout
        obtain ⟨used, hok, -⟩ := hout
        contradiction
    rw [follow]
    simp only [Work.run_bind, List.length_map]
    have hoperate := hstep steps p runs out hinv
    rw [Leads, ← h.strategy_eq] at hoperate
    apply (meets_onStrategy hoperate).bind
    intro res hres
    obtain ⟨outcome, b'⟩ := res
    obtain ⟨hout, houtput, hinputs⟩ := hres
    simp only at hout houtput hinputs ⊢
    have hstands : b'.Stands contents start b'.strategy runs out := by
      refine ⟨rfl, h.feeds.congr hinputs, ?_⟩
      rw [houtput]
      exact h.shows
    rcases outcome with e | ⟨step, taken⟩
    · exact Meets.pure ⟨.error e, _, runs, out, hout, hstands, rfl⟩
    cases step with
    | done =>
      cases hall : runs.all List.isEmpty with
      | true =>
        simp only [any_isSome_heads, hall]
        rw [hall] at hout
        exact Meets.pure ⟨.ok (), _, runs, out, hout, hstands, rfl⟩
      | false =>
        simp only [any_isSome_heads, hall]
        rw [hall] at hout
        exact Meets.pure ⟨.error .inputsRemaining, _, runs, out, hout, hstands, rfl⟩
    | skip =>
      obtain ⟨hnodup, hin, hinv'⟩ := hout
      exact hnext b' taken _ out hnodup hin hinv' hstands
    | emit x =>
      obtain ⟨hnodup, hin, hinv'⟩ := hout
      simp only [Work.run_bind]
      apply ((hstands.yields_write x).meets H).bind
      intro res hres
      obtain ⟨_, b₁⟩ := res
      obtain ⟨rfl, hstands₁⟩ := hres
      have hrest := hnext b₁ taken _ (out ++ [x]) hnodup hin hinv' hstands₁
      rw [List.length_append, List.length_singleton, Work.run_bind] at hrest
      exact hrest

omit [LawfulFixedWidth τ] [Strategy π τ] in
/-- What is left on the inputs, counted. -/
theorem Feeds.lengths_eq {rests : List (List τ)} (h : b.Feeds contents rests) :
    b.inputs.toList.map (fun t => t.size - t.offset) = rests.map List.length := by
  apply List.ext_getElem
  · rw [List.length_map, List.length_map, Array.length_toList, h.size_eq]
  · intro i hi hi'
    rw [List.length_map] at hi hi'
    have ht : b.inputs[i]? = some b.inputs.toList[i] := by
      rw [← Array.getElem?_toList, List.getElem?_eq_getElem hi]
    have hi'' : i < contents.length := by rwa [h.length_eq]
    obtain ⟨r, hshows, hrecords, hrest⟩ := h.input i _ _ _ ht (List.getElem?_eq_getElem hi'')
      (List.getElem?_eq_getElem hi')
    rw [List.getElem_map, List.getElem_map, ← hrest, Reel.rest, List.length_drop, hshows.size_eq,
      hshows.offset_eq]

/-- A pass is known by one step of the strategy and by how it is prepared. If it succeeds, no
input holds a block afterwards. -/
theorem meets_mergePass {I : Nat → π → List (List τ) → List τ → Prop}
    {Q : Except MergeError Unit → π → List (List τ) → List τ → Prop} {H : Halt → Prop}
    {runs : List (List τ)}
    (hstep : ∀ steps p runs out, I (steps + 1) p runs out →
      Leads ref (I steps) Q H p runs out)
    (hstall : ∀ p runs out, I 0 p runs out → H .stalled)
    (hprepare : Meets ref ((prepare (runs.map List.head?) : StrategyM π Unit) b.strategy)
      (fun res => match res with
        | (.error e, p) => Q (.error e) p runs []
        | (.ok _, p) => I (Strategy.stepLimit τ b.strategy (runs.map List.length)) p runs []) H)
    (hfeeds : b.Feeds contents runs) (hruns : runs ≠ []) (hshows : b.output.Shows start) :
    Meets ref ((mergePass : BenchM π τ Stats) b) (fun res =>
      ∃ outcome p runs' out, Q outcome p runs' out ∧ res.2.Stands contents start p runs' out ∧
        res.1 = (outcome.map fun _ => tally (remaining runs) runs.length runs' out) ∧
        (outcome = .ok () → ∀ t ∈ res.2.inputs, t.block = none)) H := by
  have harity : ¬runs.length = 0 := fun hzero => hruns (List.eq_nil_of_length_eq_zero hzero)
  have hlimit : b.stepLimit = Strategy.stepLimit τ b.strategy (runs.map List.length) := by
    rw [stepLimit, hfeeds.lengths_eq]
  unfold mergePass
  simp only [Work.run_bind, Work.run_get, pure_bind, hfeeds.size_eq, if_neg harity, hlimit]
  generalize Strategy.stepLimit τ b.strategy (runs.map List.length) = limit at hprepare ⊢
  have hfirsts : Yields ref ((readFirsts 0 runs.length : BenchM π τ (List (Option τ))) b) _ :=
    hfeeds.yields_readFirsts [] runs
  apply (hfirsts.meets H).bind
  intro res hres
  obtain ⟨outcome, b₁⟩ := res
  obtain ⟨rfl, hfeeds₁, htarget₁⟩ := hres
  simp only at hfeeds₁ htarget₁ ⊢
  rw [show b.strategy = b₁.strategy by rw [htarget₁]] at hprepare
  rw [← htarget₁] at hshows
  apply (meets_onStrategy hprepare).bind
  intro res hres
  obtain ⟨outcome, b₂⟩ := res
  obtain ⟨hprepared, houtput, hinputs⟩ := hres
  simp only at hprepared houtput hinputs ⊢
  have hstands : b₂.Stands contents start b₂.strategy runs [] := by
    refine ⟨rfl, hfeeds₁.congr hinputs, ?_⟩
    rw [houtput, Reel.writeArray_nil]
    exact hshows
  rcases outcome with e | ⟨⟩
  · exact Meets.pure ⟨.error e, _, runs, [], hprepared, hstands, rfl, by intro h; contradiction⟩
  have htally : tally (remaining runs) runs.length runs ([] : List τ) =
      { passes := 1, runs := runs.length } := by
    rw [tally, Nat.sub_self]
    rfl
  have hfollow := meets_follow hstep hstall (remaining runs) runs.length limit _ runs []
    hprepared (Nat.le_refl _) hstands
  rw [htally] at hfollow
  apply hfollow.bind
  intro res hres
  obtain ⟨_, b₃⟩ := res
  obtain ⟨outcome, p, runs', out, hQ, hstands₃, rfl⟩ := hres
  rcases outcome with e | ⟨⟩
  · exact Meets.pure ⟨.error e, p, runs', out, hQ, hstands₃, rfl, by intro h; contradiction⟩
  simp only [Except.map]
  rw [← hfeeds.length_eq]
  apply (hstands₃.yields_releaseInputs.meets H).bind
  intro res hres
  obtain ⟨_, b₄⟩ := res
  obtain ⟨rfl, hstands₄, hreleased⟩ := hres
  apply (hstands₄.yields_flush.meets H).bind
  intro res hres
  obtain ⟨_, b₅⟩ := res
  obtain ⟨rfl, hstands₅, hinputs₅⟩ := hres
  refine Meets.pure ⟨.ok (), p, runs', out, hQ, hstands₅, ?_, ?_⟩
  · rw [hfeeds.length_eq]
  · intro _ t ht
    rw [hinputs₅] at ht
    exact hreleased t ht

/-- A strategy whose steps lower a measure is done in time. -/
theorem yields_mergePass {Inv : Nat → π → List (List τ) → List τ → Prop}
    {Q : Except MergeError Unit → π → List (List τ) → List τ → Prop} {runs : List (List τ)}
    (hstep : ∀ steps p runs out, Inv steps p runs out → StepsTo ref Inv Q steps p runs out)
    (hprepare : Yields ref ((prepare (runs.map List.head?) : StrategyM π Unit) b.strategy)
      fun res => match res with
        | (.error e, p) => Q (.error e) p runs []
        | (.ok _, p) => ∃ steps < Strategy.stepLimit τ b.strategy (runs.map List.length),
          Inv steps p runs [])
    (hfeeds : b.Feeds contents runs) (hruns : runs ≠ []) (hshows : b.output.Shows start) :
    Yields ref ((mergePass : BenchM π τ Stats) b) fun res =>
      ∃ outcome p runs' out, Q outcome p runs' out ∧ res.2.Stands contents start p runs' out ∧
        res.1 = outcome.map fun _ => tally (remaining runs) runs.length runs' out := by
  have hpass : Meets ref ((mergePass : BenchM π τ Stats) b) _ (fun _ => False) := meets_mergePass
    (I := fun limit p runs out => ∃ steps < limit, Inv steps p runs out)
    (fun limit p runs out hinv => by
      obtain ⟨steps, hsteps, hinv⟩ := hinv
      exact (hstep steps p runs out hinv).leads hsteps)
    (fun p runs out hinv => by
      obtain ⟨steps, hsteps, -⟩ := hinv
      omega)
    (hprepare.meets _) hfeeds hruns hshows
  apply hpass.mono
  intro res hres
  obtain ⟨outcome, p, runs', out, hQ, hstands, hok, -⟩ := hres
  exact ⟨outcome, p, runs', out, hQ, hstands, hok⟩

end Bench

end BoundedMerge
