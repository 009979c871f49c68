import BoundedMerge.Proofs.Merge.Follow
import BoundedMerge.Proofs.Selection.Contents
import BoundedMerge.Proofs.Sorting.Stable
import BoundedMerge.Strategy.Ordered

/-!
Merging ordered inputs. The selection holds the pending record of every input but the one that was
taken last, so it has room for that one, and a step emits some pending record and takes its input
whatever the comparison is. If the comparison is a total preorder the record is the least one, of
equal ones that of the first input, and ordered inputs are merged into the stable sort of their
records.
-/

namespace BoundedMerge.Ordered

open SiteM Selection

variable {τ : Type} {ref : Site}

structure Kin (first p : Ordered τ) : Prop where
  cmp_eq : p.cmp = first.cmp
  size_eq : p.handleSize = first.handleSize

theorem Kin.refl (p : Ordered τ) : p.Kin p := ⟨rfl, rfl⟩

theorem Kin.trans {p p' p'' : Ordered τ} (h : p.Kin p') (h' : p'.Kin p'') : p.Kin p'' :=
  ⟨h'.cmp_eq.trans h.cmp_eq, h'.size_eq.trans h.size_eq⟩

/-- The entries that are waiting in the selection before the input taken last is looked at. -/
def waiting (lastTaken : Option Nat) (inputs : List (Option τ)) : List (Node τ) :=
  match lastTaken with
  | none => entries 0 inputs
  | some i => entriesBut 0 i inputs

structure Holds (cmp : τ → τ → Ordering) (s : Selection τ) (held : List (Node τ))
    (inputs : Nat) : Prop where
  room : inputs ≤ s.capacity
  nodes : s.nodes.toList.Perm held
  order : Std.TransCmp cmp → Heap.InOrder (Node.before cmp) s.nodes

structure Ready (p : Ordered τ) (inputs : List (Option τ)) : Prop where
  holds : ∃ s, p.selection = some s ∧ Holds p.cmp s (waiting p.lastTaken inputs) inputs.length
  last : ∀ i, p.lastTaken = some i → i < inputs.length

variable {cmp : τ → τ → Ordering} {first : Ordered τ} {s : Selection τ} {held : List (Node τ)}
  {count : Nat}

theorem Holds.insert (h : Holds cmp s held count) (hroom : held.length < count) (key : τ)
    (source : Nat) :
    ∃ s', s.insert cmp key source = pure s' ∧ Holds cmp s' (⟨key, source⟩ :: held) count := by
  have hlen := h.nodes.length_eq
  have hsize : s.nodes.size < s.capacity := by
    rw [← Array.length_toList, hlen]
    exact Nat.lt_of_lt_of_le hroom h.room
  refine ⟨_, insert_eq hsize key source, h.room, ?_, fun hc => ?_⟩
  · exact (Heap.push_perm _ _ _).trans (h.nodes.cons _)
  · exact Heap.push_inOrder (Node.consistent cmp) (h.order hc) _

theorem Holds.enter (inputs : List (Option τ)) (source : Nat) (h : Holds cmp s held count)
    (hroom : held.length + inputs.length ≤ count) :
    ∃ s', Ordered.enter cmp s source inputs = pure s' ∧
      Holds cmp s' (entries source inputs ++ held) count := by
  induction inputs generalizing s source held with
  | nil => exact ⟨s, rfl, h⟩
  | cons x inputs ih =>
    rw [List.length_cons] at hroom
    cases x with
    | none => exact ih (source + 1) h (by omega)
    | some x =>
      obtain ⟨s', hinsert, h'⟩ := h.insert (by omega) x source
      obtain ⟨s'', henter, h''⟩ := ih (source + 1) h' (by rw [List.length_cons]; omega)
      refine ⟨s'', ?_, h''.room, h''.nodes.trans List.perm_middle, h''.order⟩
      rw [Ordered.enter, hinsert, pure_bind, henter]

theorem yields_discard (p : Ordered τ) :
    Yields ref ((discard : StrategyM (Ordered τ) Unit) p) fun out =>
      out = (.ok (), { p with selection := none }) := by
  unfold discard
  simp only [Work.run_bind, Work.run_get, Work.run_modify, pure_bind]
  cases p.selection with
  | none => exact Meets.pure rfl
  | some s =>
    exact Meets.run_liftM ((Yields.release s.lease).mono fun _ _ => rfl)

variable [FixedWidth τ]

theorem yields_prepare (p : Ordered τ) (inputs : List (Option τ)) (hinputs : inputs ≠ []) :
    Yields ref ((prepare inputs : StrategyM (Ordered τ) Unit) p) fun out =>
      out.1 = .ok () ∧ p.Kin out.2 ∧ out.2.Ready inputs := by
  unfold prepare
  rw [if_neg (show ¬inputs.isEmpty = true by simpa using hinputs)]
  refine Meets.run_bind (yields_discard p) ?_ (by rintro e p' ⟨⟩)
  rintro _ _ ⟨⟩
  simp only [Work.run_bind, Work.run_get, Work.run_liftM, Work.run_modify, bind_assoc, pure_bind,
    Selection.new]
  refine (Yields.provide _).bind fun _ _ => (Yields.take _).bind fun lease _ => ?_
  have hempty : Holds p.cmp { capacity := inputs.length, lease : Selection τ } [] inputs.length :=
    ⟨Nat.le_refl _, List.Perm.refl _, fun _ i _ a b ha => by simp at ha⟩
  obtain ⟨s, henter, hs⟩ := hempty.enter inputs 0 (by simp)
  rw [List.append_nil] at hs
  rw [henter, pure_bind]
  exact Meets.pure ⟨rfl, ⟨rfl, rfl⟩, ⟨s, rfl, hs⟩, fun i hi => by simp at hi⟩

omit [FixedWidth τ] in
/-- The input taken last is looked at: if a record is pending there it is entered. -/
theorem Ready.refill {p : Ordered τ} {inputs : List (Option τ)} (h : p.Ready inputs) :
    ∃ s s', p.selection = some s ∧ Ordered.refill p.cmp p.lastTaken inputs s = pure s' ∧
      Holds p.cmp s' (entries 0 inputs) inputs.length := by
  obtain ⟨⟨s, hs, hholds⟩, hlast⟩ := h
  cases htaken : p.lastTaken with
  | none =>
    rw [htaken] at hholds
    exact ⟨s, s, hs, rfl, hholds⟩
  | some i =>
    rw [htaken] at hholds
    have hlt := hlast i htaken
    have hget := List.getElem?_eq_getElem hlt
    simp only [Ordered.refill, hget, Site.demand, pure_bind]
    cases hinput : inputs[i] with
    | none =>
      rw [hinput] at hget
      refine ⟨s, s, hs, rfl, ?_⟩
      rwa [waiting, entriesBut_of_none hget] at hholds
    | some x =>
      rw [hinput] at hget
      obtain ⟨s', hinsert, hs'⟩ := hholds.insert (length_entriesBut_lt 0 hget) x i
      refine ⟨s, s', hs, hinsert, hs'.room, hs'.nodes.trans ?_, hs'.order⟩
      have hperm := entries_perm 0 hget
      rw [Nat.zero_add] at hperm
      exact hperm.symm

omit [FixedWidth τ] in
/-- A step ends the merge if nothing is pending. Otherwise it emits a pending record and takes its
input, and with a total preorder no entry comes before that of the record. -/
theorem Ready.operate {p : Ordered τ} {inputs : List (Option τ)} (h : p.Ready inputs) :
    (entries 0 inputs = [] ∧ ∃ p',
      (Ordered.operate inputs (Taken.none inputs.length) : StrategyM (Ordered τ) _) p =
        (pure (.ok (.done, Taken.none inputs.length), p') : SiteM _) ∧ p.Kin p') ∨
    ∃ x i p', inputs[i]? = some (some x) ∧
      (Ordered.operate inputs (Taken.none inputs.length) : StrategyM (Ordered τ) _) p =
        (pure (.ok (.emit x, { arity := inputs.length, indices := [i] }), p') : SiteM _) ∧
      p.Kin p' ∧ (∀ y, p'.Ready (inputs.set i y)) ∧
      (Std.TransCmp p.cmp →
        ∀ other ∈ entries 0 inputs, Node.before p.cmp other ⟨x, i⟩ = false) := by
  obtain ⟨s, s', hs, hrefill, hholds⟩ := h.refill
  unfold Ordered.operate
  simp only [Work.run_bind, Work.run_get, Work.run_liftM, pure_bind, hs, hrefill]
  by_cases hnone : entries 0 inputs = []
  · left
    have hnodes : s'.nodes.toList = [] := by
      rw [← List.perm_nil, ← hnone]
      exact hholds.nodes
    have hall := (entries_eq_nil 0 inputs).mp hnone
    simp only [extract_eq_none hnodes, Work.run_bind, Work.run_set, Work.run_liftM, Work.run_pure,
      pure_bind, hall, Site.assert, if_true]
    exact ⟨hnone, _, rfl, rfl, rfl⟩
  · right
    have hnodes : s'.nodes.toList ≠ [] := by
      intro hnil
      have hperm := hholds.nodes
      rw [hnil, List.nil_perm] at hperm
      exact hnone hperm
    obtain ⟨node, rest, hextract, hperm, hleast⟩ := extract_eq_some p.cmp hnodes
    have hmem : node ∈ entries 0 inputs :=
      hholds.nodes.mem_iff.mp (hperm.mem_iff.mpr List.mem_cons_self)
    have hget := ((mem_entries 0 inputs node).mp hmem).2
    rw [Nat.sub_zero] at hget
    have hlt : node.source < inputs.length := (List.getElem?_eq_some_iff.mp hget).1
    have hsplit := entries_perm 0 hget
    rw [Nat.zero_add] at hsplit
    have hrest : rest.toList.Perm (entriesBut 0 node.source inputs) :=
      ((hperm.symm.trans hholds.nodes).trans hsplit).cons_inv
    simp only [hextract, Work.run_bind, Work.run_set, Work.run_liftM, Work.run_pure, pure_bind,
      Strategy.take_none hlt]
    refine ⟨node.key, node.source, _, hget, rfl, ⟨rfl, rfl⟩,
      fun y => ⟨⟨_, rfl, ?_, ?_, ?_⟩, ?_⟩, ?_⟩
    · rw [List.length_set]
      exact hholds.room
    · rw [waiting, entriesBut_set]
      exact hrest
    · exact fun hc => (hleast hc (hholds.order hc)).1
    · intro i hi
      rw [List.length_set, ← Option.some.inj hi]
      exact hlt
    · intro hc other hother
      exact (hleast hc (hholds.order hc)).2 other (hholds.nodes.mem_iff.mpr hother)

omit [FixedWidth τ] in
/-- The head of a run that no head of a run comes before, of equal ones that of the first run: it
comes before all records of the runs in front, and after none of those behind. -/
theorem least_head [Std.TransCmp cmp] (before after : List (List τ)) (x : τ) (tail : List τ)
    (hsorted : ∀ run ∈ before ++ (x :: tail) :: after, Ascending cmp run)
    (hleast : ∀ other ∈ entries 0 ((before ++ (x :: tail) :: after).map List.head?),
      Node.before cmp other ⟨x, before.length⟩ = false) :
    (∀ y ∈ before.flatten, (cmp y x).isLE = false) ∧
      ∀ y ∈ tail ++ after.flatten, (cmp x y).isLE = true := by
  have hhead (i : Nat) (h : τ) (rest : List τ)
      (hrun : (before ++ (x :: tail) :: after)[i]? = some (h :: rest)) :
      ((cmp h x).then (compare i before.length) == .lt) = false ∧
        ∀ y ∈ h :: rest, (cmp h y).isLE = true := by
    constructor
    · refine hleast ⟨h, i⟩ ((mem_entries _ _ _).mpr ⟨Nat.zero_le _, ?_⟩)
      rw [Nat.sub_zero, List.getElem?_map, hrun]
      rfl
    · intro y hy
      rcases List.mem_cons.mp hy with rfl | hy
      · exact Std.ReflCmp.isLE_rfl
      · exact (List.pairwise_cons.mp (hsorted _ (List.mem_of_getElem? hrun))).1 y hy
  constructor
  · intro y hy
    obtain ⟨run, hrun, hy⟩ := List.mem_flatten.mp hy
    obtain ⟨i, hi, rfl⟩ := List.mem_iff_getElem.mp hrun
    obtain ⟨h, rest, hcons⟩ := List.exists_cons_of_ne_nil (List.ne_nil_of_mem hy)
    rw [hcons] at hy
    obtain ⟨hfirst, hrest⟩ := hhead i h rest (by
      rw [List.getElem?_append_left hi, List.getElem?_eq_getElem hi, hcons])
    rw [Nat.compare_eq_lt.mpr hi] at hfirst
    have hgt : (cmp h x).isLE = false := by
      cases hcmp : cmp h x <;> simp_all
    rw [← Bool.not_eq_true] at hgt ⊢
    exact fun hle => hgt (Std.TransCmp.isLE_trans (hrest y hy) hle)
  · intro y hy
    rcases List.mem_append.mp hy with hy | hy
    · refine (hhead before.length x tail ?_).2 y (List.mem_cons_of_mem _ hy)
      rw [List.getElem?_append_right (Nat.le_refl _), Nat.sub_self, List.getElem?_cons_zero]
    · obtain ⟨run, hrun, hy⟩ := List.mem_flatten.mp hy
      obtain ⟨i, hi, rfl⟩ := List.mem_iff_getElem.mp hrun
      obtain ⟨h, rest, hcons⟩ := List.exists_cons_of_ne_nil (List.ne_nil_of_mem hy)
      rw [hcons] at hy
      obtain ⟨hfirst, hrest⟩ := hhead (before.length + (i + 1)) h rest (by
        rw [List.getElem?_append_right (by omega), Nat.add_sub_cancel_left,
          List.getElem?_cons_succ, List.getElem?_eq_getElem hi, hcons])
      rw [Nat.compare_eq_gt.mpr (by omega)] at hfirst
      have hle : (cmp x h).isLE = true := by
        rw [show cmp x h = (cmp h x).swap from Std.OrientedCmp.eq_swap]
        cases hcmp : cmp h x <;> simp_all
      exact Std.TransCmp.isLE_trans hle (hrest y hy)

/-- What a step keeps: what is left of the runs and what was emitted make up the whole, and put
together in order they make up its stable sort. -/
structure Merging (first : Ordered τ) (whole : List (List τ)) (steps : Nat) (p : Ordered τ)
    (runs : List (List τ)) (out : List τ) : Prop where
  kin : first.Kin p
  ready : p.Ready (runs.map List.head?)
  steps_eq : steps = Strategy.remaining runs
  perm : (out ++ runs.flatten).Perm whole.flatten
  stable : Std.TransCmp first.cmp → (∀ run ∈ whole, Ascending first.cmp run) →
    (∀ run ∈ runs, Ascending first.cmp run) ∧
      out ++ stableSort first.cmp runs.flatten = stableSort first.cmp whole.flatten

omit [FixedWidth τ] in
/-- The record that is emitted leaves the run of its input. -/
theorem Merging.emit {whole : List (List τ)} {steps i : Nat} {p p' : Ordered τ}
    {runs : List (List τ)} {out : List τ} {x : τ} (h : Merging first whole steps p runs out)
    (hx : (runs.map List.head?)[i]? = some (some x)) (hkin : p.Kin p')
    (hready : ∀ y, p'.Ready ((runs.map List.head?).set i y))
    (hleast : Std.TransCmp p.cmp → ∀ other ∈ entries 0 (runs.map List.head?),
      Node.before p.cmp other ⟨x, i⟩ = false) :
    Merging first whole (Strategy.remaining (Strategy.advanceOne runs i)) p'
      (Strategy.advanceOne runs i) (out ++ [x]) := by
  obtain ⟨tail, hrun⟩ := Strategy.exists_tail hx
  have hmoved := Strategy.perm_advanceOne hx
  obtain ⟨before, after, rfl, rfl, hadvance⟩ := Strategy.advanceOne_split runs i _ hrun
  rw [List.tail_cons] at hadvance
  have hflatten : (before ++ (x :: tail) :: after).flatten =
      before.flatten ++ x :: (tail ++ after.flatten) := by
    rw [List.flatten_append, List.flatten_cons, List.cons_append]
  have hflatten' : (Strategy.advanceOne (before ++ (x :: tail) :: after) before.length).flatten =
      before.flatten ++ (tail ++ after.flatten) := by
    rw [hadvance, List.flatten_append, List.flatten_cons]
  refine ⟨h.kin.trans hkin, ?_, rfl, ?_, fun hc hwhole => ?_⟩
  · rw [Strategy.map_advanceOne]
    exact hready _
  · refine List.Perm.trans ?_ h.perm
    rw [List.append_assoc, List.singleton_append]
    exact hmoved.append_left out
  · obtain ⟨hruns, hsorted⟩ := h.stable hc hwhole
    rw [h.kin.cmp_eq] at hleast
    obtain ⟨hbefore, hafter⟩ := least_head before after x tail hruns (hleast hc)
    refine ⟨fun run hrun' => ?_, ?_⟩
    · rw [hadvance, List.mem_append, List.mem_cons] at hrun'
      rcases hrun' with hmem | rfl | hmem
      · exact hruns run (by simp [hmem])
      · exact (List.pairwise_cons.mp (hruns (x :: run) (by simp))).2
      · exact hruns run (by simp [hmem])
    · rw [← hsorted, hflatten, hflatten', stableSort_append_cons _ _ _ hbefore hafter,
        List.append_assoc, List.singleton_append]

structure Merged (first : Ordered τ) (whole : List (List τ))
    (outcome : Except MergeError Unit) (p : Ordered τ) (runs : List (List τ)) (out : List τ) :
    Prop where
  ok : outcome = .ok ()
  kin : first.Kin p
  empty : ∀ run ∈ runs, run = []
  perm : out.Perm whole.flatten
  stable : Std.TransCmp first.cmp → (∀ run ∈ whole, Ascending first.cmp run) →
    out = stableSort first.cmp whole.flatten

omit [FixedWidth τ] in
theorem Merging.done {whole : List (List τ)} {steps : Nat} {p p' : Ordered τ}
    {runs : List (List τ)} {out : List τ} (h : Merging first whole steps p runs out)
    (hnone : entries 0 (runs.map List.head?) = []) (hkin : p.Kin p') :
    Merged first whole (if runs.all List.isEmpty then .ok () else .error .inputsRemaining) p'
      runs out := by
  have hempty : ∀ run ∈ runs, run = [] := by
    intro run hrun
    rw [entries_eq_nil, List.all_map, List.all_eq_true] at hnone
    simpa using hnone run hrun
  have hflatten : runs.flatten = [] := List.flatten_eq_nil_iff.mpr hempty
  refine ⟨?_, h.kin.trans hkin, hempty, ?_, fun hc hwhole => ?_⟩
  · rw [if_pos (List.all_eq_true.mpr fun run hrun => by simp [hempty run hrun])]
  · have hperm := h.perm
    rwa [hflatten, List.append_nil] at hperm
  · have hsorted := (h.stable hc hwhole).2
    rwa [hflatten, stableSort, List.mergeSort_nil, List.append_nil] at hsorted

/-- A step uses up one of the records that are left, or there are none. -/
theorem Ready.stepsTo {I : Nat → Ordered τ → List (List τ) → List τ → Prop}
    {Q : Except MergeError Unit → Ordered τ → List (List τ) → List τ → Prop}
    {p : Ordered τ} {runs : List (List τ)} {out : List τ} (h : p.Ready (runs.map List.head?))
    (hdone : ∀ p', entries 0 (runs.map List.head?) = [] → p.Kin p' →
      Q (if runs.all List.isEmpty then .ok () else .error .inputsRemaining) p' runs out)
    (hemit : ∀ p' i x, (runs.map List.head?)[i]? = some (some x) → p.Kin p' →
      (∀ y, p'.Ready ((runs.map List.head?).set i y)) →
      (Std.TransCmp p.cmp → ∀ other ∈ entries 0 (runs.map List.head?),
        Node.before p.cmp other ⟨x, i⟩ = false) →
      I (Strategy.remaining (Strategy.advanceOne runs i)) p' (Strategy.advanceOne runs i)
        (out ++ [x])) :
    Strategy.StepsTo ref I Q (Strategy.remaining runs) p runs out := by
  have hoperate := h.operate
  rw [List.length_map] at hoperate
  unfold Strategy.StepsTo
  change Yields ref ((Ordered.operate (runs.map List.head?) (Taken.none runs.length) :
    StrategyM (Ordered τ) (Step τ × Taken)) p) _
  rcases hoperate with ⟨hnone, p', heq, hkin⟩ | ⟨x, i, p', hx, heq, hkin, hready, hleast⟩
  · rw [heq]
    exact Meets.pure (hdone p' hnone hkin)
  · rw [heq]
    have hlt : i < runs.length := by
      rw [← List.length_map (f := List.head?)]
      exact (List.getElem?_eq_some_iff.mp hx).1
    have hcount := Strategy.remaining_advanceOne runs i
    rw [hx, Option.join_some, Option.isSome_some, if_pos rfl] at hcount
    have hnodup : [i].Nodup := List.pairwise_singleton _ i
    refine Meets.pure ⟨hnodup, by simpa using hlt, ?_⟩
    rw [Strategy.advance_eq _ hnodup]
    exact ⟨_, by omega, hemit p' i x hx hkin hready hleast⟩

theorem steps_merging (whole : List (List τ)) (steps : Nat) (p : Ordered τ)
    (runs : List (List τ)) (out : List τ) (h : Merging first whole steps p runs out) :
    Strategy.StepsTo ref (Merging first whole) (Merged first whole) steps p runs out := by
  rw [h.steps_eq]
  apply h.ready.stepsTo
  · intro p' hnone hkin
    exact h.done hnone hkin
  · intro p' i x hx hkin hready hleast
    exact h.emit hx hkin hready hleast

/-- A merge begins with all records left and with a step to spare for each input. -/
theorem yields_prepare_merging {p : Ordered τ} {runs : List (List τ)} (hkin : first.Kin p)
    (hruns : runs ≠ []) :
    Yields ref ((prepare (runs.map List.head?) : StrategyM (Ordered τ) Unit) p) fun out =>
      out.1 = .ok () ∧ Merging first runs (Strategy.remaining runs) out.2 runs [] ∧
        Strategy.remaining runs < Strategy.stepLimit τ p (runs.map List.length) := by
  apply (yields_prepare p (runs.map List.head?) (by simpa using hruns)).mono
  intro out hout
  obtain ⟨hok, hkin', hready⟩ := hout
  refine ⟨hok, ⟨hkin.trans hkin', hready, rfl, List.Perm.refl _, ?_⟩, ?_⟩
  · exact fun _ hwhole => ⟨hwhole, rfl⟩
  · have hlimit : Strategy.stepLimit τ p (runs.map List.length) =
        (runs.map List.length).sum + (runs.map List.length).length + 1 := rfl
    rw [hlimit, Strategy.remaining]
    omega

/-- A pass over runs that are fed from tapes. -/
theorem yields_mergePass [LawfulFixedWidth τ] {b : Bench (Ordered τ) τ}
    {contents runs : List (List τ)} {start : Reel τ} (hkin : first.Kin b.strategy)
    (hfeeds : b.Feeds contents runs) (hruns : runs ≠ []) (hshows : b.output.Shows start) :
    Yields ref ((Bench.mergePass : BenchM (Ordered τ) τ Stats) b) fun res =>
      ∃ outcome p runs' out, Merged first runs outcome p runs' out ∧
        res.2.Stands contents start p runs' out ∧
        res.1 = outcome.map fun _ =>
          Bench.tally (Strategy.remaining runs) runs.length runs' out := by
  apply Bench.yields_mergePass (steps_merging runs) ?_ hfeeds hruns hshows
  apply (yields_prepare_merging hkin hruns).mono
  intro out hout
  obtain ⟨_, p⟩ := out
  obtain ⟨rfl, hmerging, hlimit⟩ := hout
  exact ⟨Strategy.remaining runs, hlimit, hmerging⟩

end BoundedMerge.Ordered
