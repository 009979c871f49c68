import BoundedMerge.Proofs.Merge.Follow
import Mathlib.Data.List.Forall2

/-!
Interleavings. A list interleaves some runs if it can be had by taking, again and again, the first
record that is left of some run, until nothing is left. Then it has the records of the runs and no
others, those of one run in their order. Interleavings of groups of runs, interleaved, are an
interleaving of all the runs.
-/

namespace BoundedMerge

variable {τ : Type}

inductive Interleaves : List (List τ) → List τ → Prop
  | done {runs : List (List τ)} : (∀ run ∈ runs, run = []) → Interleaves runs []
  | step {before after : List (List τ)} {x : τ} {tail out : List τ} :
    Interleaves (before ++ tail :: after) out →
      Interleaves (before ++ (x :: tail) :: after) (x :: out)

namespace Interleaves

variable {runs : List (List τ)} {out : List τ}

/-- Nothing is lost and nothing is there twice. -/
theorem perm (h : Interleaves runs out) : out.Perm runs.flatten := by
  induction h with
  | done hempty => rw [List.flatten_eq_nil_iff.mpr hempty]
  | step _ ih =>
    rw [List.flatten_append, List.flatten_cons] at ih ⊢
    rw [List.cons_append]
    exact (ih.cons _).trans List.perm_middle.symm

/-- The records of a run stay in their order. -/
theorem sublist (h : Interleaves runs out) : ∀ run ∈ runs, run.Sublist out := by
  induction h with
  | done hempty =>
    intro run hrun
    rw [hempty run hrun]
  | step _ ih =>
    intro run hrun
    rcases List.mem_append.mp hrun with hmem | hmem
    · exact (ih run (List.mem_append_left _ hmem)).cons _
    · rcases List.mem_cons.mp hmem with rfl | hmem
      · exact (ih _ (List.mem_append_right _ List.mem_cons_self)).cons_cons _
      · exact (ih run (List.mem_append_right _ (List.mem_cons_of_mem _ hmem))).cons _

theorem nil : Interleaves ([] : List (List τ)) [] := done (by simp)

theorem single (run : List τ) : Interleaves [run] run := by
  induction run with
  | nil => exact done (by simp)
  | cons x run ih => exact @step τ [] [] x run run ih

/-- The record that a run loses when it advances comes first. -/
theorem advanceOne {index : Nat} {x : τ} (hx : (runs.map List.head?)[index]? = some (some x))
    (h : Interleaves (Strategy.advanceOne runs index) out) : Interleaves runs (x :: out) := by
  obtain ⟨tail, hrun⟩ := Strategy.exists_tail hx
  obtain ⟨before, after, hruns, -, hadvance⟩ := Strategy.advanceOne_split runs index _ hrun
  rw [hadvance] at h
  rw [hruns]
  exact step h

theorem eq_nil_of_nil (h : Interleaves runs []) : ∀ run ∈ runs, run = [] := by
  intro run hrun
  exact List.sublist_nil.mp (h.sublist run hrun)

theorem regroup {groups : List (List (List τ))} {outs : List (List τ)}
    (hgroups : List.Forall₂ Interleaves groups outs) (h : Interleaves outs out) :
    Interleaves groups.flatten out := by
  induction h generalizing groups with
  | done hempty =>
    apply done
    intro run hrun
    obtain ⟨group, hgroup, hmem⟩ := List.mem_flatten.mp hrun
    obtain ⟨i, hi, rfl⟩ := List.mem_iff_getElem.mp hgroup
    have hi' := hi
    rw [hgroups.length_eq] at hi'
    have hnone := hgroups.get hi hi'
    rw [List.get_eq_getElem, List.get_eq_getElem, hempty _ (List.getElem_mem hi')] at hnone
    exact hnone.eq_nil_of_nil run hmem
  | @step before after x tail out _ ih =>
    have hbefore := List.forall₂_take_append groups before _ hgroups
    have hafter := List.forall₂_drop_append groups before _ hgroups
    obtain ⟨group, later, hgroup, hlater, hdrop⟩ := List.forall₂_cons_right_iff.mp hafter
    have hsplit : groups = groups.take before.length ++ group :: later := by
      rw [← hdrop, List.take_append_drop]
    -- What comes first in the interleaving of the group comes first in one of its runs.
    cases hgroup with
    | @step front back _ run _ hrest =>
      have hall := ih (List.rel_append hbefore (.cons hrest hlater))
      rw [hsplit]
      simp only [List.flatten_append, List.flatten_cons, List.append_assoc,
        List.cons_append] at hall ⊢
      rw [← List.append_assoc] at hall ⊢
      exact step hall

end Interleaves

structure Conserves (runs : List (List τ)) (out : List τ) : Prop where
  interleaves : Interleaves runs out
  perm : out.Perm runs.flatten
  ordered : ∀ run ∈ runs, run.Sublist out

theorem Interleaves.conserves {runs : List (List τ)} {out : List τ} (h : Interleaves runs out) :
    Conserves runs out := ⟨h, h.perm, h.sublist⟩

end BoundedMerge
