import BoundedMerge.Proofs.Strategy.Interleave
import BoundedMerge.Proofs.Strategy.Ordered

/-!
Strategies that join runs. How the output of a pass depends on its runs is a relation, and if runs
may be joined in groups first, it is also how the output of many passes depends on the runs that
they began with.
-/

namespace BoundedMerge

open SiteM

variable {π τ : Type}

namespace Strategy

/-- One run is joined already, and runs may be joined in groups first. -/
structure Joining (joins : List (List τ) → List τ → Prop) : Prop where
  nil : joins [] []
  single (run : List τ) : joins [run] run
  regroup {groups : List (List (List τ))} {outs : List (List τ)} {out : List τ} :
    List.Forall₂ joins groups outs → joins outs out → joins groups.flatten out

/-- Passes of the strategy succeed and write what `joins` the runs, as long as the strategy `fits`,
and it does so afterwards. -/
structure Merges [FixedWidth τ] [Strategy π τ] (ref : Site) (fits : π → Prop)
    (joins : List (List τ) → List τ → Prop) : Prop extends Joining joins where
  pass {b : Bench π τ} {contents runs : List (List τ)} {start : Reel τ} :
    fits b.strategy → b.Feeds contents runs → runs ≠ [] → b.output.Shows start →
    Yields ref ((Bench.mergePass : BenchM π τ Stats) b) fun res =>
      ∃ p out, fits p ∧ joins runs out ∧
        res.2.Stands contents start p (runs.map fun _ => []) out ∧
        res.1 = .ok ⟨1, runs.length, out.length, out.length⟩

/-- The counts of a pass that emitted all records. -/
theorem tally_of_perm {runs runs' : List (List τ)} {out : List τ} (hperm : out.Perm runs.flatten)
    (hempty : ∀ run ∈ runs', run = []) :
    Bench.tally (remaining runs) runs.length runs' out =
      ⟨1, runs.length, out.length, out.length⟩ := by
  rw [Bench.tally, remaining_of_empty hempty, Nat.sub_zero, hperm.length_eq, List.length_flatten,
    remaining]

theorem eq_map_nil {runs runs' : List (List τ)} (hlength : runs'.length = runs.length)
    (hempty : ∀ run ∈ runs', run = []) : runs' = runs.map fun _ => [] := by
  rw [List.map_const', List.eq_replicate_iff]
  exact ⟨hlength, hempty⟩

end Strategy

variable [FixedWidth τ] [LawfulFixedWidth τ] {ref : Site}

omit [LawfulFixedWidth τ] in
theorem Bench.Stands.length_eq {b b' : Bench π τ} {contents runs runs' : List (List τ)}
    {start : Reel τ} {p : π} {out : List τ} (h : b'.Stands contents start p runs' out)
    (hfeeds : b.Feeds contents runs) : runs'.length = runs.length := by
  rw [← hfeeds.length_eq, h.feeds.length_eq, List.length_map]

namespace Ordered

/-- The records in some order; if the comparison is a total preorder and the runs are in order,
in the order of their stable sort. -/
def Joins (cmp : τ → τ → Ordering) (runs : List (List τ)) (out : List τ) : Prop :=
  out.Perm runs.flatten ∧
    (Std.TransCmp cmp → (∀ run ∈ runs, Ascending cmp run) → out = stableSort cmp runs.flatten)

omit [FixedWidth τ] [LawfulFixedWidth τ] in
theorem joining (cmp : τ → τ → Ordering) : Strategy.Joining (Joins cmp) where
  nil := ⟨List.Perm.refl _, fun _ _ => by simp [stableSort]⟩
  single run := by
    rw [Joins, List.flatten_singleton]
    exact ⟨List.Perm.refl _, fun _ hrun => (stableSort_of_ascending (hrun run (by simp))).symm⟩
  regroup := by
    intro groups outs out hgroups hout
    have hperm : outs.flatten.Perm groups.flatten.flatten := by
      clear hout
      induction hgroups with
      | nil => exact List.Perm.refl _
      | cons hgroup _ ih =>
        rw [List.flatten_cons, List.flatten_cons, List.flatten_append]
        exact hgroup.1.append ih
    refine ⟨hout.1.trans hperm, fun hc hruns => ?_⟩
    have houts : outs = (groups.map List.flatten).map (stableSort cmp) := by
      clear hout hperm
      induction hgroups with
      | nil => rfl
      | cons hgroup _ ih =>
        rw [List.map_cons, List.map_cons]
        simp only [List.flatten_cons, List.mem_append] at hruns
        rw [hgroup.2 hc fun run hrun => hruns run (.inl hrun),
          ih fun run hrun => hruns run (.inr hrun)]
    have hascending : ∀ run ∈ outs, Ascending cmp run := by
      intro run hrun
      rw [houts] at hrun
      obtain ⟨piece, -, rfl⟩ := List.mem_map.mp hrun
      exact stableSort_ascending piece
    rw [hout.2 hc hascending, houts, stableSort_flatten_map, List.flatten_flatten]

theorem merges (first : Ordered τ) :
    Strategy.Merges ref first.Kin (Joins first.cmp) where
  toJoining := joining first.cmp
  pass := by
    intro b contents runs start hkin hfeeds hruns hshows
    refine (yields_mergePass hkin hfeeds hruns hshows).mono ?_
    rintro ⟨_, b'⟩ ⟨outcome, p, runs', out, ⟨rfl, hkin', hempty, hperm, hstable⟩, hstands, rfl⟩
    refine ⟨p, out, hkin', ⟨hperm, hstable⟩, ?_, ?_⟩
    · rw [← Strategy.eq_map_nil (hstands.length_eq hfeeds) hempty]
      exact hstands
    · rw [Strategy.tally_of_perm hperm hempty]
      rfl

end Ordered

namespace Interleave

variable {γ : Type} [WordSource γ]

omit [FixedWidth τ] [LawfulFixedWidth τ] in
theorem joining : Strategy.Joining (Interleaves (τ := τ)) where
  nil := Interleaves.nil
  single := Interleaves.single
  regroup := Interleaves.regroup

/-- The source of words only ever moves on. -/
theorem merges_from (first : γ) : Strategy.Merges ref
    (fun p : Interleave γ => WordSource.Reaches first p.source) (Interleaves (τ := τ)) where
  toJoining := joining
  pass := by
    intro b contents runs start hfirst hfeeds hruns hshows
    apply (yields_mergePass hfirst hfeeds hruns hshows).mono
    intro res hres
    obtain ⟨outcome, p, runs', out, ⟨rfl, hsource, hempty, hjoins⟩, hstands, hok⟩ := hres
    refine ⟨p, out, hsource, hjoins, ?_, ?_⟩
    · rw [← Strategy.eq_map_nil (hstands.length_eq hfeeds) hempty]
      exact hstands
    · rw [hok, Strategy.tally_of_perm hjoins.perm hempty]
      rfl

theorem merges :
    Strategy.Merges ref (fun _ : Interleave γ => True) (Interleaves (τ := τ)) where
  toJoining := joining
  pass := by
    intro b contents runs start _ hfeeds hruns hshows
    apply ((merges_from b.strategy.source).pass .here hfeeds hruns hshows).mono
    intro res hres
    obtain ⟨p, out, -, hjoins, hstands, hok⟩ := hres
    exact ⟨p, out, trivial, hjoins, hstands, hok⟩

end Interleave

end BoundedMerge
