import BoundedMerge.Proofs.Layout.Lawful
import BoundedMerge.Proofs.Layout.Order
import BoundedMerge.Proofs.Merge.Formation
import BoundedMerge.Proofs.Sorting.Quick

/-!
Sorting a tape. Whether the records fit in main memory or are merged from runs in many passes, the
output receives all of them in order. If no two different records compare equal there is one such
order, so neither the memory nor the size of a block shows in the output.
-/

namespace BoundedMerge

open SiteM

variable {τ : Type} {cmp : τ → τ → Ordering} {ref : Site}

/-- Without different records that compare equal, the ordered list of some records is unique. -/
theorem eq_stableSort_of_perm [Std.TransCmp cmp] [Std.LawfulEqCmp cmp] {xs out : List τ}
    (hperm : out.Perm xs) (hasc : Ascending cmp out) : out = stableSort cmp xs := by
  refine (hperm.trans (stableSort_perm cmp xs).symm).eq_of_pairwise ?_ hasc
    (stableSort_ascending xs)
  intro a b _ _ hab hba
  exact Std.LawfulEqCmp.eq_of_compare (Std.OrientedCmp.isLE_antisymm hab hba)

variable [FixedWidth τ]

namespace Ordered

/-- A run is sorted in main memory. -/
theorem arranges (first : Ordered τ) [Std.TransCmp first.cmp] :
    Strategy.Arranges ref first.Kin
      (fun xs ys => ys.Perm xs ∧ Ascending first.cmp ys) fun _ => False where
  arrange := by
    intro p xs hkin
    have : Std.TransCmp p.cmp := hkin.cmp_eq ▸ inferInstance
    obtain ⟨ys, hsort, hperm, hasc⟩ :=
      Sorting.sortBy_sorts p.cmp Sorting.defaultThreshold (p.pivots p.sorts) xs
    change Meets ref ((arrange xs : StrategyM (Ordered τ) (Array τ)) p) _ _
    unfold arrange
    simp only [Work.run_bind, Work.run_get, Work.run_set, Work.run_liftM, pure_bind, hsort,
      Site.demand]
    rw [hkin.cmp_eq] at hasc
    exact Meets.pure ⟨ys, rfl, ⟨hperm.toList, hasc⟩, hkin.cmp_eq, hkin.size_eq⟩
  close := by
    rintro ⟨cmp, handleSize, pivots, sorts, _ | s, lastTaken⟩ -
    · exact Meets.pure trivial
    · exact Yields.release s.lease

theorem Kin.mergeSpace_eq {first p : Ordered τ} (h : first.Kin p) (m : Merger) :
    m.mergeSpace τ p = m.mergeSpace τ first := by
  have hfixed : m.fixedSpace τ p = m.fixedSpace τ first := congrArg (· + m.tapeSpace τ) h.size_eq
  rw [Merger.mergeSpace, Merger.mergeSpace, hfixed]
  rfl

theorem Kin.runSpace_eq {first p : Ordered τ} (h : first.Kin p) (m : Merger) :
    m.runSpace τ p = m.runSpace τ first := by
  have hformation : m.formationSpace τ p = m.formationSpace τ first :=
    congrArg (· + 2 * m.tapeSpace τ) h.size_eq
  rw [Merger.runSpace, Merger.runSpace, hformation]

omit [FixedWidth τ] in
/-- Sorted pieces of the whole are joined into the whole, sorted. -/
theorem assembles [Std.TransCmp cmp] {whole out : List τ}
    (h : Merger.Assembles (Joins cmp) (fun xs ys => ys.Perm xs ∧ Ascending cmp ys) whole out) :
    out.Perm whole ∧ Ascending cmp out := by
  obtain ⟨pieces, runs, rfl, harranged, hperm, hstable⟩ := h
  have hruns : runs.flatten.Perm pieces.flatten ∧ ∀ run ∈ runs, Ascending cmp run := by
    clear hperm hstable
    induction harranged with
    | nil => exact ⟨List.Perm.refl _, by simp⟩
    | cons hhead _ ih =>
      rw [List.flatten_cons, List.flatten_cons]
      refine ⟨hhead.1.append ih.1, fun run hrun => ?_⟩
      rcases List.mem_cons.mp hrun with rfl | hrun
      · exact hhead.2
      · exact ih.2 run hrun
  refine ⟨hperm.trans hruns.1, ?_⟩
  rw [hstable inferInstance hruns.2]
  exact stableSort_ascending _

end Ordered

namespace Merger

variable {t : Transfer τ} {source start : Reel τ}

/-- What sorting `source` behind `start` with the strategy `p` comes to. The input still has its
records. The output shows all of them in order, in the one order that there is if no two different
records compare equal; or less memory was available than it takes to form a run or to merge two,
and the output is as it was. -/
def Sorts (m : Merger) (p : Ordered τ) (source start : Reel τ)
    (res : Except MergeError Stats × Transfer τ) : Prop :=
  (∃ after, res.2.input.Shows after ∧ after.records = source.records) ∧
    ((∃ e, res.1 = .error e ∧ (e.Lacks (m.runSpace τ p) ∨ e.Lacks (m.mergeSpace τ p)) ∧
        res.2.output.Shows start) ∨
      ∃ stats sorted, res.1 = .ok stats ∧ sorted.Perm source.records ∧ Ascending p.cmp sorted ∧
        (Std.LawfulEqCmp p.cmp → sorted = stableSort p.cmp source.records) ∧
        res.2.output.Shows (start.writeArray sorted))

variable [LawfulFixedWidth τ]

/-- Sorting with any strategy for the order, however much memory it says it needs. -/
theorem yields_processWith (m : Merger) (p : Ordered τ) [Std.TransCmp p.cmp]
    (hscratch : ref.scratch.Sound) (hinput : t.input.Shows source)
    (houtput : t.output.Shows start) : Yields ref (m.processWith p t) (m.Sorts p source start) := by
  unfold processWith
  simp only [Work.run_bind, Work.run_get, Work.run_set, Work.run_liftM, bind_assoc, pure_bind]
  have hfeeds : t.input.Feeds source.records source.rest := ⟨source, hinput, rfl, rfl⟩
  apply (m.meets_process (s := ⟨⟨t.output, p⟩, t.input⟩) (Ordered.merges p)
    (Ordered.arranges p) hinput.width_pos hscratch (.refl p) hfeeds houtput).bind
  intro out hout
  obtain ⟨outcome, s⟩ := out
  obtain ⟨hkin, ⟨rest, after, hafter, hrecords, -⟩, hends⟩ := hout
  simp only at hkin hafter hends ⊢
  rw [hkin.runSpace_eq, hkin.mergeSpace_eq] at hends
  apply ((Ordered.arranges p).close s.strategy hkin).bind
  intro _ _
  rcases hends with ⟨e, rfl, hlacks, hsame⟩ | ⟨stats, out, rfl, hassembles, hout⟩
  · exact Meets.pure ⟨⟨after, hafter, hrecords⟩, .inl ⟨e, rfl, hlacks, hsame⟩⟩
  · obtain ⟨hperm, hasc⟩ := Ordered.assembles hassembles
    exact Meets.pure ⟨⟨after, hafter, hrecords⟩, .inr ⟨stats, out, rfl, hperm, hasc,
      fun _ => eq_stableSort_of_perm hperm hasc, hout⟩⟩

/-- A sort writes all records of the input in order, from the first on, behind the place where the
cursor of the output was, whatever the memory and the sizes of the blocks are and whatever space the
strategy takes. The one way to fail is that memory is too little. -/
theorem sortBy_writes_sorted (m : Merger) (cmp : τ → τ → Ordering) [Std.TransCmp cmp]
    (handleSize : Nat) (pivots : Nat → Sorting.PivotChoice) (site : Site)
    (hscratch : site.scratch.Sound) (t : Transfer τ) (source start : Reel τ)
    (hinput : t.input.Shows source) (houtput : t.output.Shows start) :
    (m.sortBy cmp handleSize pivots t).Ensures site
      (fun res _ => m.Sorts { cmp, handleSize, pivots : Ordered τ } source start res)
      (fun halt _ => site.Excuses halt) := by
  have hsorts : Yields site (m.sortBy cmp handleSize pivots t) _ :=
    m.yields_processWith { cmp, handleSize, pivots : Ordered τ } hscratch hinput houtput
  exact (hsorts.ensures (Site.Like.refl site)).mono (fun _ _ h => h.1) (fun _ _ h => h)

/-- Five bytes behind two others, both cursors behind the second record. -/
def unsorted : Transfer Byte where
  input := { Tape.ofDisk (Disk.ofBytes (FixedWidth.encodeAll
    ([3#8, 1#8, 2#8, 1#8, 0#8] : List Byte))) none 2 with offset := 2 }
  output := { Tape.ofDisk (Disk.ofBytes (FixedWidth.encodeAll
    ([7#8, 8#8, 9#8] : List Byte))) none 2 with offset := 2 }

/-- The bytes are sorted with a strategy of 64 bytes. -/
theorem sortBy_writes_sorted_bytes :
    ∃ stats t after, (sortBy { blockSize := 2 } (compareOn fun x : Byte => x.toNat) 64
        (fun _ => Sorting.middlePivot) unsorted : SiteM _)
          { ledger := { limit := 900, policy := .abort } } = (.ok (.ok stats, t), after) ∧
      ∃ sorted, sorted.Perm ([3#8, 1#8, 2#8, 1#8, 0#8] : List Byte) ∧
        Ascending (compareOn fun x : Byte => x.toNat) sorted ∧
        t.output.Shows (Reel.writeArray sorted ⟨[7#8, 8#8, 9#8], 2, by decide⟩) := by
  have hout : ((sortBy { blockSize := 2 } (compareOn fun x : Byte => x.toNat) 64
      (fun _ => Sorting.middlePivot) unsorted : SiteM _)
        { ledger := { limit := 900, policy := .abort } } : Except Halt _ × Site).1.map Prod.fst =
      .ok (.ok ⟨0, 1, 5, 5⟩) := by
    decide +kernel
  have hsorts := sortBy_writes_sorted { blockSize := 2 } (compareOn fun x : Byte => x.toNat) 64
    (fun _ => Sorting.middlePivot) { ledger := { limit := 900, policy := .abort } }
    Scratch.sound_reliable unsorted ⟨[3#8, 1#8, 2#8, 1#8, 0#8], 2, by decide⟩
    ⟨[7#8, 8#8, 9#8], 2, by decide⟩
    ((Tape.shows_ofDisk width_byte_pos [3#8, 1#8, 2#8, 1#8, 0#8] none 2).move 2 (by decide))
    ((Tape.shows_ofDisk width_byte_pos [7#8, 8#8, 9#8] none 2).move 2 (by decide))
  obtain ⟨t, after, hrun, -, hends⟩ := hsorts.of_outcome hout
  rcases hends with ⟨e, he, -⟩ | ⟨stats, sorted, -, hperm, hasc, -, hshows⟩
  · cases he
  · exact ⟨_, t, after, hrun, sorted, hperm, hasc, hshows⟩

end Merger

end BoundedMerge
