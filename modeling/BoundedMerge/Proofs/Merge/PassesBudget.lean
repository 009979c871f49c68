import BoundedMerge.Proofs.Merge.Budget
import BoundedMerge.Proofs.Merge.Passes

/-!
What a merge pays for. The plan of a pass is made for what is available then, with the selection
of the group before still held. A group holds at most a block of each run, one of its output and
one selection, so what was planned for is never exceeded. Between passes the tapes hold nothing,
and the selection of the last group is all that remains.
-/

namespace BoundedMerge

open SiteM

variable {α π τ : Type} {ref : Site} {size used rest : Nat}

theorem length_le_of_mem_groupsOf (hsize : 0 < size) {xs group : List α}
    (h : group ∈ groupsOf size xs) : group.length ≤ size := by
  induction xs using groupsOf.induct size with
  | case1 => simp [groupsOf] at h
  | case2 x xs ih =>
    rw [groupsOf] at h
    rcases List.mem_cons.mp h with rfl | h
    · rw [List.length_cons, List.length_take]
      omega
    · exact ih h

/-- What does not fit in one group takes two at least. -/
theorem one_lt_length_groupsOf (hsize : 0 < size) {xs : List α} (h : size < xs.length) :
    1 < (groupsOf size xs).length := by
  rw [length_groupsOf hsize]
  exact one_lt_groups hsize h

/-- A plan is afforded. -/
theorem Plan.arity_le {available fixed perInput runs k : Nat} (hruns : 1 < runs)
    (h : Plan.arity available fixed perInput runs = .ok k) :
    1 < k ∧ k ≤ runs ∧ fixed + k * perInput ≤ available := by
  unfold Plan.arity at h
  simp only at h
  split at h
  · cases h
  · next hmany =>
    cases h
    have hdiv := Nat.div_mul_le_self (available - fixed) perInput
    have hk : min (max ((available - fixed) / perInput) 2) runs ≤
        (available - fixed) / perInput := by
      omega
    have hspace := (Nat.mul_le_mul_right perInput hk).trans hdiv
    have hfixed : fixed < available := by
      refine Nat.lt_of_not_le fun hle => ?_
      rw [Nat.sub_eq_zero_of_le hle, Nat.zero_div] at hmany
      omega
    refine ⟨by omega, by omega, ?_⟩
    omega

variable [FixedWidth τ]

namespace Tape

/-- Blocks of the tape have `size` bytes, and it holds none. -/
def Parked (size : Nat) (t : Tape τ) : Prop := t.blockSize = size ∧ t.block = none

theorem Parked.owes {t : Tape τ} (h : t.Parked size) : t.Owes ref size :=
  Owes.of_none h.1 h.2

theorem heldAll_of_parked {tapes : List (Tape τ)} (h : ∀ t ∈ tapes, t.Parked size) :
    heldAll tapes = 0 := by
  induction tapes with
  | nil => rfl
  | cons t tapes ih =>
    rw [heldAll_cons, ih fun t ht => h t (List.mem_cons_of_mem _ ht),
      held_of_none (h t List.mem_cons_self).2]

theorem tallies_measure (blockSize : Nat) :
    Tallies ref used (measure τ blockSize) fun _ used' => used' = used := by
  unfold measure
  split
  · exact (Tallies.halt (Q := fun _ _ => False) (by simp)).bind fun _ _ h => h.elim
  · refine (Tallies.count _).bind ?_
    rintro _ _ rfl
    exact Tallies.pure rfl

end Tape

namespace Merger

def blockBytes (τ : Type) [FixedWidth τ] (m : Merger) : Nat :=
  Tape.itemsPerBlock (FixedWidth.width τ) m.blockSize * FixedWidth.width τ

theorem tallies_closeAll (tapes : List (Tape τ)) (h : ∀ t ∈ tapes, t.Owes ref size) :
    Tallies ref (rest + Tape.heldAll tapes) (closeAll tapes) fun _ used => used = rest := by
  induction tapes with
  | nil => exact Tallies.pure rfl
  | cons tape tapes ih =>
    rw [closeAll, Tape.heldAll_cons, show rest + (tape.held + Tape.heldAll tapes) =
      rest + Tape.heldAll tapes + tape.held by omega]
    refine (Tape.tallies_close (h tape List.mem_cons_self)).bind ?_
    rintro _ _ rfl
    exact ih fun t ht => h t (List.mem_cons_of_mem _ ht)

theorem tallies_closeParked {tapes : List (Tape τ)} (h : ∀ t ∈ tapes, t.Parked size) :
    Tallies ref used (closeAll tapes) fun _ used' => used' = used := by
  have hclose : Tallies ref (used + Tape.heldAll tapes) (closeAll tapes) fun _ used' =>
      used' = used := tallies_closeAll tapes fun t ht => (h t ht).owes
  rwa [Tape.heldAll_of_parked h, Nat.add_zero] at hclose

/-- Runs that hold no block are closed for nothing before an error is passed on. -/
theorem tallies_abandon {σ : Type} {tapes : List (Tape τ)} (h : ∀ t ∈ tapes, t.Parked size)
    (e : MergeError) {s : σ} :
    Tallies ref used ((do
      closeAll tapes
      throw e : ExceptT MergeError (StateT σ SiteM) α) s) fun out used' =>
        used' = used ∧ out = (.error e, s) := by
  simp only [Work.run_bind, Work.run_liftM, bind_assoc, pure_bind]
  refine (tallies_closeParked h).bind ?_
  rintro _ _ rfl
  exact Tallies.pure ⟨rfl, rfl⟩

/-- If all tapes can be flushed, none holds a block any more. -/
theorem tallies_releaseAll (tapes : List (Tape τ)) (h : ∀ t ∈ tapes, t.Owes ref size) :
    Tallies ref (rest + Tape.heldAll tapes) (releaseAll tapes) fun out used =>
      used = rest + Tape.heldAll out.2 ∧ (∀ t ∈ out.2, t.Owes ref size) ∧
        out.2.length = tapes.length ∧ (out.1 = .ok () → ∀ t ∈ out.2, t.Parked size) := by
  induction tapes generalizing rest with
  | nil => exact Tallies.pure ⟨rfl, by simp, rfl, by simp⟩
  | cons tape tapes ih =>
    have htapes : ∀ t ∈ tapes, t.Owes ref size := fun t ht => h t (List.mem_cons_of_mem _ ht)
    rw [releaseAll, Tape.heldAll_cons, show rest + (tape.held + Tape.heldAll tapes) =
      rest + Tape.heldAll tapes + tape.held by omega]
    refine (Tape.tallies_releaseBlock (h tape List.mem_cons_self)).bind ?_
    rintro ⟨e | _, tape'⟩ _ ⟨rfl, howes, hreleased⟩
    · refine Tallies.pure ⟨?_, ?_, rfl, by rintro ⟨⟩⟩
      · rw [Tape.heldAll_cons]
        simp only
        omega
      · intro t ht
        rcases List.mem_cons.mp ht with rfl | ht
        · exact howes
        · exact htapes t ht
    · have hparked : tape'.Parked size := ⟨howes.blockSize_eq, hreleased rfl⟩
      simp only [Tape.held_of_none hparked.2, Nat.add_zero]
      refine (ih htapes).bind ?_
      rintro ⟨outcome, tapes'⟩ _ ⟨rfl, howes', hlength, hparked'⟩
      refine Tallies.pure ⟨?_, ?_, ?_, ?_⟩
      · rw [Tape.heldAll_cons, Tape.held_of_none hparked.2, Nat.zero_add]
      · intro t ht
        rcases List.mem_cons.mp ht with rfl | ht
        · exact howes
        · exact howes' t ht
      · rw [List.length_cons, List.length_cons, hlength]
      · intro hok t ht
        rcases List.mem_cons.mp ht with rfl | ht
        · exact hparked
        · exact hparked' hok t ht

theorem tallies_newTape (m : Merger) :
    Tallies ref used (m.newTape τ) fun out used' => used' = used ∧
      ∀ tape, out = .ok tape → tape.Parked (m.blockBytes τ) := by
  unfold newTape Tape.temporary
  refine Tallies.bind (P := fun out used' => used' = used ∧
    ∀ tape, out = .ok tape → tape.Parked (m.blockBytes τ)) ?_ ?_
  · refine Tallies.newFile.bind ?_
    rintro (e | disk) _ rfl
    · exact Tallies.pure ⟨rfl, by rintro _ ⟨⟩⟩
    · refine (Tallies.assert _ _).bind ?_
      rintro _ _ rfl
      refine Tallies.pure ⟨rfl, ?_⟩
      rintro _ ⟨⟩
      exact ⟨rfl, rfl⟩
  · rintro (e | tape) _ ⟨rfl, hparked⟩
    · cases e <;> exact Tallies.pure ⟨rfl, by rintro _ ⟨⟩⟩
    · refine Tallies.pure ⟨rfl, ?_⟩
      rintro _ ⟨⟩
      exact hparked tape rfl

theorem tallies_orCount (plan : Except MergeError Nat) :
    Tallies ref used (orCount plan) fun out used' => used' = used ∧ out = plan := by
  unfold orCount
  split
  · refine (Tallies.count _).bind ?_
    rintro _ _ rfl
    exact Tallies.pure ⟨rfl, rfl⟩
  · exact Tallies.pure ⟨rfl, rfl⟩

omit [FixedWidth τ] in
/-- A plan is made for the bytes that are available. -/
theorem tallies_plan (plan : Nat → Except MergeError Nat) :
    Tallies ref used (do orCount (plan (← get).ledger.available)) fun out used' => used' = used ∧
      out = plan (ref.ledger.limit - used) := by
  refine Tallies.get.bind ?_
  rintro site _ ⟨hsite, rfl⟩
  refine (tallies_orCount _).mono ?_
  rintro _ _ ⟨rfl, rfl⟩
  rw [Ledger.available, hsite.like.limit, hsite.used_eq]
  exact ⟨rfl, rfl⟩

variable [Strategy π τ] {sound : π → Prop} {heap : π → Nat} {overhead node : Nat}

theorem tallies_arity (m : Merger) (p : π) (runs : Nat) :
    Tallies ref used (m.arity τ p runs) fun out used' => used' = used ∧
      out = Plan.arity (ref.ledger.limit - used) (m.fixedSpace τ p) (m.inputSpace τ p) runs := by
  unfold arity
  refine (Tape.tallies_measure _).bind ?_
  rintro _ _ rfl
  refine (Tallies.count _).bind ?_
  rintro _ _ rfl
  exact tallies_plan fun available => Plan.arity available _ _ runs

/-- The pass of a group is paid for as that of any bench. Its run is wound back, and it holds no
block. -/
theorem tallies_pass (hleases : Strategy.Leases τ ref sound heap overhead node) {b : Bench π τ}
    {arity : Nat} (hsolvent : b.Solvent ref size arity sound) (harity : 0 < arity)
    (hroom : rest + max (heap b.strategy) (ref.charged (node * arity)) +
      (arity + 1) * ref.charged size ≤ ref.ledger.limit) :
    Tallies ref (rest + heap b.strategy + b.held) ((mergeGroup.pass : BenchM π τ Stats) b)
      fun out used => used = rest + heap out.2.strategy + out.2.held ∧
        out.2.Solvent ref size arity sound ∧
        (heap out.2.strategy = heap b.strategy ∨
          heap out.2.strategy = ref.charged (node * arity)) ∧
        ∀ stats, out.1 = .ok stats → out.2.output.Parked size ∧
          heap out.2.strategy = ref.charged (node * arity) := by
  unfold mergeGroup.pass
  refine Tallies.run_bind (Bench.tallies_mergePass hleases hsolvent harity hroom) ?_ ?_
  · rintro stats b _ ⟨rfl, hb, -, hheap⟩
    replace hheap := hheap stats rfl
    simp only at hb hheap ⊢
    have hrewind : Tallies ref (rest + heap b.strategy + Tape.heldAll b.inputs.toList +
        b.output.held) ((do Tape.seek 0; Tape.releaseBlock : TapeM τ Unit) b.output)
        fun out used => used = rest + heap b.strategy + Tape.heldAll b.inputs.toList +
          out.2.held ∧ out.2.Owes ref size ∧ (out.1 = .ok () → out.2.block = none) := by
      refine Tallies.run_bind (Tape.pays_seek 0 _ hb.output) ?_ ?_
      · rintro _ t _ ⟨rfl, ht⟩
        exact Tape.tallies_releaseBlock ht
      · rintro e t _ ⟨rfl, ht⟩
        exact ⟨rfl, ht, by rintro ⟨⟩⟩
    simp only [Bench.onTarget, Target.onOutput, Work.run_bind, Work.run_get, Work.run_liftM,
      Work.run_modify, bind_assoc, pure_bind, Bench.held, ← Nat.add_assoc]
    refine hrewind.bind ?_
    rintro ⟨e | _, t⟩ _ ⟨rfl, ht, hnone⟩
    · exact Tallies.pure ⟨rfl, ⟨hb.inputs_size, hb.inputs, ht, hb.strategy⟩, .inr hheap,
        by rintro _ ⟨⟩⟩
    · exact Tallies.pure ⟨rfl, ⟨hb.inputs_size, hb.inputs, ht, hb.strategy⟩, .inr hheap,
        fun _ _ => ⟨⟨ht.blockSize_eq, hnone rfl⟩, hheap⟩⟩
  · rintro e b _ ⟨rfl, hb, hheap, -⟩
    exact ⟨rfl, hb, hheap, by rintro _ ⟨⟩⟩

/-- What remains of a group: its run, if it could be joined, and the selection. -/
theorem tallies_mergeGroup (m : Merger) (hleases : Strategy.Leases τ ref sound heap overhead node)
    {p : π} (hp : sound p) {group : List (Tape τ)} (hgroup : ∀ t ∈ group, t.Parked (m.blockBytes τ))
    (hne : group ≠ [])
    (hroom : rest + max (heap p) (ref.charged (node * group.length)) +
      (group.length + 1) * ref.charged (m.blockBytes τ) ≤ ref.ledger.limit) :
    Tallies ref (rest + heap p) ((m.mergeGroup group : StrategyM π (Stats × Tape τ)) p)
      fun out used => used = rest + heap out.2 ∧ sound out.2 ∧
        (heap out.2 = heap p ∨ heap out.2 = ref.charged (node * group.length)) ∧
        ∀ stats run, out.1 = .ok (stats, run) → run.Parked (m.blockBytes τ) ∧
          heap out.2 = ref.charged (node * group.length) := by
  unfold mergeGroup
  simp only [Work.run_bind, Work.run_liftM, bind_assoc, pure_bind]
  refine m.tallies_newTape.bind ?_
  rintro (e | output) _ ⟨rfl, houtput⟩
  · simp only [Work.run_bind, Work.run_liftM, bind_assoc, pure_bind]
    refine (tallies_closeParked hgroup).bind ?_
    rintro _ _ rfl
    exact Tallies.pure ⟨rfl, hp, .inl rfl, by rintro _ _ ⟨⟩⟩
  replace houtput := houtput output rfl
  simp only [Work.run_bind, Work.run_get, Work.run_liftM, bind_assoc, pure_bind]
  have hsolvent : Bench.Solvent ref (m.blockBytes τ) group.length sound
      { output, strategy := p, inputs := group.toArray : Bench π τ } :=
    ⟨List.size_toArray, fun t ht => (hgroup t (by simpa using ht)).owes, houtput.owes, hp⟩
  have hnothing :
      Bench.held { output, strategy := p, inputs := group.toArray : Bench π τ } = 0 := by
    have hinputs : ∀ t ∈ group.toArray.toList, t.Parked (m.blockBytes τ) := hgroup
    rw [Bench.held, Tape.heldAll_of_parked hinputs, Tape.held_of_none houtput.2]
  have hpass := tallies_pass hleases hsolvent (List.length_pos_iff.mpr hne) hroom
  rw [hnothing, Nat.add_zero] at hpass
  refine hpass.bind ?_
  rintro ⟨outcome, b⟩ _ ⟨rfl, hb, hheap, hok⟩
  simp only [Work.run_set, pure_bind] at hb hheap hok ⊢
  rw [Bench.held, show rest + heap b.strategy + (Tape.heldAll b.inputs.toList + b.output.held) =
    rest + heap b.strategy + Tape.heldAll b.inputs.toList + b.output.held by omega]
  cases outcome with
  | ok stats =>
    obtain ⟨hparked, hnodes⟩ := hok stats rfl
    simp only [Work.run_bind, Work.run_liftM, bind_assoc, pure_bind]
    rw [Tape.held_of_none hparked.2, Nat.add_zero]
    refine (tallies_closeAll _ hb.inputs).bind ?_
    rintro _ _ rfl
    refine Tallies.pure ⟨rfl, hb.strategy, .inr hnodes, ?_⟩
    rintro _ _ ⟨⟩
    exact ⟨hparked, hnodes⟩
  | error e =>
    simp only [Work.run_bind, Work.run_liftM, bind_assoc, pure_bind]
    refine (Tape.tallies_close hb.output).bind ?_
    rintro _ _ rfl
    refine (tallies_closeAll _ hb.inputs).bind ?_
    rintro _ _ rfl
    exact Tallies.pure ⟨rfl, hb.strategy, hheap, by rintro _ _ ⟨⟩⟩

/-- What a selection of the strategy is charged after groups of these sizes: that for the last
group of two runs or more. -/
def heapAfter (ref : Site) (node heap : Nat) : List Nat → Nat
  | [] => heap
  | count :: counts =>
    heapAfter ref node (if count = 1 then heap else ref.charged (node * count)) counts

/-- One group of a pass that can be afforded. If its run cannot be joined, the runs of the pass
that stand before it and after it are closed. -/
theorem tallies_joinGroup (m : Merger) (hleases : Strategy.Leases τ ref sound heap overhead node)
    {p : π} (hp : sound p) {top : Nat} {group : List (Tape τ)} {groups : List (List (Tape τ))}
    {merged : List (Tape τ)} (hgroup : ∀ t ∈ group, t.Parked (m.blockBytes τ)) (hne : group ≠ [])
    (hgroups : ∀ t ∈ groups.flatten, t.Parked (m.blockBytes τ))
    (hmerged : ∀ t ∈ merged, t.Parked (m.blockBytes τ)) (hheap : heap p ≤ top)
    (hnodes : ref.charged (node * group.length) ≤ top)
    (hroom : rest + top + (group.length + 1) * ref.charged (m.blockBytes τ) ≤ ref.ledger.limit) :
    Tallies ref (rest + heap p)
      ((tryCatch (m.mergeGroup group) fun e => do
        closeAll groups.flatten
        closeAll merged
        throw e : StrategyM π (Stats × Tape τ)) p)
      fun out used => used = rest + heap out.2 ∧ sound out.2 ∧ heap out.2 ≤ top ∧
        ∀ stats run, out.1 = .ok (stats, run) → run.Parked (m.blockBytes τ) ∧
          heap out.2 = ref.charged (node * group.length) := by
  refine Tallies.run_tryCatch (m.tallies_mergeGroup hleases hp hgroup hne (by omega)) ?_ ?_
  · rintro out q _ ⟨rfl, hsound, -, hok⟩
    refine ⟨rfl, hsound, ?_, hok⟩
    rw [(hok out.1 out.2 rfl).2]
    exact hnodes
  · rintro e q _ ⟨rfl, hsound, hor, -⟩
    simp only [Work.run_bind, Work.run_liftM, bind_assoc, pure_bind]
    refine (tallies_closeParked hgroups).bind ?_
    rintro _ _ rfl
    refine (tallies_closeParked hmerged).bind ?_
    rintro _ _ rfl
    refine Tallies.pure ⟨rfl, hsound, ?_, by rintro _ _ ⟨⟩⟩
    simp only at hor ⊢
    omega

/-- A pass never needs more than a group of `arity` runs. -/
theorem tallies_mergeGroups (m : Merger) (hleases : Strategy.Leases τ ref sound heap overhead node)
    {p : π} (hp : sound p) {arity top : Nat} {groups : List (List (Tape τ))}
    {merged : List (Tape τ)}
    (hgroups : ∀ group ∈ groups, group ≠ [] ∧ group.length ≤ arity ∧
      ∀ t ∈ group, t.Parked (m.blockBytes τ))
    (hmerged : ∀ t ∈ merged, t.Parked (m.blockBytes τ)) (hheap : heap p ≤ top)
    (hnodes : ref.charged (node * arity) ≤ top)
    (hroom : rest + top + (arity + 1) * ref.charged (m.blockBytes τ) ≤ ref.ledger.limit) :
    Tallies ref (rest + heap p)
      ((m.mergeGroups merged groups : StrategyM π (Stats × List (Tape τ))) p)
      fun out used => used = rest + heap out.2 ∧ sound out.2 ∧ heap out.2 ≤ top ∧
        ∀ stats tapes, out.1 = .ok (stats, tapes) → (∀ t ∈ tapes, t.Parked (m.blockBytes τ)) ∧
          tapes.length = merged.length + groups.length ∧
          heap out.2 = heapAfter ref node (heap p) (groups.map List.length) := by
  induction groups generalizing p merged with
  | nil =>
    refine Tallies.pure ⟨rfl, hp, hheap, ?_⟩
    rintro _ _ ⟨⟩
    exact ⟨hmerged, rfl, rfl⟩
  | cons group groups ih =>
    obtain ⟨⟨hne, harity, hgroup⟩, hlater⟩ := List.forall_mem_cons.mp hgroups
    have hadded {run : Tape τ} (hrun : run.Parked (m.blockBytes τ)) :
        ∀ t ∈ merged ++ [run], t.Parked (m.blockBytes τ) :=
      List.forall_mem_append.mpr ⟨hmerged, List.forall_mem_singleton.mpr hrun⟩
    have hcount (run : Tape τ) :
        (merged ++ [run]).length + groups.length = merged.length + (group :: groups).length := by
      rw [List.length_append, List.length_cons, List.length_cons, List.length_nil]
      omega
    by_cases hone : ∃ run, group = [run]
    · obtain ⟨run, rfl⟩ := hone
      rw [mergeGroups]
      refine (ih hp hlater (hadded (hgroup run List.mem_cons_self)) hheap).mono ?_
      rintro out used ⟨hused, hsound, hle, hok⟩
      refine ⟨hused, hsound, hle, fun stats tapes h => ?_⟩
      obtain ⟨hparked, hlength, hafter⟩ := hok stats tapes h
      exact ⟨hparked, hlength.trans (hcount run), hafter⟩
    · rw [mergeGroups]
      swap
      · exact fun run hrun => hone ⟨run, hrun⟩
      have hmany : group.length ≠ 1 := fun h => hone (List.length_eq_one_iff.mp h)
      have hcharged : ref.charged (node * group.length) ≤ top :=
        (ref.charged_mono (Nat.mul_le_mul_left node harity)).trans hnodes
      have hblocks : (group.length + 1) * ref.charged (m.blockBytes τ) ≤
          (arity + 1) * ref.charged (m.blockBytes τ) :=
        Nat.mul_le_mul_right _ (Nat.succ_le_succ harity)
      have hflatten : ∀ t ∈ groups.flatten, t.Parked (m.blockBytes τ) :=
        List.forall_mem_flatten.mpr fun group hmem => (hlater group hmem).2.2
      refine Tallies.run_bind (m.tallies_joinGroup hleases hp hgroup hne hflatten hmerged hheap
        hcharged (by omega)) ?_ ?_
      · rintro ⟨stats, run⟩ q _ ⟨rfl, hsound, hle, hok⟩
        obtain ⟨hrun, hnow⟩ := hok stats run rfl
        refine Tallies.run_bind (ih hsound hlater (hadded hrun) hle) ?_ ?_
        · rintro ⟨others, tapes⟩ q' _ ⟨rfl, hsound', hle', hok'⟩
          obtain ⟨hparked, hlength, hafter⟩ := hok' others tapes rfl
          refine Tallies.pure ⟨rfl, hsound', hle', ?_⟩
          rintro _ _ ⟨⟩
          refine ⟨hparked, hlength.trans (hcount run), ?_⟩
          rw [hafter, hnow, List.map_cons, heapAfter, if_neg hmany]
        · rintro e q' _ ⟨rfl, hsound', hle', -⟩
          exact ⟨rfl, hsound', hle', by rintro _ _ ⟨⟩⟩
      · rintro e q _ ⟨rfl, hsound, hle, -⟩
        exact ⟨rfl, hsound, hle, by rintro _ _ ⟨⟩⟩

omit [Strategy π τ] in
theorem charged_blockBytes_le (m : Merger) : ref.charged (m.blockBytes τ) ≤ m.tapeSpace τ := by
  refine (ref.charged_le _).trans ?_
  unfold blockBytes tapeSpace Tape.memoryUsage
  omega

/-- Whatever a strategy holds, a plan reckons with the same space for it and for an input. -/
theorem planned_of_leases (m : Merger) (hleases : Strategy.Leases τ ref sound heap overhead node)
    {p : π} (hp : sound p) : m.fixedSpace τ p = overhead + m.tapeSpace τ ∧
      m.inputSpace τ p = m.tapeSpace τ + node + 1 := by
  rw [fixedSpace, inputSpace, hleases.overhead_eq p hp, hleases.perInput_eq p hp]
  exact ⟨rfl, rfl⟩

/-- What was planned for is enough for a group of as many runs. -/
theorem room_of_arity (m : Merger) (hleases : Strategy.Leases τ ref sound heap overhead node)
    {p : π} (hp : sound p) {held runs arity : Nat} (hruns : 1 < runs)
    (hfits : rest + heap p + held ≤ ref.ledger.limit)
    (hplan : Plan.arity (ref.ledger.limit - (rest + heap p + held)) (m.fixedSpace τ p)
      (m.inputSpace τ p) runs = .ok arity) :
    1 < arity ∧ arity ≤ runs ∧
      rest + held + max (heap p) (ref.charged (node * arity)) +
        (arity + 1) * ref.charged (m.blockBytes τ) ≤ ref.ledger.limit := by
  obtain ⟨hmany, hle, hspace⟩ := Plan.arity_le hruns hplan
  refine ⟨hmany, hle, ?_⟩
  have hblock : ref.charged (m.blockBytes τ) ≤ m.tapeSpace τ := m.charged_blockBytes_le
  have hnodes : ref.charged (node * arity) ≤ arity * node :=
    (ref.charged_le _).trans_eq (Nat.mul_comm _ _)
  have hinput : arity * (ref.charged (m.blockBytes τ) + node) ≤ arity * m.inputSpace τ p := by
    refine Nat.mul_le_mul_left _ ?_
    rw [(m.planned_of_leases hleases hp).2]
    omega
  have hfixed : ref.charged (m.blockBytes τ) ≤ m.fixedSpace τ p := by
    rw [fixedSpace]
    omega
  rw [Nat.mul_add] at hinput
  rw [Nat.succ_mul]
  omega

variable {target : Target π τ}

/-- The last pass merges onto the output, which may hold a block before. -/
theorem tallies_mergeLast (hleases : Strategy.Leases τ ref sound heap overhead node)
    (hp : sound target.strategy) (houtput : target.output.Owes ref size) {runs : List (Tape τ)}
    (hruns : ∀ t ∈ runs, t.Parked size) (hne : runs ≠ [])
    (hroom : rest + max (heap target.strategy) (ref.charged (node * runs.length)) +
      (runs.length + 1) * ref.charged size ≤ ref.ledger.limit) :
    Tallies ref (rest + heap target.strategy + target.output.held)
      ((mergeLast runs : MergeM π τ Stats) target) fun out used =>
        used = rest + heap out.2.strategy + out.2.output.held ∧ sound out.2.strategy ∧
          out.2.output.Owes ref size := by
  have hsolvent : Bench.Solvent ref size runs.length sound
      { target with inputs := runs.toArray : Bench π τ } :=
    ⟨List.size_toArray, fun t ht => (hruns t (by simpa using ht)).owes, houtput, hp⟩
  have hmerge := Bench.tallies_mergePass hleases hsolvent (List.length_pos_iff.mpr hne) hroom
  have hinputs : ∀ t ∈ runs.toArray.toList, t.Parked size := hruns
  rw [Bench.held, Tape.heldAll_of_parked hinputs, Nat.zero_add] at hmerge
  unfold mergeLast
  simp only [Work.run_bind, Work.run_get, Work.run_set, Work.run_liftM, bind_assoc, pure_bind]
  refine hmerge.bind ?_
  rintro ⟨outcome, b⟩ _ ⟨rfl, hb, -, -⟩
  simp only [Bench.held]
  rw [show rest + heap b.strategy + (Tape.heldAll b.inputs.toList + b.output.held) =
    rest + heap b.strategy + b.output.held + Tape.heldAll b.inputs.toList by omega]
  refine (tallies_closeAll _ hb.inputs).bind ?_
  rintro _ _ rfl
  cases outcome with
  | ok stats => exact Tallies.pure ⟨rfl, hb.strategy, hb.output⟩
  | error e => exact Tallies.pure ⟨rfl, hb.strategy, hb.output⟩

/-- Groups of runs that hold no block, none larger than the plan. -/
theorem parked_groupsOf {arity : Nat} (harity : 0 < arity) {runs : List (Tape τ)}
    (h : ∀ t ∈ runs, t.Parked size) :
    ∀ group ∈ groupsOf arity runs, group ≠ [] ∧ group.length ≤ arity ∧
      ∀ t ∈ group, t.Parked size := by
  intro group hgroup
  refine ⟨groupsOf_ne_nil arity runs group hgroup, length_le_of_mem_groupsOf harity hgroup, ?_⟩
  intro t ht
  refine h t ?_
  rw [← flatten_groupsOf arity runs]
  exact List.mem_flatten.mpr ⟨group, hgroup, ht⟩

/-- A pass that is not the last leaves one run for each group, and the strategy with what it was
charged for the last of two runs or more. -/
theorem tallies_regroup (m : Merger) (hleases : Strategy.Leases τ ref sound heap overhead node)
    (hp : sound target.strategy) {runs : List (Tape τ)}
    (hruns : ∀ t ∈ runs, t.Parked (m.blockBytes τ)) {arity : Nat} (harity : 0 < arity)
    (hroom : rest + target.output.held +
      max (heap target.strategy) (ref.charged (node * arity)) +
        (arity + 1) * ref.charged (m.blockBytes τ) ≤ ref.ledger.limit) :
    Tallies ref (rest + heap target.strategy + target.output.held)
      ((Target.onStrategy (m.mergeGroups [] (groupsOf arity runs)) :
        MergeM π τ (Stats × List (Tape τ))) target) fun out used =>
        used = rest + heap out.2.strategy + target.output.held ∧ sound out.2.strategy ∧
          out.2.output = target.output ∧ ∀ pass tapes, out.1 = .ok (pass, tapes) →
            (∀ t ∈ tapes, t.Parked (m.blockBytes τ)) ∧
            tapes.length = (groupsOf arity runs).length ∧
            heap out.2.strategy = heapAfter ref node (heap target.strategy)
              ((groupsOf arity runs).map List.length) := by
  have hnone : ∀ t ∈ ([] : List (Tape τ)), t.Parked (m.blockBytes τ) := by simp
  have hgroups := m.tallies_mergeGroups hleases hp (parked_groupsOf harity hruns) hnone
    (Nat.le_max_left _ _) (Nat.le_max_right _ _) hroom
  rw [show rest + target.output.held + heap target.strategy =
    rest + heap target.strategy + target.output.held by omega] at hgroups
  unfold Target.onStrategy
  simp only [Work.run_bind, Work.run_get, Work.run_liftM, Work.run_modify, bind_assoc, pure_bind]
  refine hgroups.bind ?_
  rintro ⟨outcome, p⟩ _ ⟨rfl, hsound, -, hok⟩
  cases outcome with
  | error e => exact Tallies.pure ⟨by simp only; omega, hsound, rfl, by rintro _ _ ⟨⟩⟩
  | ok out =>
    obtain ⟨hparked, hlength, hafter⟩ := hok out.1 out.2 rfl
    refine Tallies.pure ⟨by simp only; omega, hsound, rfl, ?_⟩
    rintro _ _ ⟨⟩
    refine ⟨hparked, ?_, hafter⟩
    rw [hlength, List.length_nil, Nat.zero_add]

/-- However many passes it takes, a merge of two runs or more stays within the limit. -/
theorem tallies_mergeWithin (m : Merger) (hleases : Strategy.Leases τ ref sound heap overhead node)
    (stats : Stats) (passes : Nat) (hp : sound target.strategy)
    (houtput : target.output.Owes ref (m.blockBytes τ)) {runs : List (Tape τ)}
    (hruns : ∀ t ∈ runs, t.Parked (m.blockBytes τ)) (hmany : 1 < runs.length) :
    Tallies ref (rest + heap target.strategy + target.output.held)
      ((m.mergeWithin stats runs passes : MergeM π τ Stats) target) fun out used =>
        used = rest + heap out.2.strategy + out.2.output.held ∧ sound out.2.strategy ∧
          out.2.output.Owes ref (m.blockBytes τ) := by
  induction passes generalizing target stats runs with
  | zero => exact Tallies.run_liftM (Tallies.halt (by simp))
  | succ passes ih =>
    rw [mergeWithin]
    simp only [Work.run_bind, Work.run_get, Work.run_liftM, bind_assoc, pure_bind]
    refine Tallies.of_le fun hused => ?_
    refine (m.tallies_arity target.strategy runs.length).bind ?_
    rintro plan _ ⟨rfl, hplan⟩
    cases plan with
    | error e =>
      refine (tallies_abandon hruns e).mono ?_
      rintro _ _ ⟨rfl, rfl⟩
      exact ⟨rfl, hp, houtput⟩
    | ok arity =>
      obtain ⟨harity, hle, hroom⟩ := m.room_of_arity hleases hp hmany hused hplan.symm
      simp only
      split
      · next hlast =>
        obtain rfl : arity = runs.length := Nat.le_antisymm hle hlast
        apply Tallies.run_report rfl
        refine Tallies.run_bind (tallies_mergeLast hleases hp houtput hruns
          (List.length_pos_iff.mp (by omega)) (by omega)) ?_ (fun _ _ _ hout => hout)
        rintro last t _ hout
        exact Tallies.pure hout
      · next hlast =>
        apply Tallies.run_report rfl
        refine Tallies.run_bind (m.tallies_regroup hleases hp hruns (by omega) hroom) ?_ ?_
        · rintro ⟨pass, tapes⟩ t _ ⟨rfl, hsound, heq, hok⟩
          obtain ⟨hparked, hlength, -⟩ := hok pass tapes rfl
          have hmore := one_lt_length_groupsOf (show 0 < arity by omega) (Nat.lt_of_not_le hlast)
          simp only at heq
          rw [← heq] at houtput ⊢
          exact ih _ hsound houtput hparked (by rw [hlength]; exact hmore)
        · rintro e t _ ⟨rfl, hsound, heq, -⟩
          simp only at heq ⊢
          rw [← heq] at houtput ⊢
          exact ⟨rfl, hsound, houtput⟩

/-- Runs that hold blocks when the merge begins give them back first. -/
theorem tallies_merge (m : Merger) (hleases : Strategy.Leases τ ref sound heap overhead node)
    (hp : sound target.strategy) (houtput : target.output.Owes ref (m.blockBytes τ))
    {runs : List (Tape τ)} (hruns : ∀ t ∈ runs, t.Owes ref (m.blockBytes τ))
    (hmany : 1 < runs.length) :
    Tallies ref (rest + heap target.strategy + target.output.held + Tape.heldAll runs)
      ((m.merge runs : MergeM π τ Stats) target) fun out used =>
        used = rest + heap out.2.strategy + out.2.output.held ∧ sound out.2.strategy ∧
          out.2.output.Owes ref (m.blockBytes τ) := by
  have hempty : ¬runs.isEmpty = true := by
    rw [List.isEmpty_iff]
    rintro rfl
    simp at hmany
  unfold merge
  rw [if_neg hempty]
  refine Tallies.run_bind (Tallies.run_liftM (Q := fun out used => ∃ released, out =
    (.ok released, target) ∧ used = rest + heap target.strategy + target.output.held +
      Tape.heldAll released.2 ∧ (∀ t ∈ released.2, t.Owes ref (m.blockBytes τ)) ∧
      released.2.length = runs.length ∧
      (released.1 = .ok () → ∀ t ∈ released.2, t.Parked (m.blockBytes τ))) ?_) ?_
    (by rintro e t _ ⟨released, ⟨⟩, -⟩)
  · refine (tallies_releaseAll runs hruns).mono ?_
    rintro released _ ⟨rfl, howes, hlength, hparked⟩
    exact ⟨released, rfl, rfl, howes, hlength, hparked⟩
  rintro ⟨outcome, tapes⟩ _ _ ⟨_, ⟨⟩, rfl, howes, hlength, hparked⟩
  cases outcome with
  | error e =>
    simp only [Work.run_bind, Work.run_liftM, bind_assoc, pure_bind]
    refine (tallies_closeAll tapes howes).bind ?_
    rintro _ _ rfl
    exact Tallies.pure ⟨rfl, hp, houtput⟩
  | ok _ =>
    replace hparked := hparked rfl
    simp only at hlength hparked ⊢
    rw [Tape.heldAll_of_parked hparked, Nat.add_zero]
    exact m.tallies_mergeWithin hleases _ _ hp houtput hparked (by omega)

end Merger

end BoundedMerge
