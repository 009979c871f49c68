import BoundedMerge.Merge.Passes
import BoundedMerge.Proofs.Merge.Plan
import BoundedMerge.Proofs.Strategy.Joining
import Mathlib.Algebra.Order.Floor.Div

/-!
A merge in many passes. Each pass replaces the runs by fewer ones, each of which joins a group of
those before, so that the last pass joins all of them. The one thing that can go wrong, where the
storage works, is that memory runs out when a pass is planned.
-/

namespace BoundedMerge

open SiteM

variable {α β π τ : Type}

section

theorem groupsOf_ne_nil (size : Nat) (xs : List α) : ∀ group ∈ groupsOf size xs, group ≠ [] := by
  induction xs using groupsOf.induct size with
  | case1 => simp [groupsOf]
  | case2 x xs ih =>
    rw [groupsOf]
    intro group hgroup
    rcases List.mem_cons.mp hgroup with rfl | hgroup
    · exact List.cons_ne_nil _ _
    · exact ih group hgroup

/-- A group of `size` elements, or of all there are, leaves one group fewer. -/
theorem groups_rest {size count rest : Nat} (hsize : 0 < size) (hcount : 0 < count)
    (hrest : rest + min size count = count) :
    (count + size - 1) / size = (rest + size - 1) / size + 1 := by
  by_cases hfull : size ≤ count
  · rw [show count + size - 1 = rest + size - 1 + size by omega, Nat.add_div_right _ hsize]
  · have hlast : count - 1 < size := by omega
    have hnone : rest + size - 1 < size := by omega
    rw [show count + size - 1 = count - 1 + size by omega, Nat.add_div_right _ hsize,
      Nat.div_eq_of_lt hlast, Nat.div_eq_of_lt hnone]

/-- As many groups as it takes. -/
theorem length_groupsOf {size : Nat} (h : 0 < size) (xs : List α) :
    (groupsOf size xs).length = (xs.length + size - 1) / size := by
  induction xs using groupsOf.induct size with
  | case1 => simp [groupsOf, Nat.div_eq_of_lt (Nat.sub_lt h Nat.one_pos)]
  | case2 x xs ih =>
    have hrest : xs.length - (size - 1) + min size (xs.length + 1) = xs.length + 1 := by omega
    rw [groupsOf, List.length_cons, ih, List.length_drop, List.length_cons,
      groups_rest h (Nat.succ_pos _) hrest]

/-- It takes fewer groups of two or more than there are elements. -/
theorem groups_lt {size count : Nat} (hsize : 1 < size) (h : 1 < count) :
    (count + size - 1) / size < count := by
  rw [Nat.div_lt_iff_lt_mul (by omega)]
  have hsum := Nat.add_le_mul hsize h
  rw [Nat.mul_comm] at hsum
  omega

theorem one_lt_groups {size count : Nat} (hsize : 0 < size) (h : size < count) :
    1 < (count + size - 1) / size :=
  (Nat.le_div_iff_mul_le hsize).mpr (by omega)

/-- Fewer elements in larger groups make no more groups. -/
theorem groups_le {size size' count count' : Nat} (hsize : 0 < size) (hle : size ≤ size')
    (hcount : count' ≤ count) : (count' + size' - 1) / size' ≤ (count + size - 1) / size := by
  rw [← Nat.ceilDiv_eq_add_pred_div, ← Nat.ceilDiv_eq_add_pred_div,
    ceilDiv_le_iff_le_mul (by omega)]
  calc
    count' ≤ count := hcount
    _ ≤ size * (count ⌈/⌉ size) := (ceilDiv_le_iff_le_mul hsize).mp (Nat.le_refl _)
    _ ≤ size' * (count ⌈/⌉ size) := Nat.mul_le_mul_right _ hle

theorem length_groupsOf_lt {size : Nat} {xs : List α} (hsize : 1 < size) (h : 1 < xs.length) :
    (groupsOf size xs).length < xs.length := by
  rw [length_groupsOf (by omega)]
  exact groups_lt hsize h

theorem forall₂_groupsOf {R : α → β → Prop} (size : Nat) {xs : List α} {ys : List β}
    (h : List.Forall₂ R xs ys) :
    List.Forall₂ (List.Forall₂ R) (groupsOf size xs) (groupsOf size ys) := by
  induction xs using groupsOf.induct size generalizing ys with
  | case1 =>
    cases h
    rw [groupsOf, groupsOf]
    exact .nil
  | case2 x xs ih =>
    cases h with
    | cons hhead htail =>
      rw [groupsOf, groupsOf]
      exact .cons (.cons hhead (List.forall₂_take _ htail)) (ih (List.forall₂_drop _ htail))

end

/-- A plan is for two inputs at least, or for all there are. -/
theorem Plan.arity_cases (available fixed perInput runs : Nat) :
    Plan.arity available fixed perInput runs =
        .error (.insufficientMemory available (fixed + 2 * perInput)) ∨
      ∃ affordable, 1 < affordable ∧
        Plan.arity available fixed perInput runs = .ok (min affordable runs) := by
  unfold Plan.arity
  simp only
  split
  · exact .inl rfl
  · exact .inr ⟨_, by omega, rfl⟩

theorem Plan.lacks_of_arity {available fixed perInput runs : Nat} {e : MergeError}
    (hper : 0 < perInput) (h : Plan.arity available fixed perInput runs = .error e) :
    e.Lacks (fixed + 2 * perInput) := by
  unfold Plan.arity at h
  simp only at h
  split at h
  · next hfew =>
    cases h
    have hshort := (Nat.div_lt_iff_lt_mul hper).mp hfew.2
    exact ⟨available, by omega, rfl⟩
  · cases h

/-- A batch of the planned size is afforded. -/
theorem Plan.capacity_le {available fixed recordSize n : Nat}
    (h : Plan.capacity available fixed recordSize = .ok n) :
    0 < n ∧ fixed + n * recordSize ≤ available := by
  unfold Plan.capacity at h
  simp only at h
  split at h
  · cases h
  · next hsome =>
    cases h
    have hdiv := Nat.div_mul_le_self (available - fixed) recordSize
    have hfixed : fixed < available := by
      refine Nat.lt_of_not_le fun hle => hsome ?_
      rw [Nat.sub_eq_zero_of_le hle, Nat.zero_div]
    exact ⟨Nat.pos_of_ne_zero hsome, by omega⟩

variable [FixedWidth τ] {ref : Site}

def Tape.Leaves (t : Tape τ) (rest : List τ) : Prop := ∃ r : Reel τ, t.Shows r ∧ r.rest = rest

/-- Tapes that leave runs feed a merge of the runs. -/
theorem Bench.exists_feeds {tapes : List (Tape τ)} {runs : List (List τ)} (target : Target π τ)
    (h : List.Forall₂ Tape.Leaves tapes runs) :
    ∃ contents, Feeds { target with inputs := tapes.toArray : Bench π τ } contents runs := by
  have hcontents : ∃ contents : List (List τ), contents.length = runs.length ∧
      ∀ (i : Nat) t content rest, tapes[i]? = some t → contents[i]? = some content →
        runs[i]? = some rest → t.Feeds content rest := by
    induction h with
    | nil => exact ⟨[], rfl, by simp⟩
    | cons hhead _ ih =>
      obtain ⟨r, hshows, hrest⟩ := hhead
      obtain ⟨contents, hlength, hfeeds⟩ := ih
      refine ⟨r.records :: contents, by rw [List.length_cons, List.length_cons, hlength], ?_⟩
      intro i t content rest ht hcontent hrun
      cases i with
      | zero =>
        simp only [List.getElem?_cons_zero, Option.some.injEq] at ht hcontent hrun
        exact ⟨r, ht ▸ hshows, hcontent, hrest.trans hrun⟩
      | succ i => exact hfeeds i t content rest ht hcontent hrun
  obtain ⟨contents, hlength, hfeeds⟩ := hcontents
  refine ⟨contents, ?_, hlength, ?_⟩
  · exact h.length_eq
  · intro i t content rest ht
    exact hfeeds i t content rest (by simpa using ht)

theorem Bench.Feeds.shows {b : Bench π τ} {contents rests : List (List τ)}
    (h : b.Feeds contents rests) : ∀ t ∈ b.inputs.toList, ∃ r, t.Shows r := by
  intro t ht
  obtain ⟨i, hi, rfl⟩ := List.mem_iff_getElem.mp ht
  have hget : b.inputs[i]? = some b.inputs.toList[i] := by
    rw [← Array.getElem?_toList, List.getElem?_eq_getElem hi]
  rw [Array.length_toList, h.size_eq] at hi
  have hi' : i < contents.length := by rwa [h.length_eq]
  obtain ⟨r, hshows, -⟩ := h.input i _ _ _ hget (List.getElem?_eq_getElem hi')
    (List.getElem?_eq_getElem hi)
  exact ⟨r, hshows⟩

theorem Tape.shows_of_leaves {tapes : List (Tape τ)} {runs : List (List τ)}
    (h : List.Forall₂ Tape.Leaves tapes runs) : ∀ t ∈ tapes, ∃ r, t.Shows r := by
  induction h with
  | nil => simp
  | cons hhead _ ih =>
    intro t ht
    rcases List.mem_cons.mp ht with rfl | ht
    · exact ⟨hhead.choose, hhead.choose_spec.1⟩
    · exact ih t ht

theorem Tape.yields_measure (hwidth : 0 < FixedWidth.width τ) (blockSize : Nat) :
    Yields ref (measure τ blockSize) fun _ => True := by
  unfold measure
  rw [if_neg (by omega)]
  exact (Yields.count _).bind fun _ _ => Meets.pure trivial

namespace Merger

variable [LawfulFixedWidth τ]

theorem yields_closeAll (tapes : List (Tape τ)) (h : ∀ t ∈ tapes, ∃ r, t.Shows r) :
    Yields ref (closeAll tapes) fun _ => True := by
  induction tapes with
  | nil => exact Meets.pure trivial
  | cons tape tapes ih =>
    obtain ⟨r, hshows⟩ := h tape List.mem_cons_self
    rw [closeAll]
    exact (Tape.yields_close hshows).bind fun _ _ => ih fun t ht => h t (List.mem_cons_of_mem _ ht)

theorem yields_releaseAll {tapes : List (Tape τ)} {runs : List (List τ)}
    (h : List.Forall₂ Tape.Leaves tapes runs) :
    Yields ref (releaseAll tapes) fun out =>
      out.1 = .ok () ∧ List.Forall₂ Tape.Leaves out.2 runs := by
  induction h with
  | nil => exact Meets.pure ⟨rfl, .nil⟩
  | cons hhead _ ih =>
    obtain ⟨r, hshows, hrest⟩ := hhead
    rw [releaseAll]
    refine Meets.bind (Tape.turns_releaseBlock hshows) ?_
    rintro ⟨_, tape⟩ ⟨rfl, hshows', -⟩
    refine ih.bind ?_
    rintro ⟨_, tapes⟩ ⟨rfl, htapes⟩
    exact Meets.pure ⟨rfl, .cons ⟨r, hshows', hrest⟩ htapes⟩

omit [LawfulFixedWidth τ] in
theorem yields_newTape (m : Merger) (hwidth : 0 < FixedWidth.width τ)
    (hscratch : ref.scratch.Sound) :
    Yields ref (m.newTape τ) fun out => ∃ t : Tape τ, out = .ok t ∧ t.Shows Reel.empty := by
  unfold newTape
  refine (Tape.yields_temporary hwidth hscratch m.blockSize).bind ?_
  rintro _ ⟨t, rfl, hshows, -⟩
  exact Meets.pure ⟨t, rfl, hshows⟩

variable [Strategy π τ] {fits : π → Prop} {joins : List (List τ) → List τ → Prop}

omit [LawfulFixedWidth τ] in
theorem yields_arity (m : Merger) (p : π) (hwidth : 0 < FixedWidth.width τ) (runs : Nat) :
    Yields ref (m.arity τ p runs) fun out =>
      (∃ e, out = .error e ∧ e.Lacks (m.mergeSpace τ p)) ∨
        ∃ affordable, 1 < affordable ∧ out = .ok (min affordable runs) := by
  unfold arity
  refine (Tape.yields_measure hwidth m.blockSize).bind fun _ _ => ?_
  refine (Yields.count _).bind fun _ _ => ?_
  refine Yields.get.bind fun site _ => ?_
  unfold orCount
  rcases Plan.arity_cases site.ledger.available (m.fixedSpace τ p) (m.inputSpace τ p) runs with
    hplan | ⟨affordable, hmany, hplan⟩
  · have hlacks := Plan.lacks_of_arity (Nat.succ_pos _) hplan
    rw [hplan]
    exact (Yields.count _).bind fun _ _ => Meets.pure (.inl ⟨_, rfl, hlacks⟩)
  · rw [hplan]
    exact Meets.pure (.inr ⟨affordable, hmany, rfl⟩)

/-- A group is joined into one run, and its tapes are closed. -/
theorem yields_mergeGroup (m : Merger) (hmerges : Strategy.Merges ref fits joins)
    (hwidth : 0 < FixedWidth.width τ) (hscratch : ref.scratch.Sound) {p : π} (hfits : fits p)
    {group : List (Tape τ)} {runs : List (List τ)} (h : List.Forall₂ Tape.Leaves group runs)
    (hruns : runs ≠ []) :
    Yields ref ((m.mergeGroup group : StrategyM π (Stats × Tape τ)) p) fun res =>
      ∃ stats run out, res.1 = .ok (stats, run) ∧ run.Leaves out ∧ joins runs out ∧
        fits res.2 := by
  unfold mergeGroup
  simp only [Work.run_bind, Work.run_liftM, bind_assoc, pure_bind]
  refine (m.yields_newTape hwidth hscratch).bind ?_
  rintro _ ⟨output, rfl, houtput⟩
  simp only [Work.run_bind, Work.run_get, Work.run_liftM, bind_assoc, pure_bind]
  obtain ⟨contents, hfeeds⟩ := Bench.exists_feeds { output, strategy := p : Target π τ } h
  have hpass : Yields ref ((mergeGroup.pass : BenchM π τ Stats)
      { output, strategy := p, inputs := group.toArray }) fun res =>
        ∃ stats out r, res.1 = .ok stats ∧ joins runs out ∧ fits res.2.strategy ∧
          res.2.output.Shows r ∧ r.rest = out ∧ ∀ t ∈ res.2.inputs.toList, ∃ r, t.Shows r := by
    unfold mergeGroup.pass
    refine Meets.run_bind (hmerges.pass hfits hfeeds hruns houtput) ?_ ?_
    · rintro stats b ⟨p', out, hfits', hjoins, hstands, -⟩
      have hrewind : Yields ref ((do Tape.seek 0; Tape.releaseBlock : TapeM τ Unit) b.output)
          fun out' => out'.1 = .ok () ∧
            out'.2.Shows (((Reel.empty (τ := τ)).writeArray out).seek 0).2 := by
        refine (Tape.Turns.bind (Tape.turns_seek hstands.shows 0) fun t ht =>
          Tape.turns_releaseBlock ht).mono fun _ h => ⟨h.1, h.2.1⟩
      refine Meets.run_bind (Bench.yields_onOutput (P := fun t => t.Shows _) hrewind) ?_ ?_
      · rintro _ b' ⟨-, hshows, hstrategy, hinputs⟩
        refine Meets.pure ⟨stats, out, _, rfl, hjoins, ?_, hshows, ?_, ?_⟩
        · rw [hstrategy, hstands.strategy_eq]
          exact hfits'
        · simp [Reel.seek, Reel.rest, Reel.writeArray, Reel.empty]
        · rw [hinputs]
          exact hstands.feeds.shows
      · rintro e b' ⟨h, -⟩
        cases h
    · rintro e b ⟨p', out, -, -, -, h⟩
      cases h
  refine hpass.bind ?_
  rintro ⟨_, b⟩ ⟨stats, out, r, rfl, hjoins, hfits', hshows, hrest, hinputs⟩
  simp only [Work.run_bind, Work.run_set, Work.run_liftM, bind_assoc, pure_bind]
  refine (yields_closeAll _ hinputs).bind fun _ _ => ?_
  exact Meets.pure ⟨stats, b.output, out, rfl, ⟨r, hshows, hrest⟩, hjoins, hfits'⟩

/-- Each group is joined into one run. -/
theorem yields_mergeGroups (m : Merger) (hmerges : Strategy.Merges ref fits joins)
    (hwidth : 0 < FixedWidth.width τ) (hscratch : ref.scratch.Sound) {p : π} (hfits : fits p)
    {groups : List (List (Tape τ))} {parts : List (List (List τ))} {merged : List (Tape τ)}
    {done : List (List τ)} (h : List.Forall₂ (List.Forall₂ Tape.Leaves) groups parts)
    (hparts : ∀ part ∈ parts, part ≠ []) (hmerged : List.Forall₂ Tape.Leaves merged done) :
    Yields ref ((m.mergeGroups merged groups : StrategyM π (Stats × List (Tape τ))) p)
      fun res => ∃ stats tapes outs, res.1 = .ok (stats, tapes) ∧
        List.Forall₂ Tape.Leaves tapes (done ++ outs) ∧ List.Forall₂ joins parts outs ∧
        fits res.2 := by
  induction h generalizing p merged done with
  | nil =>
    refine Meets.pure ⟨{}, merged, [], rfl, ?_, .nil, hfits⟩
    rw [List.append_nil]
    exact hmerged
  | @cons group part groups parts hgroup hgroups ih =>
    have hrest {q : π} {run : Tape τ} {out : List τ} (hq : fits q) (hrun : run.Leaves out) :=
      ih hq (fun part hpart => hparts part (List.mem_cons_of_mem _ hpart))
        (List.rel_append hmerged (.cons hrun .nil))
    by_cases hone : ∃ run, group = [run]
    · obtain ⟨run, rfl⟩ := hone
      obtain ⟨out, hrun, rfl⟩ : ∃ out, run.Leaves out ∧ part = [out] := by
        cases hgroup with
        | cons hrun hnil =>
          cases hnil
          exact ⟨_, hrun, rfl⟩
      rw [mergeGroups]
      refine (hrest hfits hrun).mono ?_
      rintro res ⟨stats, tapes, outs, hres, htapes, hjoins, hfits'⟩
      refine ⟨stats, tapes, out :: outs, hres, ?_, .cons (hmerges.single out) hjoins, hfits'⟩
      rw [List.append_assoc] at htapes
      exact htapes
    · rw [mergeGroups]
      swap
      · exact fun run hrun => hone ⟨run, hrun⟩
      have hjoined := m.yields_mergeGroup hmerges hwidth hscratch hfits hgroup
        (hparts part List.mem_cons_self)
      refine Meets.run_bind (Meets.run_tryCatch_of_ok hjoined ?_) ?_ ?_
      · rintro e q ⟨stats, run, out, h, -⟩
        cases h
      rotate_left
      · rintro e q ⟨stats, run, out, h, -⟩
        cases h
      rintro ⟨stats, run⟩ q ⟨_, _, out, ⟨⟩, hrun, hjoins, hq⟩
      refine Meets.run_bind (hrest hq hrun) ?_ (by rintro e q ⟨stats, tapes, outs, h, -⟩; cases h)
      rintro ⟨rest, tapes⟩ q' ⟨_, _, outs, ⟨⟩, htapes, hjoins', hq'⟩
      refine Meets.pure ⟨_, tapes, out :: outs, rfl, ?_, .cons hjoins hjoins', hq'⟩
      rw [List.append_assoc] at htapes
      exact htapes

variable {target : Target π τ} {start : Reel τ}

/-- All runs are joined onto the output. -/
theorem yields_mergeLast (hmerges : Strategy.Merges ref fits joins) (hfits : fits target.strategy)
    {tapes : List (Tape τ)} {runs : List (List τ)} (h : List.Forall₂ Tape.Leaves tapes runs)
    (hruns : runs ≠ []) (hshows : target.output.Shows start) :
    Yields ref ((mergeLast tapes : MergeM π τ Stats) target) fun res =>
      ∃ stats out, res.1 = .ok stats ∧ joins runs out ∧ fits res.2.strategy ∧
        res.2.output.Shows (start.writeArray out) := by
  obtain ⟨contents, hfeeds⟩ := Bench.exists_feeds target h
  unfold mergeLast
  simp only [Work.run_bind, Work.run_get, Work.run_set, Work.run_liftM, bind_assoc, pure_bind]
  refine (hmerges.pass (b := { target with inputs := tapes.toArray }) hfits hfeeds hruns
    hshows).bind ?_
  rintro ⟨_, b⟩ ⟨p, out, hfits', hjoins, hstands, rfl⟩
  refine (yields_closeAll _ hstands.feeds.shows).bind fun _ _ => ?_
  refine Meets.pure ⟨_, out, rfl, hjoins, ?_, hstands.shows⟩
  rw [hstands.strategy_eq]
  exact hfits'

/-- What a merge of `runs` may come to: they are joined behind `start`, or a pass could not be
planned and the output is as it was. -/
def Comes (m : Merger) (fits : π → Prop) (joins : List (List τ) → List τ → Prop) (start : Reel τ)
    (runs : List (List τ)) (res : Except MergeError Stats × Target π τ) : Prop :=
  fits res.2.strategy ∧
    ((∃ e, res.1 = .error e ∧ e.Lacks (m.mergeSpace τ res.2.strategy) ∧
        res.2.output.Shows start) ∨
      ∃ stats out, res.1 = .ok stats ∧ joins runs out ∧
        res.2.output.Shows (start.writeArray out))

/-- A pass that is not the last joins each group of `size` runs, and leaves the output alone. -/
theorem yields_regroup (m : Merger) (hmerges : Strategy.Merges ref fits joins)
    (hwidth : 0 < FixedWidth.width τ) (hscratch : ref.scratch.Sound) (hfits : fits target.strategy)
    (size : Nat) {tapes : List (Tape τ)} {runs : List (List τ)}
    (h : List.Forall₂ Tape.Leaves tapes runs) :
    Yields ref ((Target.onStrategy (m.mergeGroups [] (groupsOf size tapes)) :
      MergeM π τ (Stats × List (Tape τ))) target) fun res =>
        ∃ stats tapes outs, res.1 = .ok (stats, tapes) ∧ List.Forall₂ Tape.Leaves tapes outs ∧
          List.Forall₂ joins (groupsOf size runs) outs ∧ fits res.2.strategy ∧
          res.2.output = target.output := by
  refine (Target.meets_onStrategy (m.yields_mergeGroups hmerges hwidth hscratch hfits
    (forall₂_groupsOf size h) (groupsOf_ne_nil size runs) .nil)).mono ?_
  rintro res ⟨⟨stats, tapes, outs, hres, htapes, hjoins, hfits'⟩, houtput⟩
  exact ⟨stats, tapes, outs, hres, htapes, hjoins, hfits', houtput⟩

theorem yields_mergeWithin (m : Merger) (hmerges : Strategy.Merges ref fits joins)
    (hwidth : 0 < FixedWidth.width τ) (hscratch : ref.scratch.Sound) (stats : Stats)
    (passes : Nat) (hfits : fits target.strategy) {tapes : List (Tape τ)} {runs : List (List τ)}
    (h : List.Forall₂ Tape.Leaves tapes runs) (hruns : runs ≠ []) (hpasses : runs.length ≤ passes)
    (hshows : target.output.Shows start) :
    Yields ref ((m.mergeWithin stats tapes passes : MergeM π τ Stats) target)
      (m.Comes fits joins start runs) := by
  induction passes generalizing target stats tapes runs with
  | zero => exact absurd (List.eq_nil_of_length_eq_zero (Nat.le_zero.mp hpasses)) hruns
  | succ passes ih =>
    rw [mergeWithin]
    simp only [Work.run_bind, Work.run_get, Work.run_liftM, bind_assoc, pure_bind]
    refine (m.yields_arity target.strategy hwidth tapes.length).bind ?_
    rintro _ (⟨e, rfl, hlacks⟩ | ⟨affordable, hmany, rfl⟩)
    · simp only [Work.run_bind, Work.run_liftM, bind_assoc, pure_bind]
      refine (yields_closeAll _ (Tape.shows_of_leaves h)).bind fun _ _ => ?_
      exact Meets.pure ⟨hfits, .inl ⟨e, rfl, hlacks, hshows⟩⟩
    · simp only
      by_cases hlast : tapes.length ≤ min affordable tapes.length
      · rw [if_pos hlast]
        apply Yields.run_report
        refine Meets.run_bind (yields_mergeLast hmerges hfits h hruns hshows) ?_
          (by rintro e t ⟨stats, out, h, -⟩; cases h)
        rintro last t ⟨_, out, ⟨⟩, hjoins, hfits', hshows'⟩
        exact Meets.pure ⟨hfits', .inr ⟨_, out, rfl, hjoins, hshows'⟩⟩
      · rw [if_neg hlast]
        have hsize : min affordable tapes.length = affordable := by omega
        rw [hsize] at hlast ⊢
        have hlength := h.length_eq
        apply Yields.run_report
        refine Meets.run_bind (m.yields_regroup hmerges hwidth hscratch hfits affordable h) ?_
          (by rintro e t ⟨stats, tapes, outs, h, -⟩; cases h)
        rintro ⟨pass, tapes'⟩ target' ⟨_, _, outs, ⟨⟩, htapes, hjoins, hfits', houtput⟩
        simp only at houtput hfits'
        rw [← houtput] at hshows
        have hlengths := hjoins.length_eq
        have hfewer := length_groupsOf_lt hmany (show 1 < runs.length by omega)
        have hsome : outs ≠ [] := by
          rintro rfl
          rw [List.length_nil, List.length_eq_zero_iff] at hlengths
          rw [← flatten_groupsOf affordable runs, hlengths] at hruns
          exact hruns rfl
        refine (ih _ hfits' htapes hsome (by omega) hshows).mono ?_
        rintro res ⟨hfits'', hres⟩
        refine ⟨hfits'', hres.imp id ?_⟩
        rintro ⟨stats, out, hstats, hjoins', hout⟩
        refine ⟨stats, out, hstats, ?_, hout⟩
        rw [← flatten_groupsOf affordable runs]
        exact hmerges.regroup hjoins hjoins'

/-- A merge joins the runs behind the cursor of the output, however many passes it takes, or there
is too little memory and the output is left alone. -/
theorem yields_merge (m : Merger) (hmerges : Strategy.Merges ref fits joins)
    (hwidth : 0 < FixedWidth.width τ) (hscratch : ref.scratch.Sound) (hfits : fits target.strategy)
    {tapes : List (Tape τ)} {runs : List (List τ)} (h : List.Forall₂ Tape.Leaves tapes runs)
    (hshows : target.output.Shows start) :
    Yields ref ((m.merge tapes : MergeM π τ Stats) target) (m.Comes fits joins start runs) := by
  unfold merge
  cases h with
  | nil =>
    refine Meets.pure ⟨hfits, .inr ⟨{}, [], rfl, hmerges.nil, ?_⟩⟩
    rw [Reel.writeArray_nil]
    exact hshows
  | @cons tape run tapes runs hhead htail =>
    rw [if_neg (by simp)]
    have htapes : List.Forall₂ Tape.Leaves (tape :: tapes) (run :: runs) := .cons hhead htail
    refine Meets.run_bind (Meets.run_liftM (Q := fun out => ∃ tapes', out =
      (.ok (.ok (), tapes'), target) ∧ List.Forall₂ Tape.Leaves tapes' (run :: runs)) ?_) ?_
      (by rintro e t ⟨tapes', h, -⟩; cases h)
    · refine (yields_releaseAll htapes).mono ?_
      rintro ⟨_, tapes'⟩ ⟨rfl, htapes'⟩
      exact ⟨tapes', rfl, htapes'⟩
    rintro _ _ ⟨tapes', ⟨⟩, htapes'⟩
    exact m.yields_mergeWithin hmerges hwidth hscratch _ _ hfits htapes' (List.cons_ne_nil _ _)
      (by rw [htapes'.length_eq]) hshows

end Merger

end BoundedMerge
