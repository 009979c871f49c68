import BoundedMerge.Merge.Formation
import BoundedMerge.Proofs.Merge.Passes

/-!
Run formation. The input is cut into pieces, each piece is arranged and parked as a run, and the
runs are joined behind the cursor of the output. An input that is arranged at once is the case of
one piece. Where the storage works, nothing goes wrong but that memory runs out, and then the
output is left alone; a strategy that arranges may halt for reasons of its own.
-/

namespace BoundedMerge

open SiteM

variable {π τ : Type} {ref : Site}

section

variable [FixedWidth τ]

/-- The strategy arranges whatever it is given, as long as it `fits`, unless it halts for one of
the reasons `H`, and it can be closed. -/
structure Strategy.Arranges [Strategy π τ] (ref : Site) (fits : π → Prop)
    (arranged : List τ → List τ → Prop) (H : Halt → Prop) : Prop where
  arrange (p : π) (xs : Array τ) : fits p →
    Meets ref ((Strategy.arrange xs : StrategyM π (Array τ)) p) (fun res =>
      ∃ ys, res.1 = .ok ys ∧ arranged xs.toList ys.toList ∧ fits res.2) H
  close (p : π) : fits p → Yields ref (Strategy.close τ p) fun _ => True

end

namespace Batch

variable [FixedWidth τ] {t : Tape τ} {r : Reel τ}

theorem yields_new (capacity : Nat) :
    Yields ref (new capacity : SiteM (Batch τ)) fun b => b.capacity = capacity := by
  unfold new
  exact (Yields.count _).bind fun _ _ => (Yields.take _).bind fun lease _ =>
    (Yields.provide _).bind fun _ _ => Meets.pure rfl

variable [LawfulFixedWidth τ]

/-- The batch takes the next records of the tape. -/
theorem yields_pull (b : Batch τ) (count : Nat) (h : t.Shows r)
    (hle : r.offset + count ≤ r.records.length) (hroom : b.items.size + count ≤ b.capacity) :
    Yields ref ((b.pull count : TapeM τ (Except TapeError Unit × Batch τ)) t) fun res =>
      res.1 = .ok (.ok (), { b with items := b.items ++ (r.rest.take count).toArray }) ∧
        res.2.Shows (r.skip count hle) := by
  induction count generalizing b t r with
  | zero => exact Meets.pure ⟨by simp, h⟩
  | succ count ih =>
    have hend : r.offset < r.records.length := by omega
    have hread : Yields ref ((Tape.read : TapeM τ τ) t) fun out =>
        out.1 = .ok r.records[r.offset] ∧ out.2.Shows (r.skip 1 hend) := by
      have hturns : t.Turns ref Tape.read r.read.1 r.read.2 := Tape.turns_read h
      rw [Reel.read, dif_pos hend] at hturns
      exact hturns.mono fun _ h => ⟨h.1, h.2.1⟩
    have hfull : b.isFull = false := by
      simp only [isFull, decide_eq_false_iff_not]
      omega
    rw [pull]
    unfold pull.observing
    simp only [Work.run_bind, Work.run_tryCatch, Work.run_map, bind_assoc]
    refine hread.bind ?_
    rintro ⟨_, t'⟩ ⟨rfl, hshows⟩
    simp only [pure_bind, Work.run_bind, Work.run_liftM, push, hfull, Site.assert, Bool.not_false,
      if_true]
    have hsize : (b.items.push r.records[r.offset]).size = b.items.size + 1 := Array.size_push _
    refine (ih { b with items := b.items.push r.records[r.offset] } hshows
      (by rw [Reel.skip_offset, Reel.skip_records]; omega) (by simp only [hsize]; omega)).mono ?_
    rintro ⟨_, t''⟩ ⟨rfl, hshows'⟩
    refine ⟨?_, ?_⟩
    · simp only [Reel.rest, Reel.skip]
      rw [List.drop_eq_getElem_cons hend, List.take_succ_cons]
      simp
    · simp only [Reel.skip] at hshows' ⊢
      simpa only [Nat.add_assoc, Nat.add_comm 1] using hshows'

end Batch

namespace Source

variable {α : Type} {s : Source π τ}

theorem meets_onTarget {work : MergeM π τ α} {P : Except MergeError α × Target π τ → Prop}
    {H : Halt → Prop} (h : Meets ref (work s.toTarget) P H) :
    Meets ref ((onTarget work : SourceM π τ α) s) (fun out =>
      P (out.1, out.2.toTarget) ∧ out.2.input = s.input) H := by
  unfold onTarget
  simp only [Work.run_bind, Work.run_get, Work.run_liftM, bind_assoc, pure_bind, Work.run_modify]
  apply h.bind
  intro out hout
  obtain ⟨e | a, target⟩ := out
  · exact Meets.pure ⟨hout, rfl⟩
  · exact Meets.pure ⟨hout, rfl⟩

theorem yields_onInput {work : TapeM τ α} {a : α} {P : Tape τ → Prop}
    (h : Yields ref (work s.input) fun out => out.1 = .ok a ∧ P out.2) :
    Yields ref ((onInput work : SourceM π τ α) s) fun out =>
      out.1 = .ok a ∧ P out.2.input ∧ out.2.toTarget = s.toTarget := by
  unfold onInput
  simp only [Work.run_bind, Work.run_get, Work.run_liftM, bind_assoc, pure_bind, Work.run_modify]
  refine h.bind ?_
  rintro ⟨_, t⟩ ⟨rfl, hout⟩
  exact Meets.pure ⟨rfl, hout, rfl⟩

variable [FixedWidth τ] [LawfulFixedWidth τ] {content rest : List τ}

theorem yields_fill (b : Batch τ) (h : s.input.Feeds content rest) :
    Yields ref ((fill b.clear : SourceM π τ (Batch τ)) s) fun res =>
      res.1 = .ok { b with items := (rest.take b.capacity).toArray } ∧
        res.2.input.Feeds content (rest.drop b.capacity) ∧ res.2.toTarget = s.toTarget := by
  obtain ⟨r, hshows, rfl, rfl⟩ := h
  have hcount : min b.capacity (s.input.size - s.input.offset) =
      min b.capacity (r.records.length - r.offset) := by
    rw [hshows.size_eq, hshows.offset_eq]
  have hle : r.offset + min b.capacity (r.records.length - r.offset) ≤ r.records.length := by
    have := r.offset_le
    omega
  have hrest : r.rest.length = r.records.length - r.offset := List.length_drop
  have htake : r.rest.take (min b.capacity (r.records.length - r.offset)) =
      r.rest.take b.capacity := by
    rw [← hrest, List.take_eq_take_iff]
    omega
  have hdrop : (r.skip _ hle).rest = r.rest.drop b.capacity := by
    rw [Reel.rest, Reel.rest, Reel.skip_records, Reel.skip_offset, List.drop_drop]
    by_cases hmin : b.capacity ≤ r.records.length - r.offset
    · rw [Nat.min_eq_left hmin]
    · rw [List.drop_eq_nil_of_le (by omega), List.drop_eq_nil_of_le (by omega)]
  have hfill : Yields ref ((b.clear.fill : TapeM τ (Except TapeError Nat × Batch τ)) s.input)
      fun out => out.1 = .ok (.ok (min b.capacity (r.records.length - r.offset)),
        { b with items := (r.rest.take b.capacity).toArray }) ∧
        out.2.Feeds r.records (r.rest.drop b.capacity) := by
    unfold Batch.fill
    simp only [Work.run_bind, Work.run_get, pure_bind, Batch.clear, Array.size_empty, Nat.sub_zero,
      hcount]
    refine (Batch.yields_pull { b with items := #[] } _ hshows hle (by simp)).bind ?_
    rintro ⟨_, t⟩ ⟨rfl, ht⟩
    refine Meets.pure ⟨?_, _, ht, rfl, hdrop⟩
    rw [htake, Array.empty_append]
    rfl
  unfold fill
  refine Meets.run_bind (yields_onInput (P := fun t => t.Feeds _ _) hfill) ?_
    (by rintro e s' ⟨h, -⟩; cases h)
  rintro ⟨_, _⟩ s' ⟨⟨⟩, hfeeds, htarget⟩
  exact Meets.pure ⟨rfl, hfeeds, htarget⟩

variable [Strategy π τ] {fits : π → Prop} {arranged : List τ → List τ → Prop} {H : Halt → Prop}

theorem meets_arrange (harranges : Strategy.Arranges ref fits arranged H) (b : Batch τ)
    (hfits : fits s.strategy) (h : s.input.Feeds content rest) :
    Meets ref ((arrange b : SourceM π τ (Batch τ)) s) (fun res =>
      ∃ items, res.1 = .ok { b with items } ∧ arranged (rest.take b.capacity) items.toList ∧
        fits res.2.strategy ∧ res.2.output = s.output ∧
        res.2.input.Feeds content (rest.drop b.capacity)) H := by
  unfold arrange
  apply ((yields_fill b h).meets H).run_bind ?_ (by rintro e s' ⟨h, -⟩; cases h)
  rintro _ s' ⟨⟨⟩, hfeeds, htarget⟩
  simp only at hfeeds htarget ⊢
  rw [← htarget] at hfits
  apply (meets_onTarget (Target.meets_onStrategy
    (harranges.arrange s'.strategy _ hfits))).run_bind ?_
    (by rintro e s' ⟨⟨⟨ys, h, -⟩, -⟩, -⟩; cases h)
  rintro _ s'' ⟨⟨⟨_, ⟨⟩, harranged, hfits'⟩, houtput⟩, hinput⟩
  simp only at houtput hinput hfits' ⊢
  rw [← hinput] at hfeeds
  refine Meets.pure ⟨_, rfl, harranged, hfits', ?_, hfeeds⟩
  rw [houtput, htarget]

end Source

namespace Merger

variable [FixedWidth τ] [LawfulFixedWidth τ] {content rest : List τ}

/-- A parked batch can be read from its first record on. -/
theorem yields_park (m : Merger) (hwidth : 0 < FixedWidth.width τ) (hscratch : ref.scratch.Sound)
    (b : Batch τ) :
    Yields ref (m.park b) fun out => ∃ tape, out = .ok tape ∧ tape.Leaves b.items.toList := by
  unfold park
  refine (m.yields_newTape hwidth hscratch).bind ?_
  rintro _ ⟨tape, rfl, hshows⟩
  have hstore : tape.Turns ref (do b.store; Tape.seek 0; Tape.releaseBlock) (.ok ())
      (((Reel.empty (τ := τ)).writeArray b.items.toList).seek 0).2 :=
    Tape.Turns.bind (Tape.turns_writeArray hshows _) fun t ht =>
      Tape.Turns.bind (Tape.turns_seek ht 0) fun t' ht' => Tape.turns_releaseBlock ht'
  refine Meets.bind hstore ?_
  rintro ⟨_, tape'⟩ ⟨rfl, hshows', -⟩
  exact Meets.pure ⟨tape', rfl, _, hshows', Reel.rest_seek_writeArray _⟩

variable [Strategy π τ] {fits : π → Prop} {joins : List (List τ) → List τ → Prop}
  {arranged : List τ → List τ → Prop} {H : Halt → Prop} {s : Source π τ} {start : Reel τ}

/-- What was formed: `tapes` leave the runs that the pieces of `rest` are arranged into, and the
output was not touched. -/
structure Formed (fits : π → Prop) (arranged : List τ → List τ → Prop) (output : Tape τ)
    (content rest : List τ) (tapes : List (Tape τ)) (runs : List (List τ))
    (s : Source π τ) : Prop where
  pieces : ∃ pieces, pieces.flatten = rest ∧ List.Forall₂ arranged pieces runs
  leaves : List.Forall₂ Tape.Leaves tapes runs
  fits : fits s.strategy
  output_eq : s.output = output
  input : s.input.Feeds content []

theorem meets_formWithin (m : Merger) (harranges : Strategy.Arranges ref fits arranged H)
    (hwidth : 0 < FixedWidth.width τ) (hscratch : ref.scratch.Sound) {b : Batch τ}
    (hcapacity : 0 < b.capacity) (tapes : List (Tape τ)) (count : Nat)
    (hfits : fits s.strategy) (h : s.input.Feeds content rest) (hcount : rest.length ≤ count) :
    Meets ref ((m.formWithin b tapes count :
      SourceM π τ (Except MergeError Unit × List (Tape τ))) s) (fun res =>
      ∃ formed runs, res.1 = .ok (.ok (), tapes ++ formed) ∧
        Formed fits arranged s.output content rest formed runs res.2) H := by
  induction count generalizing s rest tapes with
  | zero =>
    obtain rfl := List.eq_nil_of_length_eq_zero (Nat.le_zero.mp hcount)
    refine Meets.pure ⟨[], [], ?_, ⟨[], rfl, .nil⟩, .nil, hfits, rfl, h⟩
    rw [List.append_nil]
  | succ count ih =>
    have hread : s.input.canRead = !rest.isEmpty := by
      obtain ⟨r, hshows, -, rfl⟩ := h
      rw [Tape.canRead, hshows.size_eq, hshows.offset_eq, Bool.eq_iff_iff, Reel.rest]
      simp
    rw [formWithin]
    refine Meets.run_bind (P := fun out => out = (.ok s, s)) (Meets.pure rfl) ?_
      (by rintro e s' ⟨⟩)
    rintro _ _ ⟨⟩
    cases rest with
    | nil =>
      rw [if_pos (by simp [hread])]
      refine Meets.pure ⟨[], [], ?_, ⟨[], rfl, .nil⟩, .nil, hfits, rfl, h⟩
      rw [List.append_nil]
    | cons x rest =>
      rw [if_neg (by simp [hread])]
      have hformed : Meets ref ((formWithin.formed m b :
          SourceM π τ (Except MergeError (Tape τ))) s) (fun res =>
          ∃ tape run, res.1 = .ok (.ok tape) ∧ tape.Leaves run ∧
            arranged ((x :: rest).take b.capacity) run ∧ fits res.2.strategy ∧ res.2.output =
            s.output ∧ res.2.input.Feeds content ((x :: rest).drop b.capacity)) H := by
        unfold formWithin.formed
        refine Meets.run_tryCatch_of_ok ?_ (by rintro e s' ⟨tape, run, h, -⟩; cases h)
        refine Meets.run_bind (Source.meets_arrange harranges b hfits h) ?_
          (by rintro e s' ⟨items, h, -⟩; cases h)
        rintro _ s' ⟨items, ⟨⟩, harranged, hfits', houtput, hfeeds⟩
        refine Meets.run_liftM (((m.yields_park hwidth hscratch _).meets H).mono ?_)
        rintro _ ⟨tape, rfl, hleaves⟩
        exact ⟨tape, _, rfl, hleaves, harranged, hfits', houtput, hfeeds⟩
      refine Meets.run_bind hformed ?_ (by rintro e s' ⟨tape, run, h, -⟩; cases h)
      rintro _ s' ⟨tape, run, ⟨⟩, hleaves, harranged, hfits', houtput, hfeeds⟩
      simp only at houtput hfits' hfeeds ⊢
      have hfewer : ((x :: rest).drop b.capacity).length ≤ count := by
        rw [List.length_drop]
        omega
      refine (ih (tapes ++ [tape]) hfits' hfeeds hfewer).mono ?_
      rintro res ⟨formed, runs, hres, ⟨pieces, hpieces, harranged'⟩, hformed, hfits'', houtput',
        hinput⟩
      refine ⟨tape :: formed, run :: runs, ?_, ⟨_ :: pieces, ?_, .cons harranged harranged'⟩,
        .cons hleaves hformed, hfits'', houtput'.trans houtput, hinput⟩
      · rw [hres, List.append_assoc, List.singleton_append]
      · rw [List.flatten_cons, hpieces, List.take_append_drop]

/-- The input is used up, and each piece of what was left of it is a run. -/
theorem meets_distribute (m : Merger) (harranges : Strategy.Arranges ref fits arranged H)
    (hwidth : 0 < FixedWidth.width τ) (hscratch : ref.scratch.Sound) {capacity : Nat}
    (hcapacity : 0 < capacity) (hfits : fits s.strategy) (h : s.input.Feeds content rest) :
    Meets ref ((m.distribute capacity : SourceM π τ (List (Tape τ))) s) (fun res =>
      ∃ tapes runs, res.1 = .ok tapes ∧
        Formed fits arranged s.output content rest tapes runs res.2) H := by
  have hsize : rest.length ≤ s.input.size := by
    obtain ⟨r, hshows, -, rfl⟩ := h
    rw [hshows.size_eq, Reel.rest, List.length_drop]
    omega
  unfold distribute
  simp only [Work.run_bind, Work.run_get, Work.run_liftM, bind_assoc, pure_bind]
  refine ((Batch.yields_new capacity).meets H).bind ?_
  rintro b rfl
  refine (m.meets_formWithin harranges hwidth hscratch hcapacity [] s.input.size hfits h
    hsize).bind ?_
  rintro ⟨_, s'⟩ ⟨tapes, runs, rfl, hformed⟩
  simp only [List.nil_append]
  refine ((Yields.release _).meets H).bind fun _ _ => ?_
  have hrelease : Yields ref ((Source.onInput Tape.releaseBlock : SourceM π τ Unit) s') _ :=
    Source.yields_onInput (P := fun t => t.Feeds content [] ∧ t.block = none)
      (Tape.yields_releaseBlock_feeds hformed.input)
  rw [Work.run_bind]
  refine ((hrelease.meets H).run_tryCatch_of_ok (by rintro e s'' ⟨h, -⟩; cases h)).bind ?_
  rintro ⟨_, s''⟩ ⟨rfl, ⟨hinput, -⟩, htarget⟩
  simp only at hinput htarget
  refine Meets.pure ⟨tapes, runs, rfl, hformed.pieces, hformed.leaves, ?_, ?_, hinput⟩
  · rw [htarget]
    exact hformed.fits
  · rw [htarget]
    exact hformed.output_eq

def Assembles (joins : List (List τ) → List τ → Prop) (arranged : List τ → List τ → Prop)
    (whole out : List τ) : Prop :=
  ∃ pieces runs, pieces.flatten = whole ∧ List.Forall₂ arranged pieces runs ∧ joins runs out

/-- What processing may come to: the whole content is assembled behind `start`, or memory was too
little and the output is as it was. -/
def Ends (m : Merger) (fits : π → Prop) (joins : List (List τ) → List τ → Prop)
    (arranged : List τ → List τ → Prop) (start : Reel τ) (content : List τ)
    (res : Except MergeError Stats × Source π τ) : Prop :=
  fits res.2.strategy ∧ (∃ rest, res.2.input.Feeds content rest) ∧
    ((∃ e, res.1 = .error e ∧ (e.Lacks (m.runSpace τ res.2.strategy) ∨
        e.Lacks (m.mergeSpace τ res.2.strategy)) ∧ res.2.output.Shows start) ∨
      ∃ stats out, res.1 = .ok stats ∧ Assembles joins arranged content out ∧
        res.2.output.Shows (start.writeArray out))

/-- An input that fits in main memory is one piece and one run. -/
theorem meets_arrangeAll (m : Merger) (hjoining : Strategy.Joining joins)
    (harranges : Strategy.Arranges ref fits arranged H) (hfits : fits s.strategy)
    (h : s.input.Feeds content content) (hshows : s.output.Shows start) :
    Meets ref ((arrangeAll content.length : SourceM π τ Stats) s)
      (m.Ends fits joins arranged start content) H := by
  unfold arrangeAll withBatch
  have hwork (b : Batch τ) (hb : b.capacity = content.length) : Meets ref ((do
      let b ← Source.arrange b
      Source.onTarget (Target.onOutput do b.store; Tape.flush) : SourceM π τ Unit) s) (fun res =>
      ∃ out, res.1 = .ok () ∧ fits res.2.strategy ∧ (∃ rest, res.2.input.Feeds content rest) ∧
        arranged content out ∧ res.2.output.Shows (start.writeArray out)) H := by
    refine Meets.run_bind (Source.meets_arrange harranges b hfits h) ?_
      (by rintro e s' ⟨items, h, -⟩; cases h)
    rintro _ s' ⟨items, ⟨⟩, harranged, hfits', houtput, hfeeds⟩
    simp only at hfits' houtput hfeeds ⊢
    rw [hb, List.take_length] at harranged
    rw [← houtput] at hshows
    have hstore : s'.output.Turns ref (do Tape.writeArray items.toList; Tape.flush) (.ok ())
        (start.writeArray items.toList) :=
      Tape.Turns.bind (Tape.turns_writeArray hshows _) fun _ ht => Tape.turns_flush ht
    have hwritten := Source.meets_onTarget (s := s') ((Target.yields_onOutput
      (P := fun t => t.Shows _) (Meets.mono hstore fun _ h => ⟨h.1, h.2.1⟩)).meets H)
    refine hwritten.mono ?_
    rintro ⟨_, s''⟩ ⟨⟨rfl, hshows', hstrategy⟩, hinput⟩
    simp only at hshows' hstrategy hinput
    refine ⟨_, rfl, ?_, ⟨content.drop b.capacity, ?_⟩, harranged, hshows'⟩
    · simp only [hstrategy]
      exact hfits'
    · rw [hinput]
      exact hfeeds
  refine Meets.run_bind (P := fun res => res.1 = .ok () ∧ ∃ out, fits res.2.strategy ∧
    (∃ rest, res.2.input.Feeds content rest) ∧ arranged content out ∧
    res.2.output.Shows (start.writeArray out)) ?_ ?_ (by rintro e s' ⟨h, -⟩; cases h)
  · simp only [Work.run_bind, Work.run_liftM, bind_assoc, pure_bind]
    refine ((Batch.yields_new _).meets H).bind ?_
    rintro b hb
    refine ((hwork b hb).run_tryCatch_of_ok (by rintro e s' ⟨out, h, -⟩; cases h)).bind ?_
    rintro ⟨_, s'⟩ ⟨out, rfl, hout⟩
    exact ((Yields.release _).meets H).bind fun _ _ => Meets.pure ⟨rfl, out, hout⟩
  · rintro _ s' ⟨-, out, hfits', hinput, harranged, hout⟩
    refine Meets.pure ⟨hfits', hinput, .inr ⟨_, out, rfl, ?_, hout⟩⟩
    exact ⟨[content], [out], List.flatten_singleton, .cons harranged .nil, hjoining.single out⟩

omit [LawfulFixedWidth τ] in
theorem yields_capacity (m : Merger) (p : π) (hwidth : 0 < FixedWidth.width τ) :
    Yields ref (m.capacity τ p) fun out =>
      (∃ e, out = .error e ∧ e.Lacks (m.runSpace τ p)) ∨
        ∃ capacity, 0 < capacity ∧ out = .ok capacity := by
  unfold capacity orCount Plan.capacity
  refine (Tape.yields_measure hwidth m.blockSize).bind fun _ _ => ?_
  refine (Yields.count _).bind fun _ _ => ?_
  refine Yields.get.bind fun site _ => ?_
  simp only
  split_ifs with hzero
  · have hrecord : 0 < max 1 (FixedWidth.footprint τ).size := Nat.le_max_left 1 _
    have hnone := (Nat.div_eq_zero_iff_lt hrecord).mp hzero
    have hshort : site.ledger.available < m.runSpace τ p := by
      unfold runSpace
      omega
    exact (Yields.count _).bind fun _ _ => Meets.pure (.inl ⟨_, rfl, _, hshort, rfl⟩)
  · exact Meets.pure (.inr ⟨_, Nat.pos_of_ne_zero hzero, rfl⟩)

/-- The whole content of the input is processed, wherever its cursor is. -/
theorem meets_process (m : Merger) (hmerges : Strategy.Merges ref fits joins)
    (harranges : Strategy.Arranges ref fits arranged H) (hwidth : 0 < FixedWidth.width τ)
    (hscratch : ref.scratch.Sound) (hfits : fits s.strategy) (h : s.input.Feeds content rest)
    (hshows : s.output.Shows start) :
    Meets ref ((m.process : SourceM π τ Stats) s) (m.Ends fits joins arranged start content) H := by
  have hrewind : Yields ref ((Tape.seek 0 : TapeM τ Unit) s.input) fun out =>
      out.1 = .ok () ∧ out.2.Feeds content content := by
    obtain ⟨r, hinput, rfl, -⟩ := h
    refine Meets.mono (Tape.turns_seek hinput 0) ?_
    rintro out ⟨hout, hafter, -⟩
    exact ⟨hout, _, hafter, rfl, rfl⟩
  unfold process
  have hseek := Source.yields_onInput (s := s) (P := fun t => t.Feeds content content) hrewind
  refine Meets.run_bind (hseek.meets H) ?_ (by rintro e s' ⟨h, -⟩; cases h)
  rintro _ s' ⟨-, hfeeds, htarget⟩
  simp only at hfeeds htarget
  have hrecords : s'.input.size = content.length := by
    obtain ⟨r, hinput, rfl, -⟩ := hfeeds
    exact hinput.size_eq
  rw [← htarget] at hfits hshows
  simp only [Work.run_bind, Work.run_get, Work.run_liftM, bind_assoc, pure_bind, hrecords]
  refine ((m.yields_capacity s'.strategy hwidth).meets H).bind ?_
  rintro _ (⟨e, rfl, hlacks⟩ | ⟨capacity, hcapacity, rfl⟩)
  · exact Meets.pure ⟨hfits, ⟨_, hfeeds⟩, .inl ⟨e, rfl, .inl hlacks, hshows⟩⟩
  · simp only
    split
    · simp only [Work.run_bind, Work.run_liftM, bind_assoc, pure_bind]
      exact ((Yields.report _).meets H).bind fun _ _ =>
        m.meets_arrangeAll hmerges.toJoining harranges hfits hfeeds hshows
    · simp only [Work.run_bind, Work.run_liftM, bind_assoc, pure_bind]
      refine ((Yields.report _).meets H).bind fun _ _ => ?_
      refine (m.meets_distribute harranges hwidth hscratch hcapacity hfits hfeeds).bind ?_
      rintro ⟨_, s''⟩ ⟨tapes, runs, rfl, ⟨pieces, hpieces, harranged⟩, hleaves, hfits', houtput,
        hinput⟩
      refine ((Yields.report _).meets H).bind fun _ _ => ?_
      rw [← houtput] at hshows
      have hmerge := Source.meets_onTarget (s := s'') ((m.yields_merge hmerges hwidth hscratch
        hfits' hleaves hshows).meets H)
      refine hmerge.mono ?_
      rintro ⟨outcome, s₃⟩ ⟨⟨hfits₃, hcomes⟩, hinput₃⟩
      simp only at hfits₃ hcomes hinput₃
      refine ⟨hfits₃, ⟨[], by rw [hinput₃]; exact hinput⟩, hcomes.imp ?_ ?_⟩
      · rintro ⟨e, he, hlacks, hout⟩
        exact ⟨e, he, .inr hlacks, hout⟩
      · rintro ⟨stats, out, hstats, hjoins, hout⟩
        exact ⟨stats, out, hstats, ⟨pieces, runs, hpieces, harranged, hjoins⟩, hout⟩

end Merger

end BoundedMerge
