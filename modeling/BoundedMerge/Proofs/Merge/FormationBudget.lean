import BoundedMerge.Merge.Formation
import BoundedMerge.Proofs.Merge.PassesBudget

/-!
What run formation pays for. Its plan leaves room for the batch and a block of each of two tapes:
the input and the run that is written, or the input and the output. The runs that it parks hold
nothing, and since none has more records than the batch has room for, they are two at least when
the merge begins.
-/

namespace BoundedMerge

open SiteM

variable {α π τ : Type} {ref : Site} {size used rest : Nat}

variable [FixedWidth τ]

namespace Batch

theorem tallies_new (capacity : Nat)
    (h : used + ref.charged (capacity * (FixedWidth.footprint τ).size) ≤ ref.ledger.limit) :
    Tallies ref used (new capacity : SiteM (Batch τ)) fun b used' =>
      b.lease.Backed ref ∧ used' = used + b.lease.bytes ∧ b.capacity = capacity ∧
        b.items.size = 0 ∧
        b.lease.bytes = ref.charged (capacity * (FixedWidth.footprint τ).size) := by
  unfold new
  refine (Tallies.count _).bind ?_
  rintro _ _ rfl
  refine (Tallies.take _ h).bind ?_
  rintro lease _ ⟨hlease, rfl⟩
  refine (Tallies.provide _).bind ?_
  rintro _ _ rfl
  exact Tallies.pure ⟨fun hignore => by rw [hlease, Site.charged, if_pos hignore], rfl, rfl, rfl,
    hlease⟩

omit [FixedWidth τ] in
theorem tallies_close {b : Batch τ} (hbacked : b.lease.Backed ref) :
    Tallies ref (used + b.lease.bytes) b.close fun _ used' => used' = used :=
  (Tallies.release b.lease hbacked (Nat.le_add_left _ _)).mono fun _ _ hused =>
    Nat.add_right_cancel hused

/-- Records that are read without a failure move the cursor of the tape. -/
theorem tallies_pull (b : Batch τ) (count : Nat) {t : Tape τ} (ht : t.Owes ref size)
    (hroom : rest + ref.charged size ≤ ref.ledger.limit) :
    Tallies ref (rest + t.held)
      ((b.pull count : TapeM τ (Except TapeError Unit × Batch τ)) t) fun out used =>
      (used = rest + out.2.held ∧ out.2.Owes ref size) ∧ out.2.size = t.size ∧
        ∀ outcome b', out.1 = .ok (outcome, b') → b'.capacity = b.capacity ∧
          (outcome = .ok () → out.2.offset = t.offset + count) := by
  induction count generalizing b t with
  | zero =>
    refine Tallies.pure ⟨⟨rfl, ht⟩, rfl, ?_⟩
    rintro _ _ ⟨⟩
    exact ⟨rfl, fun _ => rfl⟩
  | succ count ih =>
    rw [pull]
    unfold pull.observing
    simp only [Work.run_bind, Work.run_tryCatch, Work.run_map, bind_assoc]
    refine (Tape.tallies_read ht hroom).bind ?_
    rintro ⟨e | x, t'⟩ _ ⟨⟨rfl, ht'⟩, hsize, hoffset⟩
    · refine Tallies.pure ⟨⟨rfl, ht'⟩, hsize, ?_⟩
      rintro _ _ ⟨⟩
      exact ⟨rfl, by rintro ⟨⟩⟩
    · simp only [pure_bind, Work.run_bind, Work.run_liftM, push, bind_assoc]
      refine (Tallies.assert _ _).bind ?_
      rintro _ _ rfl
      refine (ih _ ht').mono ?_
      rintro out used ⟨hout, hsize', hok⟩
      refine ⟨hout, hsize'.trans hsize, fun outcome b' h => ?_⟩
      obtain ⟨hcapacity, hoffset'⟩ := hok outcome b' h
      refine ⟨hcapacity, fun hdone => ?_⟩
      have hmoved : t'.offset = t.offset + 1 := hoffset x rfl
      rw [hoffset' hdone, hmoved]
      omega

end Batch

/-- Work on the output leaves the strategy alone. -/
theorem Target.tallies_onOutput {target : Target π τ} {work : TapeM τ α}
    (h : target.output.Owes ref size) (hwork : Tape.Pays ref size rest work) :
    Tallies ref (rest + target.output.held) ((onOutput work : MergeM π τ α) target)
      fun out used => used = rest + out.2.output.held ∧ out.2.output.Owes ref size ∧
        out.2.strategy = target.strategy := by
  unfold onOutput
  simp only [Work.run_bind, Work.run_get, Work.run_liftM, Work.run_modify, bind_assoc, pure_bind]
  refine (hwork target.output h).bind ?_
  rintro ⟨e | a, t⟩ _ ⟨rfl, ht⟩
  · exact Tallies.pure ⟨rfl, ht, rfl⟩
  · exact Tallies.pure ⟨rfl, ht, rfl⟩

namespace Source

def held (s : Source π τ) : Nat := s.input.held + s.output.held

structure Solvent (ref : Site) (size : Nat) (fits : π → Prop) (s : Source π τ) : Prop where
  input : s.input.Owes ref size
  output : s.output.Owes ref size
  strategy : fits s.strategy

variable {s s' : Source π τ} {fits : π → Prop}

theorem Solvent.of_toTarget (hs : s.Solvent ref size fits) (htarget : s'.toTarget = s.toTarget)
    (hinput : s'.input.Owes ref size) : s'.Solvent ref size fits := by
  refine ⟨hinput, ?_, ?_⟩
  · rw [htarget]
    exact hs.output
  · rw [htarget]
    exact hs.strategy

omit [FixedWidth τ] in
/-- Work on the input leaves the target alone. -/
theorem tallies_onInput {work : TapeM τ α} {P : Except TapeError α × Tape τ → Prop}
    (h : Tallies ref (rest + s.input.held) (work s.input) fun out used =>
      used = rest + out.2.held ∧ P out) :
    Tallies ref (rest + s.input.held) ((onInput work : SourceM π τ α) s) fun out used =>
      used = rest + out.2.input.held ∧ out.2.toTarget = s.toTarget ∧
        ∃ outcome, P (outcome, out.2.input) ∧ ∀ a, out.1 = .ok a → outcome = .ok a := by
  unfold onInput
  simp only [Work.run_bind, Work.run_get, Work.run_liftM, Work.run_modify, bind_assoc, pure_bind]
  refine h.bind ?_
  rintro ⟨e | a, t⟩ _ ⟨rfl, hout⟩
  · exact Tallies.pure ⟨rfl, rfl, _, hout, by rintro _ ⟨⟩⟩
  · refine Tallies.pure ⟨rfl, rfl, _, hout, ?_⟩
    rintro _ ⟨⟩
    rfl

omit [FixedWidth τ] in
/-- Work on the target leaves the input alone. -/
theorem tallies_onTarget {work : MergeM π τ α} {P : Except MergeError α × Target π τ → Nat → Prop}
    (h : Tallies ref used (work s.toTarget) P) :
    Tallies ref used ((onTarget work : SourceM π τ α) s) fun out used =>
      P (out.1, out.2.toTarget) used ∧ out.2.input = s.input := by
  unfold onTarget
  simp only [Work.run_bind, Work.run_get, Work.run_liftM, Work.run_modify, bind_assoc, pure_bind]
  refine h.bind ?_
  rintro ⟨e | a, target⟩ used' hout
  · exact Tallies.pure ⟨hout, rfl⟩
  · exact Tallies.pure ⟨hout, rfl⟩

/-- The input is read from its start. -/
theorem tallies_rewind (hs : s.input.Owes ref size) :
    Tallies ref (rest + s.input.held) ((onInput (Tape.seek 0) : SourceM π τ Unit) s)
      fun out used => used = rest + out.2.input.held ∧ out.2.toTarget = s.toTarget ∧
        out.2.input.Owes ref size ∧ (out.1 = .ok () → out.2.input.offset = 0) := by
  have hseek : Tallies ref (rest + s.input.held) ((Tape.seek 0 : TapeM τ Unit) s.input)
      fun out used => used = rest + out.2.held ∧ out.2.Owes ref size ∧
        (out.1 = .ok () → out.2.offset = 0) := by
    unfold Tape.seek
    simp only [Work.run_bind, Work.run_get, pure_bind]
    rw [if_neg (by omega)]
    exact Tallies.pure ⟨rfl, ⟨hs.blockSize_eq, hs.lease_eq⟩, fun _ => rfl⟩
  refine (tallies_onInput (P := fun out => out.2.Owes ref size ∧
    (out.1 = .ok () → out.2.offset = 0)) hseek).mono ?_
  rintro out _ ⟨rfl, htarget, outcome, ⟨howes, hoffset⟩, hdone⟩
  exact ⟨rfl, htarget, howes, fun hok => hoffset (hdone () hok)⟩

/-- A batch that is filled takes as many records as it has room for. -/
theorem tallies_fill (b : Batch τ) (hs : s.input.Owes ref size)
    (hroom : rest + ref.charged size ≤ ref.ledger.limit) :
    Tallies ref (rest + s.input.held) ((fill b : SourceM π τ (Batch τ)) s) fun out used =>
      used = rest + out.2.input.held ∧ out.2.toTarget = s.toTarget ∧
        out.2.input.Owes ref size ∧ out.2.input.size = s.input.size ∧
        ∀ b', out.1 = .ok b' → b'.capacity = b.capacity ∧ out.2.input.offset = s.input.offset +
          min (b.capacity - b.items.size) (s.input.size - s.input.offset) := by
  have hfill : Tallies ref (rest + s.input.held)
      ((b.fill : TapeM τ (Except TapeError Nat × Batch τ)) s.input) fun out used =>
        used = rest + out.2.held ∧ out.2.Owes ref size ∧ out.2.size = s.input.size ∧
          ∀ count b', out.1 = .ok (.ok count, b') → b'.capacity = b.capacity ∧
            out.2.offset = s.input.offset +
              min (b.capacity - b.items.size) (s.input.size - s.input.offset) := by
    unfold Batch.fill
    simp only [Work.run_bind, Work.run_get, pure_bind]
    refine (Batch.tallies_pull b _ hs hroom).bind ?_
    rintro ⟨e | ⟨outcome, b'⟩, t⟩ _ ⟨⟨rfl, ht⟩, hsize, hok⟩
    · exact Tallies.pure ⟨rfl, ht, hsize, by rintro _ _ ⟨⟩⟩
    · obtain ⟨hcapacity, hoffset⟩ := hok outcome b' rfl
      refine Tallies.pure ⟨rfl, ht, hsize, ?_⟩
      intro count b'' h
      cases outcome with
      | error e => cases h
      | ok _ =>
        cases h
        exact ⟨hcapacity, hoffset rfl⟩
  unfold fill
  refine Tallies.run_bind (tallies_onInput (P := fun out => out.2.Owes ref size ∧
    out.2.size = s.input.size ∧ ∀ count b', out.1 = .ok (.ok count, b') →
      b'.capacity = b.capacity ∧ out.2.offset = s.input.offset +
        min (b.capacity - b.items.size) (s.input.size - s.input.offset)) hfill) ?_ ?_
  · rintro ⟨outcome, b'⟩ s' _ ⟨rfl, htarget, _, ⟨howes, hsize, hok⟩, hout⟩
    cases hout _ rfl
    cases outcome with
    | error e => exact Tallies.pure ⟨rfl, htarget, howes, hsize, by rintro _ ⟨⟩⟩
    | ok count =>
      refine Tallies.pure ⟨rfl, htarget, howes, hsize, ?_⟩
      rintro _ ⟨⟩
      exact hok count b' rfl
  · rintro e s' _ ⟨rfl, htarget, _, ⟨howes, hsize, -⟩, -⟩
    exact ⟨rfl, htarget, howes, hsize, by rintro _ ⟨⟩⟩

variable [Strategy π τ] {sound : π → Prop} {heap : π → Nat} {overhead node : Nat}

/-- The strategy holds what it held, and the output is not touched. -/
theorem tallies_arrange (hleases : Strategy.Leases τ ref sound heap overhead node) (b : Batch τ)
    (hs : s.Solvent ref size sound) (hroom : rest + ref.charged size ≤ ref.ledger.limit) :
    Tallies ref (rest + s.input.held) ((arrange b : SourceM π τ (Batch τ)) s) fun out used =>
      used = rest + out.2.input.held ∧ out.2.Solvent ref size sound ∧
        heap out.2.strategy = heap s.strategy ∧ out.2.output = s.output ∧
        out.2.input.size = s.input.size ∧
        ∀ b', out.1 = .ok b' → out.2.input.offset = s.input.offset +
          min b.capacity (s.input.size - s.input.offset) := by
  unfold arrange
  refine Tallies.run_bind (tallies_fill b.clear hs.input hroom) ?_ ?_
  · rintro b' s' _ ⟨rfl, htarget, howes, hsize, hok⟩
    obtain ⟨-, hoffset⟩ := hok b' rfl
    simp only at htarget howes hsize hoffset
    have hs' := hs.of_toTarget htarget howes
    have harrange : Tallies ref (rest + s'.input.held)
        ((Target.onStrategy (Strategy.arrange b'.items) : MergeM π τ (Array τ)) s'.toTarget)
        fun out used => used = rest + s'.input.held ∧ sound out.2.strategy ∧
          heap out.2.strategy = heap s'.strategy ∧ out.2.output = s'.output := by
      unfold Target.onStrategy
      simp only [Work.run_bind, Work.run_get, Work.run_liftM, Work.run_modify, bind_assoc,
        pure_bind]
      refine (hleases.arrange s'.strategy b'.items _ hs'.strategy).bind ?_
      rintro ⟨e | items, p⟩ _ ⟨rfl, hp, hheap⟩
      · exact Tallies.pure ⟨rfl, hp, hheap, rfl⟩
      · exact Tallies.pure ⟨rfl, hp, hheap, rfl⟩
    -- The strategy may fail, but what the source then holds is the same.
    have harranged {s'' : Source π τ} (hp : sound s''.strategy)
        (hheap : heap s''.strategy = heap s'.strategy) (hsame : s''.output = s'.output)
        (hinput : s''.input = s'.input) :
        s''.Solvent ref size sound ∧ heap s''.strategy = heap s.strategy ∧
          s''.output = s.output ∧ s''.input.size = s.input.size := by
      refine ⟨⟨?_, ?_, hp⟩, ?_, ?_, ?_⟩
      · exact hinput ▸ howes
      · exact hsame ▸ hs'.output
      · rw [hheap, htarget]
      · rw [hsame, htarget]
      · rw [hinput, hsize]
    refine Tallies.run_bind (tallies_onTarget harrange) ?_ ?_
    · rintro items s'' _ ⟨⟨rfl, hp, hheap, hsame⟩, hinput⟩
      simp only at hp hheap hsame hinput
      obtain ⟨hs'', hheap', hsame', hsize'⟩ := harranged hp hheap hsame hinput
      refine Tallies.pure ⟨by rw [hinput], hs'', hheap', hsame', hsize', fun _ _ => ?_⟩
      rw [hinput, hoffset]
      rfl
    · rintro e s'' _ ⟨⟨rfl, hp, hheap, hsame⟩, hinput⟩
      simp only at hp hheap hsame hinput
      obtain ⟨hs'', hheap', hsame', hsize'⟩ := harranged hp hheap hsame hinput
      exact ⟨by rw [hinput], hs'', hheap', hsame', hsize', by rintro _ ⟨⟩⟩
  · rintro e s' _ ⟨rfl, htarget, howes, hsize, -⟩
    simp only at htarget howes hsize
    refine ⟨rfl, hs.of_toTarget htarget howes, ?_, ?_, hsize, by rintro _ ⟨⟩⟩
    · rw [htarget]
    · rw [htarget]

end Source

namespace Merger

/-- A parked run holds no block. While it is written it holds one. -/
theorem tallies_park (m : Merger) (b : Batch τ)
    (hroom : rest + ref.charged (m.blockBytes τ) ≤ ref.ledger.limit) :
    Tallies ref rest (m.park b) fun out used => used = rest ∧
      ∀ tape, out = .ok tape → tape.Parked (m.blockBytes τ) := by
  unfold park
  refine m.tallies_newTape.bind ?_
  rintro (e | tape) rest ⟨rfl, hparked⟩
  · exact Tallies.pure ⟨rfl, by rintro _ ⟨⟩⟩
  replace hparked := hparked tape rfl
  have hwrite : Tape.Pays ref (m.blockBytes τ) rest (do b.store; Tape.seek 0) :=
    (Tape.pays_writeArray _ hroom).bind fun _ => Tape.pays_seek 0
  have hstore : Tallies ref (rest + tape.held)
      ((do b.store; Tape.seek 0; Tape.releaseBlock : TapeM τ Unit) tape) fun out used =>
        used = rest + out.2.held ∧ out.2.Owes ref (m.blockBytes τ) ∧
          (out.1 = .ok () → out.2.block = none) := by
    have hdo : (do b.store; Tape.seek 0; Tape.releaseBlock : TapeM τ Unit) =
        (do b.store; Tape.seek 0 : TapeM τ Unit) >>= fun _ => Tape.releaseBlock := by
      rw [bind_assoc]
    rw [hdo]
    refine Tallies.run_bind (hwrite tape hparked.owes) ?_ ?_
    · rintro _ t _ ⟨rfl, ht⟩
      exact Tape.tallies_releaseBlock ht
    · rintro e t _ ⟨rfl, ht⟩
      exact ⟨rfl, ht, by rintro ⟨⟩⟩
  rw [Tape.held_of_none hparked.2, Nat.add_zero] at hstore
  refine hstore.bind ?_
  rintro ⟨e | _, t⟩ _ ⟨rfl, ht, hnone⟩
  · simp only at ht ⊢
    refine (Tape.tallies_close ht).bind ?_
    rintro _ _ rfl
    exact Tallies.pure ⟨rfl, by rintro _ ⟨⟩⟩
  · have hblock : t.block = none := hnone rfl
    refine Tallies.pure ⟨?_, ?_⟩
    · simp only [Tape.held_of_none hblock, Nat.add_zero]
    · rintro _ ⟨⟩
      exact ⟨ht.blockSize_eq, hblock⟩

variable [Strategy π τ] {sound : π → Prop} {heap : π → Nat} {overhead node : Nat} {s : Source π τ}

/-- A run that is formed takes as many records from the input as the batch has room for. It holds
no block. -/
theorem tallies_formed (m : Merger) (hleases : Strategy.Leases τ ref sound heap overhead node)
    (b : Batch τ) (hs : s.Solvent ref (m.blockBytes τ) sound)
    (hroom : rest + 2 * ref.charged (m.blockBytes τ) ≤ ref.ledger.limit) :
    Tallies ref (rest + s.input.held) ((formWithin.formed m b :
      SourceM π τ (Except MergeError (Tape τ))) s) fun out used =>
      used = rest + out.2.input.held ∧ out.2.Solvent ref (m.blockBytes τ) sound ∧
        heap out.2.strategy = heap s.strategy ∧ out.2.output = s.output ∧
        ∃ formed, out.1 = .ok formed ∧ ∀ run, formed = .ok run →
          run.Parked (m.blockBytes τ) ∧ out.2.input.size = s.input.size ∧
          out.2.input.offset = s.input.offset +
            min b.capacity (s.input.size - s.input.offset) := by
  unfold formWithin.formed
  refine Tallies.run_tryCatch (P := fun out used =>
    used = rest + out.2.input.held ∧ out.2.Solvent ref (m.blockBytes τ) sound ∧
      heap out.2.strategy = heap s.strategy ∧ out.2.output = s.output ∧
      ∀ run, out.1 = .ok (.ok run) → run.Parked (m.blockBytes τ) ∧
        out.2.input.size = s.input.size ∧ out.2.input.offset = s.input.offset +
          min b.capacity (s.input.size - s.input.offset)) ?_ ?_ ?_
  · refine Tallies.run_bind (Source.tallies_arrange hleases b hs (by omega)) ?_ ?_
    · rintro b' s' _ ⟨rfl, hs', hheap, houtput, hsize, hoffset⟩
      have hheld := hs'.input.held_le
      simp only at hs' hheap houtput hsize hoffset hheld ⊢
      refine Tallies.run_liftM ((m.tallies_park b' (by omega)).mono ?_)
      rintro out _ ⟨rfl, hparked⟩
      refine ⟨rfl, hs', hheap, houtput, ?_⟩
      rintro run ⟨⟩
      exact ⟨hparked run rfl, hsize, hoffset b' rfl⟩
    · rintro e s' _ ⟨rfl, hs', hheap, houtput, -⟩
      exact ⟨rfl, hs', hheap, houtput, by rintro _ ⟨⟩⟩
  · rintro formed s' _ ⟨rfl, hs', hheap, houtput, hok⟩
    refine ⟨rfl, hs', hheap, houtput, formed, rfl, ?_⟩
    rintro run rfl
    exact hok run rfl
  · rintro e s' _ ⟨rfl, hs', hheap, houtput, -⟩
    exact Tallies.pure ⟨rfl, hs', hheap, houtput, .error e, rfl, by rintro _ ⟨⟩⟩

/-- Runs are added that have room for the rest of the input, if none of them fails. They hold no
block. -/
theorem tallies_formWithin (m : Merger) (hleases : Strategy.Leases τ ref sound heap overhead node)
    {b : Batch τ} (hcapacity : 0 < b.capacity) (runs : List (Tape τ)) (count : Nat)
    (hs : s.Solvent ref (m.blockBytes τ) sound) (hcount : s.input.size - s.input.offset ≤ count)
    (hroom : rest + 2 * ref.charged (m.blockBytes τ) ≤ ref.ledger.limit) :
    Tallies ref (rest + s.input.held) ((m.formWithin b runs count :
      SourceM π τ (Except MergeError Unit × List (Tape τ))) s) fun out used =>
      used = rest + out.2.input.held ∧ out.2.Solvent ref (m.blockBytes τ) sound ∧
        heap out.2.strategy = heap s.strategy ∧ out.2.output = s.output ∧
        ∃ outcome formed, out.1 = .ok (outcome, runs ++ formed) ∧
          (∀ t ∈ formed, t.Parked (m.blockBytes τ)) ∧
          (outcome = .ok () → s.input.size - s.input.offset ≤ formed.length * b.capacity) := by
  induction count generalizing s runs with
  | zero =>
    refine Tallies.pure ⟨rfl, hs, rfl, rfl, .ok (), [], ?_, by simp, fun _ => by omega⟩
    rw [List.append_nil]
  | succ count ih =>
    rw [formWithin]
    refine Tallies.run_bind (P := fun out used => used = rest + s.input.held ∧ out = (.ok s, s))
      (Tallies.pure ⟨rfl, rfl⟩) ?_ (by rintro e s' _ ⟨-, ⟨⟩⟩)
    rintro _ _ _ ⟨rfl, ⟨⟩⟩
    by_cases hread : s.input.canRead = true
    swap
    · rw [if_pos (by simp [hread])]
      have hend : s.input.size - s.input.offset = 0 := by
        simp only [Tape.canRead, decide_eq_true_eq] at hread
        omega
      refine Tallies.pure ⟨rfl, hs, rfl, rfl, .ok (), [], ?_, by simp, fun _ => by omega⟩
      rw [List.append_nil]
    rw [if_neg (by simp [hread])]
    have hformed := m.tallies_formed hleases b hs hroom
    refine Tallies.run_bind hformed ?_ ?_
    · rintro formed s' _ ⟨rfl, hs', hheap, houtput, _, ⟨⟩, hok⟩
      simp only at hs' hheap houtput hok ⊢
      cases formed with
      | error e =>
        refine Tallies.pure ⟨rfl, hs', hheap, houtput, .error e, [], ?_, by simp, by rintro ⟨⟩⟩
        rw [List.append_nil]
      | ok run =>
        obtain ⟨hparked, hsize, hoffset⟩ := hok run rfl
        have hfewer : s'.input.size - s'.input.offset ≤ count := by omega
        refine (ih (runs ++ [run]) hs' hfewer).mono ?_
        rintro out _ ⟨rfl, hs'', hheap', houtput', outcome, formed, hout, hformed, hall⟩
        refine ⟨rfl, hs'', hheap'.trans hheap, houtput'.trans houtput, outcome, run :: formed, ?_,
          ?_, fun hdone => ?_⟩
        · rw [hout, List.append_assoc, List.singleton_append]
        · intro t ht
          rcases List.mem_cons.mp ht with rfl | ht
          · exact hparked
          · exact hformed t ht
        · have hlater := hall hdone
          rw [List.length_cons, Nat.succ_mul]
          omega
    · rintro e s' _ ⟨-, -, -, -, _, ⟨⟩, -⟩

omit [Strategy π τ] in
/-- The input gives its block back, if it held one. -/
theorem tallies_releaseInput (hs : s.Solvent ref size sound) :
    Tallies ref (rest + s.input.held) ((Source.onInput Tape.releaseBlock : SourceM π τ Unit) s)
      fun out used => used = rest + out.2.input.held ∧ out.2.Solvent ref size sound ∧
        heap out.2.strategy = heap s.strategy ∧ out.2.output = s.output := by
  refine (Source.tallies_onInput (P := fun out => out.2.Owes ref size)
    ((Tape.tallies_releaseBlock hs.input).mono fun _ _ hout => ⟨hout.1, hout.2.1⟩)).mono ?_
  rintro ⟨outcome, s'⟩ _ ⟨rfl, htarget, _, howes, -⟩
  simp only at htarget howes
  refine ⟨rfl, hs.of_toTarget htarget howes, ?_, ?_⟩
  · rw [htarget]
  · rw [htarget]

/-- Runs that have room for the rest of the input, and hold no block. -/
theorem tallies_distribute (m : Merger)
    (hleases : Strategy.Leases τ ref sound heap overhead node) {capacity : Nat}
    (hcapacity : 0 < capacity) (hs : s.Solvent ref (m.blockBytes τ) sound)
    (hroom : rest + ref.charged (capacity * (FixedWidth.footprint τ).size) +
      2 * ref.charged (m.blockBytes τ) ≤ ref.ledger.limit) :
    Tallies ref (rest + s.input.held) ((m.distribute capacity : SourceM π τ (List (Tape τ))) s)
      fun out used => used = rest + out.2.input.held ∧ out.2.Solvent ref (m.blockBytes τ) sound ∧
        heap out.2.strategy = heap s.strategy ∧ out.2.output = s.output ∧
        ∀ runs, out.1 = .ok runs → (∀ t ∈ runs, t.Parked (m.blockBytes τ)) ∧
          s.input.size - s.input.offset ≤ runs.length * capacity := by
  have hheld := hs.input.held_le
  unfold distribute
  simp only [Work.run_bind, Work.run_get, Work.run_liftM, bind_assoc, pure_bind]
  refine (Batch.tallies_new capacity (by omega)).bind ?_
  rintro b _ ⟨hbacked, rfl, rfl, -, hlease⟩
  rw [show rest + s.input.held + b.lease.bytes = rest + b.lease.bytes + s.input.held by omega]
  refine (m.tallies_formWithin hleases hcapacity [] s.input.size hs (Nat.sub_le _ _)
    (by omega)).bind ?_
  rintro ⟨_, s'⟩ _ ⟨rfl, hs', hheap, houtput, outcome, formed, rfl, hparked, hall⟩
  simp only [List.nil_append] at hs' hheap houtput ⊢
  rw [show rest + b.lease.bytes + s'.input.held = rest + s'.input.held + b.lease.bytes by omega]
  refine (Batch.tallies_close hbacked).bind ?_
  rintro _ _ rfl
  cases outcome with
  | error e =>
    refine (tallies_abandon hparked e).mono ?_
    rintro _ _ ⟨rfl, rfl⟩
    exact ⟨rfl, hs', hheap, houtput, by rintro _ ⟨⟩⟩
  | ok _ =>
    have hgive : Tallies ref (rest + s'.input.held)
        ((Source.onInput Tape.releaseBlock : SourceM π τ Unit) s') fun out used =>
          used = rest + out.2.input.held ∧ out.2.Solvent ref (m.blockBytes τ) sound ∧
            heap out.2.strategy = heap s'.strategy ∧ out.2.output = s'.output :=
      tallies_releaseInput hs'
    simp only [hheap, houtput] at hgive
    refine Tallies.bind (P := fun out used => used = rest + out.2.input.held ∧
      out.2.Solvent ref (m.blockBytes τ) sound ∧ heap out.2.strategy = heap s.strategy ∧
        out.2.output = s.output) ?_ ?_
    · refine Tallies.run_tryCatch hgive (fun _ _ _ hout => hout) ?_
      intro e s'' used hout
      refine (tallies_abandon hparked e).mono ?_
      rintro _ _ ⟨rfl, rfl⟩
      exact hout
    · rintro ⟨e | _, s''⟩ _ ⟨rfl, hs'', hheap'', houtput''⟩
      · exact Tallies.pure ⟨rfl, hs'', hheap'', houtput'', by rintro _ ⟨⟩⟩
      · refine Tallies.pure ⟨rfl, hs'', hheap'', houtput'', ?_⟩
        rintro _ ⟨⟩
        exact ⟨hparked, hall rfl⟩

omit [Strategy π τ] in
/-- Work with a batch that pays for itself pays for the batch too, which is given back whether the
work fails or not. -/
theorem tallies_withBatch {capacity : Nat} {work : Batch τ → SourceM π τ α} {P : Source π τ → Prop}
    (hroom : rest + s.held + ref.charged (capacity * (FixedWidth.footprint τ).size) ≤
      ref.ledger.limit)
    (hwork : ∀ b : Batch τ,
      b.lease.bytes = ref.charged (capacity * (FixedWidth.footprint τ).size) →
        Tallies ref (rest + s.held + b.lease.bytes) (work b s) fun out used =>
          used = rest + out.2.held + b.lease.bytes ∧ P out.2) :
    Tallies ref (rest + s.held) ((withBatch capacity work : SourceM π τ α) s) fun out used =>
      used = rest + out.2.held ∧ P out.2 := by
  unfold withBatch
  simp only [Work.run_bind, Work.run_liftM, bind_assoc, pure_bind]
  refine (Batch.tallies_new capacity hroom).bind ?_
  rintro b _ ⟨hbacked, rfl, -, -, hlease⟩
  -- After a failure the batch is closed before the error is passed on.
  refine Tallies.bind (P := fun out used => P out.2 ∧
    (∀ a, out.1 = .ok a → used = rest + out.2.held + b.lease.bytes) ∧
      ∀ e, out.1 = .error e → used = rest + out.2.held) ?_ ?_
  · refine Tallies.run_tryCatch (hwork b hlease) ?_ ?_
    · rintro _ s' _ ⟨rfl, hs'⟩
      exact ⟨hs', fun _ _ => rfl, by rintro _ ⟨⟩⟩
    · rintro e s' _ ⟨rfl, hs'⟩
      simp only [Work.run_bind, Work.run_liftM, bind_assoc, pure_bind]
      refine (Batch.tallies_close hbacked).bind ?_
      rintro _ _ rfl
      exact Tallies.pure ⟨hs', by rintro _ ⟨⟩, fun _ _ => rfl⟩
  · rintro ⟨e | a, s'⟩ used ⟨hs', hok, herror⟩
    · exact Tallies.pure ⟨herror e rfl, hs'⟩
    · obtain rfl := hok a rfl
      refine (Batch.tallies_close hbacked).bind ?_
      rintro _ _ rfl
      exact Tallies.pure ⟨rfl, hs'⟩

/-- A batch that is arranged and written takes a block of the input, then one of the output. -/
theorem tallies_arrangeOut (hleases : Strategy.Leases τ ref sound heap overhead node) (b : Batch τ)
    (hs : s.Solvent ref size sound) (hroom : rest + 2 * ref.charged size ≤ ref.ledger.limit) :
    Tallies ref (rest + s.held) ((do
      let b ← Source.arrange b
      Source.onTarget (Target.onOutput do b.store; Tape.flush) : SourceM π τ Unit) s)
      fun out used => used = rest + out.2.held ∧ out.2.Solvent ref size sound ∧
        heap out.2.strategy = heap s.strategy := by
  have houtput := hs.output.held_le
  rw [Source.held, show rest + (s.input.held + s.output.held) =
    rest + s.output.held + s.input.held by omega]
  refine Tallies.run_bind (Source.tallies_arrange hleases b hs (by omega)) ?_ ?_
  · rintro b' s' _ ⟨rfl, hs', hheap, hsame, -⟩
    simp only at hs' hheap hsame ⊢
    have hinput := hs'.input.held_le
    have hstore : Tape.Pays ref size (rest + s'.input.held) (do b'.store; Tape.flush) :=
      (Tape.pays_writeArray _ (by omega)).bind fun _ => Tape.pays_flush
    have htarget : Tallies ref (rest + s'.input.held + s'.output.held)
        ((Target.onOutput do b'.store; Tape.flush : MergeM π τ Unit) s'.toTarget)
        fun out used => used = rest + s'.input.held + out.2.output.held ∧
          out.2.output.Owes ref size ∧ out.2.strategy = s'.strategy :=
      Target.tallies_onOutput hs'.output hstore
    rw [← hsame, show rest + s'.output.held + s'.input.held =
      rest + s'.input.held + s'.output.held by omega]
    refine (Source.tallies_onTarget htarget).mono ?_
    rintro ⟨outcome, s''⟩ _ ⟨⟨rfl, howes, hstrategy⟩, hsame'⟩
    simp only at howes hstrategy hsame' ⊢
    refine ⟨?_, ⟨hsame' ▸ hs'.input, howes, hstrategy ▸ hs'.strategy⟩, by rw [hstrategy, hheap]⟩
    rw [Source.held, hsame']
    omega
  · rintro e s' _ ⟨rfl, hs', hheap, hsame, -⟩
    simp only at hs' hheap hsame ⊢
    refine ⟨?_, hs', hheap⟩
    rw [Source.held, hsame]
    omega

/-- An input that fits in main memory takes a batch, its own block and one of the output. -/
theorem tallies_arrangeAll (hleases : Strategy.Leases τ ref sound heap overhead node)
    (records : Nat) (hs : s.Solvent ref size sound)
    (hroom : rest + ref.charged (records * (FixedWidth.footprint τ).size) +
      2 * ref.charged size ≤ ref.ledger.limit) :
    Tallies ref (rest + s.held) ((arrangeAll records : SourceM π τ Stats) s) fun out used =>
      used = rest + out.2.held ∧ out.2.Solvent ref size sound ∧
        heap out.2.strategy = heap s.strategy := by
  have hinput := hs.input.held_le
  have houtput := hs.output.held_le
  have hheld : s.held = s.input.held + s.output.held := rfl
  unfold arrangeAll
  refine Tallies.run_bind (tallies_withBatch (P := fun s' => s'.Solvent ref size sound ∧
    heap s'.strategy = heap s.strategy) (by omega) fun b hlease => ?_) ?_
      (fun _ _ _ hout => hout)
  · have harrange : Tallies ref (rest + b.lease.bytes + s.held) _ _ :=
      tallies_arrangeOut hleases b hs (by omega)
    rw [show rest + b.lease.bytes + s.held = rest + s.held + b.lease.bytes by omega] at harrange
    refine harrange.mono ?_
    rintro out _ ⟨rfl, hs'⟩
    exact ⟨by omega, hs'⟩
  · exact fun _ _ _ hout => Tallies.pure hout

theorem tallies_capacity (m : Merger) (p : π) :
    Tallies ref used (m.capacity τ p) fun out used' => used' = used ∧
      out = Plan.capacity (ref.ledger.limit - used) (m.formationSpace τ p)
        (max 1 (FixedWidth.footprint τ).size) := by
  unfold capacity
  refine (Tape.tallies_measure _).bind ?_
  rintro _ _ rfl
  refine (Tallies.count _).bind ?_
  rintro _ _ rfl
  exact tallies_plan fun available => Plan.capacity available _ _

/-- What was planned for is enough for a batch of as many records and two blocks. -/
theorem room_of_capacity (m : Merger) {p : π} {records capacity : Nat}
    (hused : used ≤ ref.ledger.limit)
    (hplan : Plan.capacity (ref.ledger.limit - used) (m.formationSpace τ p)
      (max 1 (FixedWidth.footprint τ).size) = .ok capacity) (hle : records ≤ capacity) :
    used + ref.charged (records * (FixedWidth.footprint τ).size) +
      2 * ref.charged (m.blockBytes τ) ≤ ref.ledger.limit := by
  obtain ⟨-, hspace⟩ := Plan.capacity_le hplan
  have hblock : ref.charged (m.blockBytes τ) ≤ m.tapeSpace τ := m.charged_blockBytes_le
  have hbatch : ref.charged (records * (FixedWidth.footprint τ).size) ≤
      capacity * max 1 (FixedWidth.footprint τ).size :=
    (ref.charged_le _).trans (Nat.mul_le_mul hle (Nat.le_max_right _ _))
  rw [formationSpace] at hspace
  omega

/-- An input with more records than a run has room for forms two runs at least. They hold no block
when their merge begins. -/
theorem tallies_mergeFormed (m : Merger) (hleases : Strategy.Leases τ ref sound heap overhead node)
    {capacity : Nat} (hcapacity : 0 < capacity) (hs : s.Solvent ref (m.blockBytes τ) sound)
    (hoffset : s.input.offset = 0) (hmany : capacity < s.input.size)
    (hroom : rest + heap s.strategy + s.output.held +
      ref.charged (capacity * (FixedWidth.footprint τ).size) +
        2 * ref.charged (m.blockBytes τ) ≤ ref.ledger.limit) :
    Tallies ref (rest + heap s.strategy + s.output.held + s.input.held) ((do
      let runs ← m.distribute capacity
      Site.report (.runsFormed runs.length)
      Source.onTarget (m.merge runs) : SourceM π τ Stats) s)
      fun out used => used = rest + heap out.2.strategy + out.2.held ∧
        out.2.Solvent ref (m.blockBytes τ) sound := by
  refine Tallies.run_bind (m.tallies_distribute hleases hcapacity hs hroom) ?_ ?_
  · rintro runs s' _ ⟨rfl, hs', hheap, hsame, hok⟩
    obtain ⟨hparked, hall⟩ := hok runs rfl
    simp only at hs' hheap hsame ⊢
    have htwo : 1 < runs.length := by
      by_contra hfew
      have hle := Nat.mul_le_mul_right capacity (Nat.le_of_not_lt hfew)
      rw [hoffset] at hall
      omega
    rw [show rest + heap s.strategy + s.output.held + s'.input.held =
      rest + s'.input.held + heap s'.strategy + s'.output.held + Tape.heldAll runs by
        rw [hheap, hsame, Tape.heldAll_of_parked hparked]; omega]
    apply Tallies.run_report rfl
    refine (Source.tallies_onTarget (m.tallies_merge hleases hs'.strategy hs'.output
      (fun t ht => (hparked t ht).owes) htwo)).mono ?_
    rintro ⟨outcome, s''⟩ _ ⟨⟨rfl, hp, howes⟩, hinput⟩
    simp only at hp howes hinput ⊢
    refine ⟨?_, hinput ▸ hs'.input, howes, hp⟩
    rw [Source.held, hinput]
    omega
  · rintro e s' _ ⟨rfl, hs', hheap, hsame, -⟩
    simp only at hs' hheap hsame ⊢
    refine ⟨?_, hs'⟩
    rw [Source.held, hheap, hsame]
    omega

/-- The whole of an external sort or shuffle stays within the limit. -/
theorem tallies_process (m : Merger) (hleases : Strategy.Leases τ ref sound heap overhead node)
    (hs : s.Solvent ref (m.blockBytes τ) sound) :
    Tallies ref (rest + heap s.strategy + s.held) ((m.process : SourceM π τ Stats) s)
      fun out used => used = rest + heap out.2.strategy + out.2.held ∧
        out.2.Solvent ref (m.blockBytes τ) sound := by
  have hheld : s.held = s.input.held + s.output.held := rfl
  unfold process
  rw [show rest + heap s.strategy + s.held =
    rest + heap s.strategy + s.output.held + s.input.held by omega]
  refine Tallies.run_bind (Source.tallies_rewind hs.input) ?_ ?_
  swap
  · rintro e s' _ ⟨rfl, htarget, howes, -⟩
    simp only at htarget howes ⊢
    refine ⟨?_, hs.of_toTarget htarget howes⟩
    rw [Source.held, htarget]
    omega
  rintro _ s' _ ⟨rfl, htarget, howes, hoffset⟩
  replace hoffset := hoffset rfl
  simp only at htarget howes hoffset ⊢
  have hs' := hs.of_toTarget htarget howes
  rw [← htarget]
  have hheld : s'.held = s'.input.held + s'.output.held := rfl
  simp only [Work.run_bind, Work.run_get, Work.run_liftM, bind_assoc, pure_bind]
  refine Tallies.of_le fun hused => ?_
  refine (m.tallies_capacity s'.strategy).bind ?_
  rintro plan _ ⟨rfl, hplan⟩
  cases plan with
  | error e => exact Tallies.pure ⟨by simp only; omega, hs'⟩
  | ok capacity =>
    obtain ⟨hcapacity, -⟩ := Plan.capacity_le hplan.symm
    simp only
    split
    · next hfits =>
      have hroom := m.room_of_capacity hused hplan.symm hfits
      apply Tallies.run_report rfl
      rw [show rest + heap s'.strategy + s'.output.held + s'.input.held =
        rest + heap s'.strategy + s'.held by omega]
      refine (tallies_arrangeAll hleases _ hs' (by omega)).mono ?_
      rintro out _ ⟨rfl, hs'', hheap⟩
      exact ⟨by rw [hheap], hs''⟩
    · next hmany =>
      have hroom := m.room_of_capacity hused hplan.symm (Nat.le_refl capacity)
      apply Tallies.run_report rfl
      exact m.tallies_mergeFormed hleases hcapacity hs' hoffset (by omega) (by omega)

end Merger

end BoundedMerge
