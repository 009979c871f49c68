import BoundedMerge.Merge.Formation
import BoundedMerge.Proofs.Merge.Steady

/-!
Run formation beside the same on disks that refuse nothing. Here a failure is not always that of
the work: a batch keeps what was read before a failure, and the runs formed before one are to be
closed, so it is handed on as a part of the result.
-/

namespace BoundedMerge

open SiteM

variable {α β γ δ π τ : Type}

namespace Work

variable {ε σ σ' : Type}

def Missed (lost : α → Prop) (out : Except ε α × σ) : Prop :=
  Failed out ∨ ∃ a, out.1 = .ok a ∧ lost a

/-- Work on a state, and work on what the state is with steady disks: unless the first misses, the
second has a related result. -/
def Mirrors (f : σ → σ') (lost : α → Prop) (R : α → β → Prop)
    (work : ExceptT ε (StateT σ SiteM) α) (twin : ExceptT ε (StateT σ' SiteM) β) : Prop :=
  ∀ s, SiteM.Echoes (work s) (twin (f s)) (Missed lost)
    fun out out' => ∃ a b, out.1 = .ok a ∧ out' = (.ok b, f out.2) ∧ R a b

namespace Mirrors

variable {f : σ → σ'} {g : α → β} {lost : α → Prop} {lost' : γ → Prop} {R : α → β → Prop}
  {R' : γ → δ → Prop}

theorem pure {a : α} {b : β} (h : R a b) :
    Mirrors f lost R (pure a : ExceptT ε (StateT σ SiteM) α) (pure b) :=
  fun _ => SiteM.Echoes.pure ⟨a, b, rfl, rfl, h⟩

theorem of_echoes {work : ExceptT ε (StateT σ SiteM) α} {twin : ExceptT ε (StateT σ' SiteM) β}
    (h : Echoes f g work twin) : Mirrors f lost (fun a b => b = g a) work twin := by
  intro s
  apply (h s).mono
  · intro out hfailed
    exact .inl hfailed
  · intro out out' hrel
    obtain ⟨a, ha, hout'⟩ := hrel
    exact ⟨a, g a, ha, hout', rfl⟩

/-- Work at the site whose lost results are those that tell of a failure. -/
theorem lift {work : SiteM α} {twin : SiteM β} (h : SiteM.Echoes work twin lost R) :
    Mirrors f lost R (liftM work : ExceptT ε (StateT σ SiteM) α) (liftM twin) := by
  intro s
  rw [run_liftM, run_liftM]
  apply h.bind
  · intro a ha
    exact Loses.pure (.inr ⟨a, rfl, ha⟩)
  · intro a b hab
    exact SiteM.Echoes.pure ⟨a, b, rfl, rfl, hab⟩

theorem bind {work : ExceptT ε (StateT σ SiteM) α} {twin : ExceptT ε (StateT σ' SiteM) β}
    {next : α → ExceptT ε (StateT σ SiteM) γ} {next' : β → ExceptT ε (StateT σ' SiteM) δ}
    (h : Mirrors f lost R work twin)
    (hlost : ∀ a, lost a → ∀ s, Loses (next a s) (Missed lost'))
    (hnext : ∀ a b, R a b → Mirrors f lost' R' (next a) (next' b)) :
    Mirrors f lost' R' (work >>= next) (twin >>= next') := by
  intro s
  rw [run_bind, run_bind]
  apply (h s).bind
  · intro out hmissed
    obtain ⟨outcome, s'⟩ := out
    rcases hmissed with ⟨e, rfl⟩ | ⟨a, rfl, ha⟩
    · exact Loses.pure (.inl ⟨e, rfl⟩)
    · exact hlost a ha s'
  · intro out out' hrel
    obtain ⟨outcome, s'⟩ := out
    obtain ⟨a, b, rfl, rfl, hab⟩ := hrel
    exact hnext a b hab s'

theorem after {work : ExceptT ε (StateT σ SiteM) α} {twin : ExceptT ε (StateT σ' SiteM) β}
    {next : α → ExceptT ε (StateT σ SiteM) γ} {next' : β → ExceptT ε (StateT σ' SiteM) δ}
    (h : Echoes f g work twin) (hnext : ∀ a, Mirrors f lost' R' (next a) (next' (g a))) :
    Mirrors f lost' R' (work >>= next) (twin >>= next') := by
  have hmirrors : Mirrors f (fun _ => False) _ work twin := of_echoes h
  apply hmirrors.bind
  · intro a ha
    exact ha.elim
  · intro a b hab
    subst hab
    exact hnext a

/-- A handler that makes every failure a part of the result. -/
theorem observe {work : ExceptT ε (StateT σ SiteM) α} {twin : ExceptT ε (StateT σ' SiteM) β}
    {handle : ε → ExceptT ε (StateT σ SiteM) α} {handle' : ε → ExceptT ε (StateT σ' SiteM) β}
    (h : Mirrors f lost R work twin) (hhandle : ∀ e s, Loses (handle e s) (Missed lost)) :
    Mirrors f lost R (tryCatch work handle) (tryCatch twin handle') := by
  intro s
  rw [run_tryCatch, run_tryCatch]
  apply (h s).bind
  · intro out hmissed
    obtain ⟨outcome, s'⟩ := out
    rcases hmissed with ⟨e, rfl⟩ | ⟨a, rfl, ha⟩
    · exact hhandle e s'
    · exact Loses.pure (.inr ⟨a, rfl, ha⟩)
  · intro out out' hrel
    obtain ⟨outcome, s'⟩ := out
    obtain ⟨a, b, rfl, rfl, hab⟩ := hrel
    exact SiteM.Echoes.pure ⟨a, b, rfl, rfl, hab⟩

/-- Work that fails wherever its first part told of a failure. -/
theorem echoes_bind {h : γ → δ} {work : ExceptT ε (StateT σ SiteM) α}
    {twin : ExceptT ε (StateT σ' SiteM) β} {next : α → ExceptT ε (StateT σ SiteM) γ}
    {next' : β → ExceptT ε (StateT σ' SiteM) δ} (hwork : Mirrors f lost R work twin)
    (hlost : ∀ a, lost a → Fails (next a))
    (hnext : ∀ a b, R a b → Echoes f h (next a) (next' b)) :
    Echoes f h (work >>= next) (twin >>= next') := by
  intro s
  rw [run_bind, run_bind]
  apply (hwork s).bind
  · intro out hmissed
    obtain ⟨outcome, s'⟩ := out
    rcases hmissed with ⟨e, rfl⟩ | ⟨a, rfl, ha⟩
    · exact Loses.pure ⟨e, rfl⟩
    · exact hlost a ha s'
  · intro out out' hrel
    obtain ⟨outcome, s'⟩ := out
    obtain ⟨a, b, rfl, rfl, hab⟩ := hrel
    exact hnext a b hab s'

end Mirrors

end Work

namespace Batch

variable [FixedWidth τ]

theorem blind_new (capacity : Nat) : SiteM.Blind (new capacity : SiteM (Batch τ)) :=
  Blind.bind (Blind.count _) fun _ => Blind.bind (Blind.take _) fun _ =>
    Blind.bind (Blind.provide _) fun _ => Blind.pure

def Stopped {κ : Type} (out : Except TapeError κ × Batch τ) : Prop := ∃ e, out.1 = .error e

theorem mirrors_pull (b : Batch τ) (count : Nat) :
    Work.Mirrors Tape.steady Stopped
      (fun out out' => ∃ b', out = (.ok (), b') ∧ out' = (.ok (), b'))
      (b.pull count : TapeM τ (Except TapeError Unit × Batch τ)) (b.pull count) := by
  induction count generalizing b with
  | zero => exact Work.Mirrors.pure ⟨b, rfl, rfl⟩
  | succ count ih =>
    rw [pull]
    have hread : Work.Mirrors Tape.steady (fun out : Except TapeError τ => ∃ e, out = .error e)
        (fun out out' : Except TapeError τ => ∃ x, out = .ok x ∧ out' = .ok x)
        (Except.ok <$> (Tape.read : TapeM τ τ)) (Except.ok <$> Tape.read) := by
      rw [map_eq_pure_bind]
      exact Work.Mirrors.after Tape.echoes_read fun x => Work.Mirrors.pure ⟨x, rfl, rfl⟩
    have hpush (x : τ) : SiteM.Blind (b.push x) :=
      Blind.bind (Blind.assert _ _) fun _ => Blind.pure
    unfold pull.observing
    apply (hread.observe fun e _ => Loses.pure (.inr ⟨_, rfl, e, rfl⟩)).bind
    · intro out hlost s
      obtain ⟨e, rfl⟩ := hlost
      exact Loses.pure (.inr ⟨_, rfl, e, rfl⟩)
    · intro out out' hread'
      obtain ⟨x, rfl, rfl⟩ := hread'
      exact Work.Mirrors.after (Work.Echoes.blind (hpush x)) fun b' => ih b'

theorem mirrors_fill (b : Batch τ) :
    Work.Mirrors Tape.steady Stopped
      (fun out out' => ∃ count b', out = (.ok count, b') ∧ out' = (.ok count, b'))
      (b.fill : TapeM τ (Except TapeError Nat × Batch τ)) b.fill := by
  unfold fill
  intro t
  apply Work.Mirrors.bind (b.mirrors_pull (min (b.capacity - b.items.size) (t.size - t.offset)))
  · intro out hlost s
    obtain ⟨outcome, b'⟩ := out
    obtain ⟨e, rfl⟩ := hlost
    exact Loses.pure (.inr ⟨_, rfl, e, rfl⟩)
  · intro out out' hpull
    obtain ⟨b', rfl, rfl⟩ := hpull
    exact Work.Mirrors.pure ⟨_, b', rfl, rfl⟩

theorem echoes_store (b : Batch τ) : Tape.Echoes b.store := Tape.echoes_writeArray b.items.toList

end Batch

namespace Source

def steady (s : Source π τ) : Source π τ where
  toTarget := s.toTarget.steady
  input := s.input.steady

theorem echoes_onTarget {g : α → β} {work : MergeM π τ α} {twin : MergeM π τ β}
    (h : Work.Echoes Target.steady g work twin) :
    Work.Echoes steady g (onTarget work : SourceM π τ α) (onTarget twin) := by
  intro s
  unfold onTarget
  simp only [Work.run_bind, Work.run_get, Work.run_liftM, Work.run_modify, bind_assoc, pure_bind]
  apply h.run s.toTarget
  · intro e target
    exact Loses.pure ⟨_, rfl⟩
  · intro a target
    exact SiteM.Echoes.pure ⟨a, rfl, rfl⟩

theorem mirrors_onInput {lost : α → Prop} {R : α → β → Prop} {work : TapeM τ α} {twin : TapeM τ β}
    (h : Work.Mirrors Tape.steady lost R work twin) :
    Work.Mirrors steady lost R (onInput work : SourceM π τ α) (onInput twin) := by
  intro s
  unfold onInput
  simp only [Work.run_bind, Work.run_get, Work.run_liftM, Work.run_modify, bind_assoc, pure_bind]
  apply (h s.input).bind
  · intro out hmissed
    obtain ⟨outcome, input⟩ := out
    rcases hmissed with ⟨e, rfl⟩ | ⟨a, rfl, ha⟩
    · exact Loses.pure (.inl ⟨_, rfl⟩)
    · exact Loses.pure (.inr ⟨a, rfl, ha⟩)
  · intro out out' hrel
    obtain ⟨outcome, input⟩ := out
    obtain ⟨a, b, rfl, rfl, hab⟩ := hrel
    exact SiteM.Echoes.pure ⟨a, b, rfl, rfl, hab⟩

theorem echoes_onInput {work : TapeM τ α} (h : Tape.Echoes work) :
    Work.Echoes steady id (onInput work : SourceM π τ α) (onInput work) := by
  have hmirrors : Work.Mirrors steady (fun _ => False) _ (onInput work : SourceM π τ α) _ :=
    mirrors_onInput (Work.Mirrors.of_echoes h)
  rw [← bind_pure (onInput work : SourceM π τ α)]
  apply hmirrors.echoes_bind
  · intro a ha
    exact ha.elim
  · intro a b hab
    rw [hab]
    exact Work.Echoes.pure a

variable [FixedWidth τ]

theorem echoes_fill (b : Batch τ) :
    Work.Echoes steady id (fill b : SourceM π τ (Batch τ)) (fill b) := by
  unfold fill
  apply (mirrors_onInput b.mirrors_fill).echoes_bind
  · intro out hlost
    obtain ⟨outcome, b'⟩ := out
    obtain ⟨e, rfl⟩ := hlost
    exact Work.Fails.throw _
  · intro out out' hfill
    obtain ⟨count, b', rfl, rfl⟩ := hfill
    exact Work.Echoes.pure b'

variable [Strategy π τ]

theorem echoes_arrange (hblind : Strategy.Blind π τ) (b : Batch τ) :
    Work.Echoes steady id (arrange b : SourceM π τ (Batch τ)) (arrange b) := by
  apply (echoes_fill b.clear).bind
  intro b'
  have harrange := Work.Echoes.of_blind (hblind.arrange b'.items)
  apply (echoes_onTarget (Target.echoes_onStrategy harrange)).bind
  intro items
  exact Work.Echoes.pure _

end Source

namespace Merger

variable [FixedWidth τ]

theorem fails_closeAll {e : MergeError} (tapes : List (Tape τ)) :
    Work.Fails (do closeAll tapes; throw e : SourceM π τ α) :=
  Work.Fails.after fun _ => Work.Fails.throw e

theorem echoes_withBatch (capacity : Nat) {g : α → β} {work : Batch τ → SourceM π τ α}
    {twin : Batch τ → SourceM π τ β} (h : ∀ b, Work.Echoes Source.steady g (work b) (twin b)) :
    Work.Echoes Source.steady g (withBatch capacity work) (withBatch capacity twin) := by
  apply (Work.Echoes.blind (Batch.blind_new capacity)).bind
  intro b
  apply Work.Echoes.bind
  · apply Work.Echoes.rethrow (h b)
    intro e
    exact Work.Fails.after fun _ => Work.Fails.throw e
  · intro a
    apply (Work.Echoes.blind (Blind.release b.lease)).bind
    intro _
    exact Work.Echoes.pure a

theorem echoes_park (m : Merger) (b : Batch τ) :
    SiteM.Echoes (m.park b) (m.park b) (fun made => ∃ e, made = .error e)
      (fun made made' => ∃ t, made = .ok t ∧ made' = .ok t.steady) := by
  unfold park
  apply m.echoes_newTape.bind
  · intro made hlost
    obtain ⟨e, rfl⟩ := hlost
    exact Loses.pure ⟨_, rfl⟩
  · intro made made' hmade
    obtain ⟨t, rfl, rfl⟩ := hmade
    have hstore : Tape.Echoes (do b.store; Tape.seek 0; Tape.releaseBlock : TapeM τ Unit) :=
      b.echoes_store.bind fun _ => (Tape.echoes_seek 0).bind fun _ => Tape.echoes_releaseBlock
    apply hstore.run t
    · intro e t'
      exact Loses.after fun _ => Loses.pure ⟨_, rfl⟩
    · intro _ t'
      exact SiteM.Echoes.pure ⟨t', rfl, rfl⟩

variable [Strategy π τ]

theorem echoes_arrangeAll (hblind : Strategy.Blind π τ) (records : Nat) :
    Work.Echoes Source.steady id (arrangeAll records : SourceM π τ Stats)
      (arrangeAll records) := by
  have hwork (b : Batch τ) : Work.Echoes Source.steady id (do
      let b ← Source.arrange b
      Source.onTarget (Target.onOutput do b.store; Tape.flush) : SourceM π τ Unit) (do
      let b ← Source.arrange b
      Source.onTarget (Target.onOutput do b.store; Tape.flush)) := by
    apply (Source.echoes_arrange hblind b).bind
    intro b'
    exact Source.echoes_onTarget (Target.echoes_onOutput
      (b'.echoes_store.bind fun _ => Tape.echoes_flush))
  apply (echoes_withBatch records hwork).bind
  intro _
  exact Work.Echoes.pure _

/-- The run that a batch becomes is the one that it becomes on disks that refuse nothing. -/
theorem mirrors_formed (m : Merger) (hblind : Strategy.Blind π τ) (b : Batch τ) :
    Work.Mirrors Source.steady (fun out => ∃ e, out = .error e)
      (fun out out' => ∃ t, out = .ok t ∧ out' = .ok t.steady)
      (formWithin.formed m b : SourceM π τ (Except MergeError (Tape τ)))
      (formWithin.formed m b) := by
  unfold formWithin.formed
  apply Work.Mirrors.observe
  · apply Work.Mirrors.after (Source.echoes_arrange hblind b)
    intro b'
    exact Work.Mirrors.lift (m.echoes_park b')
  · intro e _
    exact Loses.pure (.inr ⟨_, rfl, e, rfl⟩)

theorem mirrors_formWithin (m : Merger) (hblind : Strategy.Blind π τ) (b : Batch τ)
    (runs : List (Tape τ)) (count : Nat) :
    Work.Mirrors Source.steady (fun out => ∃ e, out.1 = .error e)
      (fun out out' => ∃ runs', out = (.ok (), runs') ∧ out' = (.ok (), runs'.map Tape.steady))
      (m.formWithin b runs count : SourceM π τ (Except MergeError Unit × List (Tape τ)))
      (m.formWithin b (runs.map Tape.steady) count) := by
  induction count generalizing runs with
  | zero => exact Work.Mirrors.pure ⟨runs, rfl, rfl⟩
  | succ count ih =>
    rw [formWithin, formWithin]
    intro s
    have hread : s.steady.input.canRead = s.input.canRead := rfl
    simp only [Work.run_bind, Work.run_get, pure_bind, hread, Work.run_ite]
    split
    · exact SiteM.Echoes.pure ⟨_, _, rfl, rfl, runs, rfl, rfl⟩
    · rw [← Work.run_bind, ← Work.run_bind]
      apply (m.mirrors_formed hblind b).bind
      · intro out hlost s'
        obtain ⟨e, rfl⟩ := hlost
        exact Loses.pure (.inr ⟨_, rfl, e, rfl⟩)
      · intro out out' hformed
        obtain ⟨run, rfl, rfl⟩ := hformed
        have hrest := ih (runs ++ [run])
        rw [List.map_append, List.map_cons, List.map_nil] at hrest
        exact hrest

theorem echoes_distribute (m : Merger) (hblind : Strategy.Blind π τ) (capacity : Nat) :
    Work.Echoes Source.steady (List.map Tape.steady)
      (m.distribute capacity : SourceM π τ (List (Tape τ))) (m.distribute capacity) := by
  apply (Work.Echoes.blind (Batch.blind_new capacity)).bind
  intro b
  apply Work.Echoes.get
  intro s
  apply (m.mirrors_formWithin hblind b [] s.input.size).echoes_bind
  · intro out hlost
    obtain ⟨outcome, runs⟩ := out
    obtain ⟨e, rfl⟩ := hlost
    exact Work.Fails.after fun _ => fails_closeAll runs
  · intro out out' hformed
    obtain ⟨runs, rfl, rfl⟩ := hformed
    apply (Work.Echoes.blind (Blind.release b.lease)).bind
    intro _
    apply Work.Echoes.bind
    · apply Work.Echoes.rethrow (Source.echoes_onInput Tape.echoes_releaseBlock)
      intro e
      exact fails_closeAll runs
    · intro _
      exact Work.Echoes.pure runs

/-- Where the input is processed, the one whose disks refuse nothing is processed to the same. -/
theorem echoes_process (m : Merger) (hblind : Strategy.Blind π τ) :
    Work.Echoes Source.steady id (m.process : SourceM π τ Stats) m.process := by
  apply (Source.echoes_onInput (Tape.echoes_seek 0)).bind
  intro _
  apply Work.Echoes.get
  intro s
  apply (Work.Echoes.blind (m.blind_capacity s.strategy)).bind
  intro plan
  cases plan with
  | error e => exact Work.Echoes.throw e _
  | ok capacity =>
    have hsize : s.steady.input.size = s.input.size := rfl
    simp only [id, hsize]
    split
    · exact (Work.Echoes.blind (Blind.report _)).bind fun _ => echoes_arrangeAll hblind _
    · apply (Work.Echoes.blind (Blind.report _)).bind
      intro _
      apply (m.echoes_distribute hblind capacity).bind
      intro runs
      rw [List.length_map]
      apply (Work.Echoes.blind (Blind.report _)).bind
      intro _
      exact Source.echoes_onTarget (m.echoes_merge hblind runs)

end Merger

def Transfer.steady (t : Transfer τ) : Transfer τ where
  input := t.input.steady
  output := t.output.steady

theorem Merger.echoes_processWith [FixedWidth τ] [Strategy π τ] (m : Merger)
    (hblind : Strategy.Blind π τ) (p : π) :
    Work.Echoes Transfer.steady id
      (m.processWith p : ExceptT MergeError (StateT (Transfer τ) SiteM) Stats)
      (m.processWith p) := by
  intro t
  unfold processWith
  simp only [Work.run_bind, Work.run_get, Work.run_set, Work.run_liftM, bind_assoc, pure_bind]
  apply (m.echoes_process hblind).run { input := t.input, output := t.output, strategy := p }
  · intro e s
    exact Loses.after fun _ => Loses.pure ⟨e, rfl⟩
  · intro stats s
    apply (hblind.close s.strategy).bind'
    intro _ _ _
    exact SiteM.Echoes.pure ⟨stats, rfl, rfl⟩

end BoundedMerge
