import BoundedMerge.Merge.Passes
import BoundedMerge.Proofs.Strategy.Budget
import BoundedMerge.Proofs.Tape.Budget

/-!
What a pass pays for. At a bench every tape may hold a block, and the strategy its selection. Room
for a block of each tape beside the selection is enough for the whole pass, on any disks.
-/

namespace BoundedMerge

open SiteM

variable {α β π τ : Type} {ref : Site} {size count rest : Nat}

def Tape.heldAll (tapes : List (Tape τ)) : Nat := (tapes.map Tape.held).sum

@[simp] theorem Tape.heldAll_nil : heldAll ([] : List (Tape τ)) = 0 := rfl

@[simp] theorem Tape.heldAll_cons (t : Tape τ) (tapes : List (Tape τ)) :
    heldAll (t :: tapes) = t.held + heldAll tapes := rfl

@[simp] theorem Tape.heldAll_append (tapes tapes' : List (Tape τ)) :
    heldAll (tapes ++ tapes') = heldAll tapes + heldAll tapes' := by
  simp [heldAll]

variable [FixedWidth τ]

theorem Tape.heldAll_le {tapes : List (Tape τ)} (h : ∀ t ∈ tapes, t.Owes ref size) :
    heldAll tapes ≤ tapes.length * ref.charged size := by
  induction tapes with
  | nil => exact Nat.zero_le _
  | cons t tapes ih =>
    have hhead := (h t List.mem_cons_self).held_le
    have htail := ih fun t ht => h t (List.mem_cons_of_mem _ ht)
    rw [heldAll_cons, List.length_cons, Nat.succ_mul]
    omega

namespace Bench

def held (b : Bench π τ) : Nat := Tape.heldAll b.inputs.toList + b.output.held

/-- There are `count` inputs, all tapes paid for the blocks that they hold, and the strategy
`fits`. -/
structure Solvent (ref : Site) (size count : Nat) (fits : π → Prop) (b : Bench π τ) : Prop where
  inputs_size : b.inputs.size = count
  inputs : ∀ t ∈ b.inputs.toList, t.Owes ref size
  output : b.output.Owes ref size
  strategy : fits b.strategy

/-- Work that accounts for the blocks of all tapes, with `rest` bytes in use elsewhere. -/
def Pays (ref : Site) (size count rest : Nat) (fits : π → Prop) (work : BenchM π τ α) : Prop :=
  ∀ b : Bench π τ, b.Solvent ref size count fits →
    Tallies ref (rest + b.held) (work b) fun out used =>
      used = rest + out.2.held ∧ out.2.Solvent ref size count fits

variable {fits : π → Prop} {b : Bench π τ}

theorem Solvent.mono {fits' : π → Prop} (h : b.Solvent ref size count fits)
    (hfits : fits b.strategy → fits' b.strategy) : b.Solvent ref size count fits' :=
  ⟨h.inputs_size, h.inputs, h.output, hfits h.strategy⟩

/-- Each tape holds a block at most. -/
theorem Solvent.held_le (h : b.Solvent ref size count fits) :
    b.held ≤ (count + 1) * ref.charged size := by
  have hinputs := Tape.heldAll_le h.inputs
  have houtput := h.output.held_le
  rw [Array.length_toList, h.inputs_size] at hinputs
  rw [held, Nat.succ_mul]
  omega

namespace Pays

theorem pure (a : α) : Pays ref size count rest fits (pure a : BenchM π τ α) :=
  fun _ hb => Tallies.pure ⟨rfl, hb⟩

theorem throw (e : MergeError) : Pays ref size count rest fits (throw e : BenchM π τ α) :=
  fun _ hb => Tallies.pure ⟨rfl, hb⟩

theorem bind {work : BenchM π τ α} {next : α → BenchM π τ β}
    (h : Pays ref size count rest fits work) (hnext : ∀ a, Pays ref size count rest fits (next a)) :
    Pays ref size count rest fits (work >>= next) := by
  intro b hb
  refine Tallies.run_bind (h b hb) ?_ (fun _ _ _ hout => hout)
  rintro a b' _ ⟨rfl, hb'⟩
  exact hnext a b' hb'

end Pays

omit [FixedWidth τ] in
/-- One input among the others, and what is held if another tape takes its place. -/
theorem split_held {b : Bench π τ} {index : Nat} {t : Tape τ} (ht : b.inputs[index]? = some t) :
    ∃ before after, b.inputs.toList = before ++ t :: after ∧ ∀ t',
      Bench.held { b with inputs := b.inputs.setIfInBounds index t' } =
        Tape.heldAll (before ++ after) + b.output.held + t'.held := by
  rw [← Array.getElem?_toList] at ht
  obtain ⟨hlt, hget⟩ := List.getElem?_eq_some_iff.mp ht
  refine ⟨b.inputs.toList.take index, b.inputs.toList.drop (index + 1), ?_, fun t' => ?_⟩
  · rw [← hget, ← List.drop_eq_getElem_cons hlt, List.take_append_drop]
  · rw [held, Array.toList_setIfInBounds, List.set_eq_take_append_cons_drop, if_pos hlt,
      Tape.heldAll_append, Tape.heldAll_append, Tape.heldAll_cons]
    simp only
    omega

/-- A tape that paid for its block may take the place of an input. -/
theorem Solvent.set {b : Bench π τ} (hb : b.Solvent ref size count fits) (index : Nat) {t : Tape τ}
    (ht : t.Owes ref size) :
    Bench.Solvent ref size count fits
      { b with inputs := b.inputs.setIfInBounds index t } := by
  refine ⟨?_, ?_, hb.output, hb.strategy⟩
  · rw [Array.size_setIfInBounds, hb.inputs_size]
  · intro u hu
    rw [Array.toList_setIfInBounds] at hu
    rcases List.mem_or_eq_of_mem_set hu with hu | rfl
    · exact hb.inputs u hu
    · exact ht

theorem pays_onInput (index : Nat) {work : TapeM τ α}
    (hwork : ∀ rest, rest + ref.charged size ≤ ref.ledger.limit → Tape.Pays ref size rest work)
    (hroom : rest + (count + 1) * ref.charged size ≤ ref.ledger.limit) :
    Pays ref size count rest fits (onInput index work : BenchM π τ α) := by
  intro b hb
  unfold onInput
  simp only [Work.run_bind, Work.run_get, Work.run_liftM, Work.run_modify, bind_assoc, pure_bind]
  refine (Tallies.demand _).bind ?_
  rintro t _ ⟨ht, rfl⟩
  obtain ⟨before, after, hinputs, hheld⟩ := split_held ht
  have howed := hb.inputs
  rw [hinputs] at howed
  obtain ⟨hbefore, hafter⟩ := List.forall_mem_append.mp howed
  obtain ⟨howes, hafter⟩ := List.forall_mem_cons.mp hafter
  have hothers : Tape.heldAll (before ++ after) + ref.charged size ≤ count * ref.charged size := by
    have hle := Tape.heldAll_le (List.forall_mem_append.mpr ⟨hbefore, hafter⟩)
    have hlength : (before ++ after).length + 1 = count := by
      rw [← hb.inputs_size, ← Array.length_toList, hinputs]
      simp only [List.length_append, List.length_cons]
      omega
    rw [← hlength, Nat.succ_mul]
    omega
  have houtput := hb.output.held_le
  rw [Nat.succ_mul] at hroom
  have hself : b.held = Tape.heldAll (before ++ after) + b.output.held + t.held := by
    rw [held, hinputs, Tape.heldAll_append, Tape.heldAll_append, Tape.heldAll_cons]
    omega
  rw [hself, ← Nat.add_assoc]
  refine (hwork _ (by omega) t howes).bind ?_
  rintro ⟨outcome, t'⟩ _ ⟨rfl, howes'⟩
  simp only at howes' ⊢
  rw [Nat.add_assoc, ← hheld t']
  cases outcome with
  | ok a => exact Tallies.pure ⟨rfl, hb.set index howes'⟩
  | error e => exact Tallies.pure ⟨rfl, hb.set index howes'⟩

theorem pays_onOutput {work : TapeM τ α}
    (hwork : ∀ rest, rest + ref.charged size ≤ ref.ledger.limit → Tape.Pays ref size rest work)
    (hroom : rest + (count + 1) * ref.charged size ≤ ref.ledger.limit) :
    Pays ref size count rest fits (onTarget (Target.onOutput work) : BenchM π τ α) := by
  intro b hb
  have hinputs := Tape.heldAll_le hb.inputs
  rw [Array.length_toList, hb.inputs_size] at hinputs
  rw [Nat.succ_mul] at hroom
  unfold onTarget Target.onOutput
  simp only [Work.run_bind, Work.run_get, Work.run_liftM, Work.run_modify, bind_assoc, pure_bind,
    held, ← Nat.add_assoc]
  refine (hwork (rest + Tape.heldAll b.inputs.toList) (by omega) b.output hb.output).bind ?_
  rintro ⟨_ | _, t⟩ _ ⟨rfl, ht⟩
  · exact Tallies.pure ⟨rfl, hb.inputs_size, hb.inputs, ht, hb.strategy⟩
  · exact Tallies.pure ⟨rfl, hb.inputs_size, hb.inputs, ht, hb.strategy⟩

theorem pays_readFirsts (hroom : rest + (count + 1) * ref.charged size ≤ ref.ledger.limit)
    (index number : Nat) :
    Pays ref size count rest fits (readFirsts index number : BenchM π τ (List (Option τ))) := by
  induction number generalizing index with
  | zero => exact Pays.pure []
  | succ number ih =>
    exact (pays_onInput index (fun _ h => Tape.pays_next? h) hroom).bind fun x =>
      (ih (index + 1)).bind fun _ => Pays.pure _

theorem pays_advance (hroom : rest + (count + 1) * ref.charged size ≤ ref.ledger.limit)
    (pending : List (Option τ)) (indices : List Nat) :
    Pays ref size count rest fits
      (advance pending indices : BenchM π τ (List (Option τ) × Nat)) := by
  induction indices generalizing pending with
  | nil => exact Pays.pure _
  | cons index indices ih =>
    exact (pays_onInput index (fun _ h => Tape.pays_next? h) hroom).bind fun x =>
      (ih _).bind fun _ => Pays.pure _

theorem pays_releaseInputs (hroom : rest + (count + 1) * ref.charged size ≤ ref.ledger.limit)
    (indices : List Nat) :
    Pays ref size count rest fits (releaseInputs indices : BenchM π τ Unit) := by
  induction indices with
  | nil => exact Pays.pure ()
  | cons index indices ih =>
    refine (pays_onInput index (fun _ _ t ht => ?_) hroom).bind fun _ => ih
    exact (Tape.tallies_releaseBlock ht).mono fun _ _ hout => ⟨hout.1, hout.2.1⟩

theorem readFirsts_length (index number : Nat) (b : Bench π τ) (site : Site) :
    ((readFirsts index number : BenchM π τ (List (Option τ))) b).Ensures site
      (fun out _ => ∀ pending, out.1 = .ok pending → pending.length = number)
      (fun _ _ => True) := by
  induction number generalizing index b site with
  | zero =>
    refine ensures_pure.mpr ?_
    rintro _ ⟨⟩
    rfl
  | succ number ih =>
    rw [readFirsts]
    simp only [Work.run_bind, ensures_bind]
    refine (ensures_trivial _ site).mono ?_ (fun _ _ h => h)
    rintro ⟨_ | x, b'⟩ site' -
    · exact ensures_pure.mpr (by rintro _ ⟨⟩)
    · simp only [ensures_bind]
      refine (ih (index + 1) b' site').mono ?_ (fun _ _ h => h)
      rintro ⟨_ | pending, b''⟩ site'' hlength
      · exact ensures_pure.mpr (by rintro _ ⟨⟩)
      · refine ensures_pure.mpr ?_
        rintro _ ⟨⟩
        rw [List.length_cons, hlength pending rfl]

/-- Work of the strategy that changes neither the bytes in use nor what it holds. -/
theorem pays_onStrategy {work : StrategyM π α}
    (hwork : ∀ p used, fits p → Tallies ref used (work p) fun out used' =>
      used' = used ∧ fits out.2) :
    Pays ref size count rest fits (onTarget (Target.onStrategy work) : BenchM π τ α) := by
  intro b hb
  unfold onTarget Target.onStrategy
  simp only [Work.run_bind, Work.run_get, Work.run_liftM, Work.run_modify, bind_assoc, pure_bind]
  refine (hwork b.strategy _ hb.strategy).bind ?_
  rintro ⟨_ | _, p⟩ _ ⟨rfl, hp⟩
  · exact Tallies.pure ⟨rfl, hb.inputs_size, hb.inputs, hb.output, hp⟩
  · exact Tallies.pure ⟨rfl, hb.inputs_size, hb.inputs, hb.output, hp⟩

variable [Strategy π τ] {sound : π → Prop} {heap : π → Nat} {overhead node nodes : Nat}

theorem pays_follow (hleases : Strategy.Leases τ ref sound heap overhead node)
    (hroom : rest + (count + 1) * ref.charged size ≤ ref.ledger.limit) (stats : Stats)
    (pending : List (Option τ)) (steps : Nat) :
    Pays ref size count rest (fun p => sound p ∧ heap p = nodes)
      (follow stats pending steps : BenchM π τ Stats) := by
  induction steps generalizing stats pending with
  | zero => exact fun _ _ => Tallies.run_liftM (Tallies.halt (by simp))
  | succ steps ih =>
    have hoperate (p : π) (used : Nat) (hp : sound p ∧ heap p = nodes) :
        Tallies ref used ((Strategy.operate pending (Taken.none pending.length) :
          StrategyM π (Step τ × Taken)) p) fun out used' =>
          used' = used ∧ sound out.2 ∧ heap out.2 = nodes :=
      (hleases.operate p _ _ used hp.1).mono fun _ _ hout =>
        ⟨hout.1, hout.2.1, hout.2.2.trans hp.2⟩
    refine (pays_onStrategy hoperate).bind ?_
    rintro ⟨step, taken⟩
    cases step with
    | done =>
      dsimp only
      split
      · exact (Pays.throw (α := Unit) _).bind fun _ => Pays.pure stats
      · exact Pays.pure stats
    | skip => exact (pays_advance hroom _ _).bind fun _ => ih _ _
    | emit x =>
      exact (pays_onOutput (fun _ h => Tape.pays_write x h) hroom).bind fun _ =>
        (pays_advance hroom _ _).bind fun _ => ih _ _

/-- A strategy that is prepared replaces the selection that it held before by one for the inputs. -/
theorem tallies_prepare (hleases : Strategy.Leases τ ref sound heap overhead node)
    {pending : List (Option τ)} (hb : b.Solvent ref size count sound) (hcount : 0 < count)
    (hlength : pending.length = count)
    (hroom : rest + ref.charged (node * count) + (count + 1) * ref.charged size ≤
      ref.ledger.limit) :
    Tallies ref (rest + heap b.strategy + b.held)
      ((onTarget (Target.onStrategy (Strategy.prepare pending)) : BenchM π τ Unit) b)
      fun out used => out.1 = .ok () ∧ used = rest + ref.charged (node * count) + out.2.held ∧
        out.2.Solvent ref size count fun p => sound p ∧ heap p = ref.charged (node * count) := by
  have hheld := hb.held_le
  have hpending : pending ≠ [] := List.length_pos_iff.mp (by omega)
  have hprepare := hleases.prepare b.strategy pending (rest + b.held) hb.strategy hpending
    (by rw [hlength]; omega)
  rw [hlength, show rest + b.held + heap b.strategy =
    rest + heap b.strategy + b.held by omega] at hprepare
  unfold onTarget Target.onStrategy
  simp only [Work.run_bind, Work.run_get, Work.run_liftM, Work.run_modify, bind_assoc, pure_bind]
  refine hprepare.bind ?_
  rintro ⟨_, p⟩ _ ⟨rfl, hsound, hheap, rfl⟩
  simp only at hsound hheap ⊢
  refine Tallies.pure ⟨rfl, ?_, hb.inputs_size, hb.inputs, hb.output, hsound, hheap⟩
  rw [hheap, held, held]
  simp only
  omega

/-- A pass replaces the selection that the strategy held before by one for the inputs. -/
theorem tallies_mergePass (hleases : Strategy.Leases τ ref sound heap overhead node)
    (hb : b.Solvent ref size count sound) (hcount : 0 < count)
    (hroom : rest + max (heap b.strategy) (ref.charged (node * count)) +
      (count + 1) * ref.charged size ≤ ref.ledger.limit) :
    Tallies ref (rest + heap b.strategy + b.held) ((mergePass : BenchM π τ Stats) b)
      fun out used => used = rest + heap out.2.strategy + out.2.held ∧
        out.2.Solvent ref size count sound ∧
        (heap out.2.strategy = heap b.strategy ∨
          heap out.2.strategy = ref.charged (node * count)) ∧
        ∀ stats, out.1 = .ok stats → heap out.2.strategy = ref.charged (node * count) := by
  have hbefore : rest + heap b.strategy + (count + 1) * ref.charged size ≤ ref.ledger.limit := by
    omega
  have hafter : rest + ref.charged (node * count) + (count + 1) * ref.charged size ≤
      ref.ledger.limit := by
    omega
  have harity : ¬count = 0 := by omega
  unfold mergePass
  simp only [Work.run_bind, Work.run_get, pure_bind, hb.inputs_size, if_neg harity]
  have hfirst : b.Solvent ref size count fun p => sound p ∧ heap p = heap b.strategy :=
    hb.mono fun hsound => ⟨hsound, rfl⟩
  refine ((pays_readFirsts hbefore 0 count b hfirst).and (readFirsts_length 0 count b)).bind ?_
  rintro ⟨e | pending, b₁⟩ _ ⟨⟨rfl, hb₁⟩, hlength⟩
  · obtain ⟨-, hheap⟩ := hb₁.strategy
    exact Tallies.pure ⟨by simp only [hheap], hb₁.mono And.left, .inl hheap, by rintro _ ⟨⟩⟩
  obtain ⟨-, hheap₁⟩ := hb₁.strategy
  simp only at hheap₁ ⊢
  rw [← hheap₁]
  have hfollow : Pays ref size count (rest + ref.charged (node * count))
      (fun p => sound p ∧ heap p = ref.charged (node * count)) (do
        let stats ← follow { passes := 1, runs := count } pending b.stepLimit
        releaseInputs (List.range count)
        onTarget (Target.onOutput Tape.flush)
        return stats : BenchM π τ Stats) :=
    (pays_follow hleases hafter _ pending _).bind fun stats =>
      (pays_releaseInputs hafter _).bind fun _ =>
        (pays_onOutput (fun _ _ => Tape.pays_flush) hafter).bind fun _ => Pays.pure stats
  refine (tallies_prepare hleases (hb₁.mono And.left) hcount (hlength pending rfl) hafter).bind ?_
  rintro ⟨_, b₂⟩ _ ⟨rfl, rfl, hb₂⟩
  have hdone := hfollow b₂ hb₂
  simp only [Work.run_bind] at hdone
  refine hdone.mono ?_
  rintro ⟨outcome, b₃⟩ _ ⟨rfl, hb₃⟩
  obtain ⟨-, hheap₃⟩ := hb₃.strategy
  simp only at hheap₃ ⊢
  exact ⟨by rw [hheap₃], hb₃.mono And.left, .inr hheap₃, fun _ _ => hheap₃⟩

end Bench

end BoundedMerge
