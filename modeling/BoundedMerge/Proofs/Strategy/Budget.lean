import BoundedMerge.Proofs.Selection.Contents
import BoundedMerge.Proofs.Site.Tallies
import BoundedMerge.Strategy.Interleave
import BoundedMerge.Strategy.Ordered

/-!
What a strategy pays for. It holds the nodes of one selection, for the inputs of the merge that it
was prepared for last. To prepare it for another merge gives the old selection back before the new
one is charged, and no step changes what is held.
-/

namespace BoundedMerge

open SiteM

variable {π τ κ : Type} {ref : Site}

def Selection.held (selection : Option (Selection κ)) : Nat :=
  (selection.map (·.lease.bytes)).getD 0

def Selection.Sound (ref : Site) (selection : Option (Selection κ)) : Prop :=
  ∀ s ∈ selection, s.lease.Backed ref

/-- What the strategy holds is `heap`, as long as it is `sound`: a node of `node` bytes for each
input that it was prepared for. Besides it needs `overhead` bytes. -/
structure Strategy.Leases (τ : Type) [Strategy π τ] (ref : Site) (sound : π → Prop)
    (heap : π → Nat) (overhead node : Nat) : Prop where
  overhead_eq (p : π) : sound p → Strategy.overhead τ p = overhead
  perInput_eq (p : π) : sound p → Strategy.perInput τ p = node
  prepare (p : π) (inputs : List (Option τ)) (rest : Nat) : sound p → inputs ≠ [] →
    rest + ref.charged (node * inputs.length) ≤ ref.ledger.limit →
    Tallies ref (rest + heap p) ((Strategy.prepare inputs : StrategyM π Unit) p) fun out used =>
      out.1 = .ok () ∧ sound out.2 ∧ heap out.2 = ref.charged (node * inputs.length) ∧
        used = rest + heap out.2
  operate (p : π) (inputs : List (Option τ)) (taken : Taken) (used : Nat) : sound p →
    Tallies ref used ((Strategy.operate inputs taken : StrategyM π (Step τ × Taken)) p)
      fun out used' => used' = used ∧ sound out.2 ∧ heap out.2 = heap p
  arrange (p : π) (run : Array τ) (used : Nat) : sound p →
    Tallies ref used ((Strategy.arrange run : StrategyM π (Array τ)) p)
      fun out used' => used' = used ∧ sound out.2 ∧ heap out.2 = heap p
  close (p : π) (rest : Nat) : sound p →
    Tallies ref (rest + heap p) (Strategy.close τ p) fun _ used => used = rest

namespace Selection

variable {cmp : κ → κ → Ordering} {s : Selection κ} {used rest : Nat}

theorem tallies_new (capacity node : Nat)
    (h : used + ref.charged (node * capacity) ≤ ref.ledger.limit) :
    Tallies ref used (new capacity node : SiteM (Selection κ)) fun s used' =>
      s.lease.Backed ref ∧ s.lease.bytes = ref.charged (node * capacity) ∧
        used' = used + s.lease.bytes := by
  unfold new
  refine (Tallies.provide _).bind ?_
  rintro _ _ rfl
  refine (Tallies.take _ h).bind ?_
  rintro lease _ ⟨hlease, rfl⟩
  exact Tallies.pure ⟨fun hignore => by rw [hlease, Site.charged, if_pos hignore], hlease, rfl⟩

theorem tallies_insert (key : κ) (source : Nat) :
    Tallies ref used (s.insert cmp key source) fun s' used' =>
      used' = used ∧ s'.lease = s.lease := by
  unfold insert
  refine (Tallies.assert _ _).bind ?_
  rintro _ _ rfl
  exact Tallies.pure ⟨rfl, rfl⟩

theorem extract_lease : (s.extract cmp).2.lease = s.lease := by
  unfold extract
  split <;> rfl

theorem Sound.close (h : Sound ref (some s)) :
    Tallies ref (rest + held (some s)) s.close fun _ used => used = rest := by
  refine (Tallies.release s.lease (h s rfl) (Nat.le_add_left _ _)).mono fun _ used hused => ?_
  have hheld : held (some s) = s.lease.bytes := rfl
  omega

theorem Sound.of_lease {s' : Selection κ} (h : Sound ref (some s)) (hlease : s'.lease = s.lease) :
    Sound ref (some s') ∧ held (some s') = held (some s) := by
  refine ⟨?_, ?_⟩
  · rintro _ ⟨⟩
    rw [hlease]
    exact h s rfl
  · simp only [held, Option.map_some, Option.getD_some, hlease]

end Selection

theorem Strategy.tallies_take {used : Nat} (taken : Taken) (index : Nat) :
    Tallies ref used (take taken index) fun _ used' => used' = used :=
  (Tallies.demand _).mono fun _ _ h => h.2

namespace Ordered

variable {used rest : Nat} {p : Ordered τ}

theorem tallies_enter (s : Selection τ) (source : Nat) (inputs : List (Option τ)) :
    Tallies ref used (enter p.cmp s source inputs) fun s' used' =>
      used' = used ∧ s'.lease = s.lease := by
  induction inputs generalizing s source with
  | nil => exact Tallies.pure ⟨rfl, rfl⟩
  | cons x inputs ih =>
    cases x with
    | none => exact ih s (source + 1)
    | some x =>
      rw [enter]
      refine (Selection.tallies_insert x source).bind ?_
      rintro s' _ ⟨rfl, hlease⟩
      refine (ih s' (source + 1)).mono ?_
      rintro s'' _ ⟨rfl, hlease'⟩
      exact ⟨rfl, hlease'.trans hlease⟩

theorem tallies_refill (s : Selection τ) (inputs : List (Option τ)) :
    Tallies ref used (refill p.cmp p.lastTaken inputs s) fun s' used' =>
      used' = used ∧ s'.lease = s.lease := by
  unfold refill
  cases p.lastTaken with
  | none => exact Tallies.pure ⟨rfl, rfl⟩
  | some source =>
    refine (Tallies.demand _).bind ?_
    rintro x _ ⟨-, rfl⟩
    cases x with
    | none => exact Tallies.pure ⟨rfl, rfl⟩
    | some x => exact Selection.tallies_insert x source

theorem tallies_discard (h : Selection.Sound ref p.selection) :
    Tallies ref (rest + Selection.held p.selection) ((discard : StrategyM (Ordered τ) Unit) p)
      fun out used => used = rest ∧ out = (.ok (), { p with selection := none }) := by
  unfold discard
  simp only [Work.run_bind, Work.run_get, Work.run_modify, pure_bind]
  cases hselection : p.selection with
  | none => exact Tallies.pure ⟨rfl, rfl⟩
  | some s =>
    rw [hselection] at h
    exact Tallies.run_liftM (h.close.mono fun _ _ hused => ⟨hused, rfl⟩)

theorem tallies_operate (inputs : List (Option τ)) (taken : Taken)
    (h : Selection.Sound ref p.selection) :
    Tallies ref used ((operate inputs taken : StrategyM (Ordered τ) (Step τ × Taken)) p)
      fun out used' => used' = used ∧ out.2.handleSize = p.handleSize ∧
        Selection.Sound ref out.2.selection ∧
        Selection.held out.2.selection = Selection.held p.selection := by
  unfold operate
  simp only [Work.run_bind, Work.run_get, pure_bind]
  cases hselection : p.selection with
  | none => exact Tallies.pure ⟨rfl, rfl, hselection ▸ h, by rw [hselection]⟩
  | some s =>
    rw [hselection] at h
    simp only [Work.run_bind, Work.run_liftM, bind_assoc, pure_bind]
    refine (tallies_refill s inputs).bind ?_
    rintro s' _ ⟨rfl, hlease⟩
    have hextract : (s'.extract p.cmp).2.lease = s'.lease := Selection.extract_lease
    obtain ⟨hsound, hheld⟩ := h.of_lease (hextract.trans hlease)
    rcases hnode : s'.extract p.cmp with ⟨_ | node, s''⟩
    · rw [hnode] at hsound hheld
      simp only [Work.run_bind, Work.run_set, Work.run_liftM, bind_assoc, pure_bind]
      refine (Tallies.assert _ _).bind ?_
      rintro _ _ rfl
      exact Tallies.pure ⟨rfl, rfl, hsound, hheld⟩
    · rw [hnode] at hsound hheld
      simp only [Work.run_bind, Work.run_set, Work.run_liftM, bind_assoc, pure_bind]
      refine (Strategy.tallies_take _ _).bind ?_
      rintro _ _ rfl
      exact Tallies.pure ⟨rfl, rfl, hsound, hheld⟩

variable [FixedWidth τ]

/-- The old selection is given back before the new one is charged. -/
theorem tallies_prepare {inputs : List (Option τ)} (hinputs : inputs ≠ [])
    (h : Selection.Sound ref p.selection)
    (hroom : rest + ref.charged (nodeSize τ * inputs.length) ≤ ref.ledger.limit) :
    Tallies ref (rest + Selection.held p.selection)
      ((prepare inputs : StrategyM (Ordered τ) Unit) p) fun out used =>
        out.1 = .ok () ∧ out.2.handleSize = p.handleSize ∧ Selection.Sound ref out.2.selection ∧
          Selection.held out.2.selection = ref.charged (nodeSize τ * inputs.length) ∧
          used = rest + Selection.held out.2.selection := by
  unfold prepare
  rw [if_neg (show ¬inputs.isEmpty = true by simpa using hinputs)]
  refine Tallies.run_bind (tallies_discard h) ?_ (by rintro e p' _ ⟨-, ⟨⟩⟩)
  rintro _ _ _ ⟨rfl, ⟨⟩⟩
  simp only [Work.run_bind, Work.run_get, Work.run_liftM, Work.run_modify, bind_assoc, pure_bind]
  refine (Selection.tallies_new _ _ hroom).bind ?_
  rintro s _ ⟨hbacked, hbytes, rfl⟩
  refine (tallies_enter (p := p) s 0 inputs).bind ?_
  rintro s' _ ⟨rfl, hlease⟩
  have hnew : Selection.Sound ref (some s) := by rintro _ ⟨⟩; exact hbacked
  obtain ⟨hsound, hheld⟩ := hnew.of_lease hlease
  refine Tallies.pure ⟨rfl, rfl, hsound, hheld.trans hbytes, ?_⟩
  rw [hheld]
  rfl

/-- The selection of the strategy is the one thing that it holds. -/
theorem leases (ref : Site) (overhead : Nat) :
    Strategy.Leases τ ref
      (fun p : Ordered τ => p.handleSize = overhead ∧ Selection.Sound ref p.selection)
      (fun p => Selection.held p.selection) overhead (nodeSize τ) where
  overhead_eq _ h := h.1
  perInput_eq _ _ := rfl
  prepare := by
    rintro p inputs rest ⟨hhandle, hsound⟩ hinputs hroom
    refine (tallies_prepare hinputs hsound hroom).mono ?_
    rintro out used ⟨hok, hsame, hsound', hheld, hused⟩
    exact ⟨hok, ⟨hsame.trans hhandle, hsound'⟩, hheld, hused⟩
  operate := by
    rintro p inputs taken used ⟨hhandle, hsound⟩
    refine (tallies_operate inputs taken hsound).mono ?_
    rintro out used' ⟨hused, hsame, hsound', hheld⟩
    exact ⟨hused, ⟨hsame.trans hhandle, hsound'⟩, hheld⟩
  arrange := by
    rintro p run used ⟨hhandle, hsound⟩
    change Tallies ref _ ((arrange run : StrategyM (Ordered τ) (Array τ)) p) _
    unfold arrange
    simp only [Work.run_bind, Work.run_get, Work.run_set, pure_bind]
    refine Tallies.run_liftM ((Tallies.demand _).mono ?_)
    rintro _ _ ⟨-, rfl⟩
    exact ⟨rfl, ⟨hhandle, hsound⟩, rfl⟩
  close := by
    rintro ⟨cmp, handleSize, pivots, sorts, _ | s, lastTaken⟩ rest ⟨-, hsound⟩
    · exact Tallies.pure (Nat.add_zero rest)
    · exact Selection.Sound.close hsound

end Ordered

namespace Interleave

variable {γ : Type} [WordSource γ] {used rest : Nat}

theorem tallies_enter (s : Selection UInt32) (input : Nat) (source : γ) :
    Tallies ref used (enter s input source) fun out used' =>
      used' = used ∧ out.1.lease = s.lease := by
  rcases hnext : WordSource.next source with ⟨word, source'⟩
  simp only [enter, hnext]
  refine (Selection.tallies_insert word input).bind ?_
  rintro s' _ ⟨rfl, hlease⟩
  exact Tallies.pure ⟨rfl, hlease⟩

theorem tallies_enterAll (s : Selection UInt32) (source : γ) (input : Nat)
    (inputs : List (Option τ)) :
    Tallies ref used (enterAll s source input inputs) fun out used' =>
      used' = used ∧ out.1.lease = s.lease := by
  induction inputs generalizing input with
  | nil => exact Tallies.pure ⟨rfl, rfl⟩
  | cons x inputs ih =>
    rw [enterAll]
    refine (ih (input + 1)).bind ?_
    rintro ⟨s', source'⟩ _ ⟨rfl, hlease⟩
    simp only at hlease ⊢
    split
    · refine (tallies_enter s' input source').mono ?_
      rintro out _ ⟨rfl, hlease'⟩
      exact ⟨rfl, hlease'.trans hlease⟩
    · exact Tallies.pure ⟨rfl, hlease⟩

omit [WordSource γ] in
theorem tallies_recount (p : Interleave γ) (inputs : List (Option τ)) :
    Tallies ref used (recount p inputs) fun _ used' => used' = used := by
  unfold recount
  cases p.lastTaken with
  | none => exact Tallies.pure rfl
  | some input =>
    refine (Tallies.demand _).bind ?_
    rintro x _ ⟨-, rfl⟩
    split
    · exact Tallies.pure rfl
    · exact Tallies.pure rfl

omit [WordSource γ] in
theorem tallies_discard {p : Interleave γ} (h : Selection.Sound ref p.selection) :
    Tallies ref (rest + Selection.held p.selection) ((discard : StrategyM (Interleave γ) Unit) p)
      fun out used => used = rest ∧ out = (.ok (), { p with selection := none }) := by
  unfold discard
  simp only [Work.run_bind, Work.run_get, Work.run_modify, pure_bind]
  cases hselection : p.selection with
  | none => exact Tallies.pure ⟨rfl, rfl⟩
  | some s =>
    rw [hselection] at h
    exact Tallies.run_liftM (h.close.mono fun _ _ hused => ⟨hused, rfl⟩)

/-- The old selection is given back before the new one is charged. -/
theorem tallies_prepare {p : Interleave γ} {inputs : List (Option τ)} (hinputs : inputs ≠ [])
    (h : Selection.Sound ref p.selection)
    (hroom : rest + ref.charged (nodeSize * inputs.length) ≤ ref.ledger.limit) :
    Tallies ref (rest + Selection.held p.selection)
      ((prepare inputs : StrategyM (Interleave γ) Unit) p) fun out used =>
        out.1 = .ok () ∧ Selection.Sound ref out.2.selection ∧
          Selection.held out.2.selection = ref.charged (nodeSize * inputs.length) ∧
          used = rest + Selection.held out.2.selection := by
  unfold prepare
  rw [if_neg (show ¬inputs.isEmpty = true by simpa using hinputs)]
  refine Tallies.run_bind (P := fun out used => used = rest + Selection.held p.selection ∧
    out = (.ok ⟨⟩, { p with arity := inputs.length })) (Tallies.pure ⟨rfl, rfl⟩) ?_
    (by rintro e p' _ ⟨-, ⟨⟩⟩)
  rintro _ _ _ ⟨rfl, ⟨⟩⟩
  refine Tallies.run_bind (tallies_discard (p := { p with arity := inputs.length }) h) ?_
    (by rintro e p' _ ⟨-, ⟨⟩⟩)
  rintro _ _ _ ⟨rfl, ⟨⟩⟩
  simp only [Work.run_bind, Work.run_get, Work.run_liftM, Work.run_modify, bind_assoc, pure_bind]
  refine (Selection.tallies_new _ _ hroom).bind ?_
  rintro s _ ⟨hbacked, hbytes, rfl⟩
  refine (tallies_enterAll s p.source 0 inputs).bind ?_
  rintro ⟨s', source'⟩ _ ⟨rfl, hlease⟩
  have hnew : Selection.Sound ref (some s) := by rintro _ ⟨⟩; exact hbacked
  obtain ⟨hsound, hheld⟩ := hnew.of_lease hlease
  refine Tallies.pure ⟨rfl, hsound, hheld.trans hbytes, ?_⟩
  simp only [hheld]
  rfl

theorem tallies_operate {p : Interleave γ} (inputs : List (Option τ)) (taken : Taken)
    (h : Selection.Sound ref p.selection) :
    Tallies ref used ((operate inputs taken : StrategyM (Interleave γ) (Step τ × Taken)) p)
      fun out used' => used' = used ∧ Selection.Sound ref out.2.selection ∧
        Selection.held out.2.selection = Selection.held p.selection := by
  unfold operate
  simp only [Work.run_bind, Work.run_get, Work.run_liftM, bind_assoc, pure_bind]
  refine (Tallies.assert _ _).bind ?_
  rintro _ _ rfl
  cases hselection : p.selection with
  | none => exact Tallies.pure ⟨rfl, hselection ▸ h, by rw [hselection]⟩
  | some s =>
    rw [hselection] at h
    simp only [Work.run_bind, Work.run_liftM, bind_assoc, pure_bind]
    refine (tallies_recount p inputs).bind ?_
    rintro seen _ rfl
    have hextract : (s.extract compare).2.lease = s.lease := Selection.extract_lease
    obtain ⟨hsound, hheld⟩ := h.of_lease hextract
    rcases hnode : s.extract compare with ⟨_ | node, s'⟩
    · rw [hnode] at hsound hheld
      simp only [Work.run_bind, Work.run_set, Work.run_liftM, bind_assoc, pure_bind]
      refine (Tallies.assert _ _).bind ?_
      rintro _ _ rfl
      refine (Tallies.assert _ _).bind ?_
      rintro _ _ rfl
      exact Tallies.pure ⟨rfl, hsound, hheld⟩
    · rw [hnode] at hsound hheld
      simp only [Work.run_bind, Work.run_liftM, bind_assoc, pure_bind]
      refine (Tallies.demand _).bind ?_
      rintro x _ ⟨-, rfl⟩
      cases x with
      | none => exact Tallies.pure ⟨rfl, hsound, hheld⟩
      | some x =>
        -- The input is entered again with a new draw; the lease stays as it is.
        simp only [Work.run_bind, Work.run_set, Work.run_liftM, bind_assoc, pure_bind]
        refine (tallies_enter s' node.source p.source).bind ?_
        rintro ⟨s'', source'⟩ _ ⟨rfl, hlease⟩
        obtain ⟨hsound', hheld'⟩ := hsound.of_lease hlease
        refine (Strategy.tallies_take _ _).bind ?_
        rintro _ _ rfl
        exact Tallies.pure ⟨rfl, hsound', hheld'.trans hheld⟩

/-- The selection of the strategy is the one thing that it holds. -/
theorem leases (ref : Site) :
    Strategy.Leases τ ref (fun p : Interleave γ => Selection.Sound ref p.selection)
      (fun p => Selection.held p.selection) handleSize nodeSize where
  overhead_eq _ _ := rfl
  perInput_eq _ _ := rfl
  prepare _ _ _ hsound hinputs hroom := tallies_prepare hinputs hsound hroom
  operate _ inputs taken _ hsound := tallies_operate inputs taken hsound
  arrange := by
    rintro p run used hsound
    change Tallies ref _ ((arrange run : StrategyM (Interleave γ) (Array τ)) p) _
    unfold arrange
    simp only [Work.run_bind, Work.run_get, pure_bind]
    cases Draw.shuffle run p.source with
    | none => exact Tallies.run_liftM (Tallies.halt (by simp))
    | some drawn => exact Tallies.pure ⟨rfl, hsound, rfl⟩
  close := by
    rintro ⟨source, _ | s, arity, lastTaken, seen, emitted⟩ rest hsound
    · exact Tallies.pure (Nat.add_zero rest)
    · exact Selection.Sound.close hsound

end Interleave

end BoundedMerge
