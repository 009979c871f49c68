import BoundedMerge.Proofs.Site.Settles
import BoundedMerge.Strategy.FirstPending
import BoundedMerge.Strategy.Interleave
import BoundedMerge.Strategy.Ordered

/-!
The memory of a strategy. A strategy holds the nodes of its selection, from the time it is prepared
until it is prepared again or closed, and one that has no selection holds nothing. A strategy is
accountable if whatever it is asked to do leaves the bytes in use for what it then holds.
-/

namespace BoundedMerge

open SiteM Holder

variable {α κ π τ : Type} {before : Nat}

namespace Selection

structure SameRoom (s s' : Selection κ) : Prop where
  capacity_eq : s'.capacity = s.capacity
  lease_eq : s'.lease = s.lease

theorem SameRoom.refl (s : Selection κ) : s.SameRoom s := ⟨rfl, rfl⟩

theorem SameRoom.trans {s s' s'' : Selection κ} (h : s.SameRoom s') (h' : s'.SameRoom s'') :
    s.SameRoom s'' :=
  ⟨h'.capacity_eq.trans h.capacity_eq, h'.lease_eq.trans h.lease_eq⟩

variable {cmp : κ → κ → Ordering} {nodeSize : Nat}

theorem settles_new (capacity nodeSize : Nat) :
    Settles 0 (new capacity nodeSize : SiteM (Selection κ))
      (fun s => s.capacity = capacity ∧ s.lease.bytes = nodeSize * capacity)
      fun _ => nodeSize * capacity := by
  unfold new
  refine (Settles.provide _).bind fun _ _ => (Settles.take _).bind fun lease hlease => ?_
  exact Settles.pure ⟨rfl, hlease⟩ rfl

theorem settles_insert (key : κ) (source : Nat) (s : Selection κ) :
    Settles before (s.insert cmp key source) s.SameRoom fun _ => before := by
  unfold insert
  refine (Settles.assert _ _).bind fun _ _ => ?_
  exact Settles.pure ⟨rfl, rfl⟩ rfl

theorem sameRoom_extract (s : Selection κ) : s.SameRoom (s.extract cmp).2 := by
  unfold extract
  split
  · exact ⟨rfl, rfl⟩
  · exact SameRoom.refl s

def space (nodeSize : Nat) (selection : Option (Selection κ)) : Nat :=
  (selection.map fun s => nodeSize * s.capacity).getD 0

def Covered (nodeSize : Nat) (selection : Option (Selection κ)) : Prop :=
  ∀ s ∈ selection, s.lease.bytes = nodeSize * s.capacity

theorem covered_none : Covered nodeSize (none : Option (Selection κ)) := by
  intro s hs
  contradiction

theorem covered_some {s : Selection κ} :
    Covered nodeSize (some s) ↔ s.lease.bytes = nodeSize * s.capacity := by
  constructor
  · exact fun h => h s rfl
  · intro h s' hs'
    obtain rfl := Option.some.inj hs'
    exact h

theorem Covered.sameRoom {s s' : Selection κ} (h : Covered nodeSize (some s))
    (hroom : s.SameRoom s') :
    Covered nodeSize (some s') ∧ space nodeSize (some s) = space nodeSize (some s') := by
  rw [covered_some] at h ⊢
  rw [hroom.lease_eq, hroom.capacity_eq]
  refine ⟨h, ?_⟩
  simp only [space, Option.map_some, Option.getD_some, hroom.capacity_eq]

/-- The lease of a new selection is for its nodes, also when some were entered. -/
theorem covered_new {capacity : Nat} {s s' : Selection κ}
    (hnew : s.capacity = capacity ∧ s.lease.bytes = nodeSize * capacity) (hroom : s.SameRoom s') :
    Covered nodeSize (some s') ∧ nodeSize * capacity = space nodeSize (some s') := by
  obtain ⟨rfl, hlease⟩ := hnew
  exact (covered_some.mpr hlease).sameRoom hroom

theorem Covered.settles_close {s : Selection κ} (h : Covered nodeSize (some s)) :
    Settles (space nodeSize (some s)) s.close (fun _ => True) fun _ => 0 := by
  have hbytes : space nodeSize (some s) = s.lease.bytes := (covered_some.mp h).symm
  rw [hbytes]
  exact Settles.release s.lease

end Selection

/-- Whatever the strategy does leaves the bytes in use for what it holds. -/
class Strategy.Accountable (π τ : Type) [Strategy π τ] [Holder π] : Prop where
  prepare (inputs : List (Option τ)) : Balances (Strategy.prepare inputs : StrategyM π Unit)
  operate (inputs : List (Option τ)) (taken : Taken) :
    Balances (Strategy.operate inputs taken : StrategyM π (Step τ × Taken))
  arrange (run : Array τ) : Balances (Strategy.arrange run : StrategyM π (Array τ))
  close (p : π) (hp : Paid p) : Settles (held p) (Strategy.close τ p) (fun _ => True) fun _ => 0
  returns_close (p : π) : Returns (Strategy.close τ p)

theorem Strategy.settles_take (taken : Taken) (index : Nat) :
    Settles before (take taken index) (fun _ => True) fun _ => before :=
  (Settles.demand _).mono fun _ _ => ⟨trivial, rfl⟩

theorem Strategy.settles_takeAll (taken : Taken) (count : Nat) :
    Settles before (takeAll taken count) (fun _ => True) fun _ => before := by
  unfold takeAll
  induction List.range count generalizing taken with
  | nil => exact Settles.pure trivial rfl
  | cons index indices ih =>
    rw [List.foldlM_cons]
    exact (settles_take taken index).bind fun taken' _ => ih taken'

namespace Ordered

variable {cmp : τ → τ → Ordering}

theorem settles_enter (s : Selection τ) (source : Nat) (inputs : List (Option τ)) :
    Settles before (enter cmp s source inputs) s.SameRoom fun _ => before := by
  induction inputs generalizing s source with
  | nil => exact Settles.pure (Selection.SameRoom.refl s) rfl
  | cons x inputs ih =>
    cases x with
    | none => exact ih s (source + 1)
    | some x =>
      refine (Selection.settles_insert x source s).bind fun s' hs' => ?_
      exact (ih s' (source + 1)).mono fun s'' hs'' => ⟨hs'.trans hs'', rfl⟩

theorem settles_refill (lastTaken : Option Nat) (inputs : List (Option τ)) (s : Selection τ) :
    Settles before (refill cmp lastTaken inputs s) s.SameRoom fun _ => before := by
  unfold refill
  cases lastTaken with
  | none => exact Settles.pure (Selection.SameRoom.refl s) rfl
  | some source =>
    refine (Settles.demand _).bind fun x _ => ?_
    cases x with
    | none => exact Settles.pure (Selection.SameRoom.refl s) rfl
    | some x => exact Selection.settles_insert x source s

variable [FixedWidth τ]

instance : Holder (Ordered τ) where
  held p := Selection.space (nodeSize τ) p.selection
  Paid p := Selection.Covered (nodeSize τ) p.selection

theorem settles_discard {p : Ordered τ} (hp : Paid p) :
    Settles (held p) ((discard : StrategyM (Ordered τ) Unit) p)
      (fun out => out = (.ok (), { p with selection := none })) fun _ => 0 := by
  unfold discard
  simp only [Work.run_bind, Work.run_get, Work.run_modify, pure_bind]
  simp only [held, Paid] at hp ⊢
  cases hselection : p.selection with
  | none => exact Settles.pure rfl rfl
  | some s =>
    rw [hselection] at hp
    simp only [Work.run_liftM]
    exact hp.settles_close.bind fun _ _ => Settles.pure rfl rfl

theorem balances_prepare (inputs : List (Option τ)) :
    Balances (prepare inputs : StrategyM (Ordered τ) Unit) := by
  unfold prepare
  refine Balances.guarded (Balances.of_settles ?_)
  intro p hp
  simp only [Work.run_bind, Work.run_get, Work.run_liftM, Work.run_modify, bind_assoc, pure_bind]
  refine (settles_discard hp).bind fun out hout => ?_
  subst hout
  simp only
  refine (Selection.settles_new _ _).bind fun s hs => ?_
  refine (settles_enter s 0 inputs).bind fun s' hs' => ?_
  obtain ⟨hcovered, hspace⟩ := Selection.covered_new hs hs'
  exact Settles.pure hcovered hspace

theorem balances_operate (inputs : List (Option τ)) (taken : Taken) :
    Balances (operate inputs taken : StrategyM (Ordered τ) (Step τ × Taken)) := by
  apply Balances.of_settles
  intro p hp
  unfold operate
  simp only [Work.run_bind, Work.run_get, pure_bind]
  simp only [held, Paid] at hp ⊢
  cases hselection : p.selection with
  | none => exact Settles.pure (hselection ▸ hp) (by rw [hselection])
  | some s =>
    rw [hselection] at hp
    simp only [Work.run_bind, Work.run_liftM, bind_assoc, pure_bind]
    refine (settles_refill _ _ s).bind fun s' hs' => ?_
    have hextract : s'.SameRoom (s'.extract p.cmp).2 := s'.sameRoom_extract
    obtain ⟨hcovered, hspace⟩ := hp.sameRoom (hs'.trans hextract)
    cases hnode : s'.extract p.cmp with
    | mk node s'' =>
      rw [hnode] at hcovered hspace
      cases node with
      | none =>
        simp only [Work.run_bind, Work.run_set, Work.run_liftM, bind_assoc, pure_bind]
        refine (Settles.assert _ _).bind fun _ _ => ?_
        exact Settles.pure hcovered hspace
      | some node =>
        simp only [Work.run_bind, Work.run_set, Work.run_liftM, bind_assoc, pure_bind]
        refine (Strategy.settles_take _ _).bind fun _ _ => ?_
        exact Settles.pure hcovered hspace

theorem balances_arrange (run : Array τ) :
    Balances (arrange run : StrategyM (Ordered τ) (Array τ)) := by
  apply Balances.of_settles
  intro p hp
  unfold arrange
  simp only [Work.run_bind, Work.run_get, Work.run_set, Work.run_liftM, pure_bind]
  refine (Settles.demand _).bind fun _ _ => ?_
  exact Settles.pure hp rfl

instance : Strategy.Accountable (Ordered τ) τ where
  prepare := balances_prepare
  operate := balances_operate
  arrange := balances_arrange
  close p hp := by
    simp only [held, Paid, Strategy.close] at hp ⊢
    cases hselection : p.selection with
    | none => exact Settles.pure trivial rfl
    | some s =>
      rw [hselection] at hp
      exact hp.settles_close
  returns_close p := by
    simp only [Strategy.close]
    cases p.selection with
    | none => exact Returns.pure _
    | some s => exact Returns.release s.lease

end Ordered

namespace Interleave

variable {γ : Type}

instance : Holder (Interleave γ) where
  held p := Selection.space nodeSize p.selection
  Paid p := Selection.Covered nodeSize p.selection

variable [WordSource γ]

theorem settles_enter (s : Selection UInt32) (input : Nat) (source : γ) :
    Settles before (enter s input source) (fun out => s.SameRoom out.1) fun _ => before := by
  unfold enter
  cases WordSource.next source with
  | mk word source' =>
    exact (Selection.settles_insert word input s).bind fun s' hs' => Settles.pure hs' rfl

theorem settles_enterAll (s : Selection UInt32) (source : γ) (input : Nat)
    (inputs : List (Option τ)) :
    Settles before (enterAll s source input inputs) (fun out => s.SameRoom out.1)
      fun _ => before := by
  induction inputs generalizing input with
  | nil => exact Settles.pure (Selection.SameRoom.refl s) rfl
  | cons x inputs ih =>
    refine (ih (input + 1)).bind fun out hout => ?_
    obtain ⟨s', source'⟩ := out
    simp only at hout ⊢
    split
    · exact (settles_enter s' input source').mono fun out hout' => ⟨hout.trans hout', rfl⟩
    · exact Settles.pure hout rfl

omit [WordSource γ] in
theorem settles_recount (p : Interleave γ) (inputs : List (Option τ)) :
    Settles before (recount p inputs) (fun _ => True) fun _ => before := by
  unfold recount
  cases p.lastTaken with
  | none => exact Settles.pure trivial rfl
  | some input =>
    refine (Settles.demand _).bind fun x _ => ?_
    split
    · exact Settles.pure trivial rfl
    · exact Settles.pure trivial rfl

omit [WordSource γ] in
theorem settles_discard {p : Interleave γ} (hp : Paid p) :
    Settles (held p) ((discard : StrategyM (Interleave γ) Unit) p)
      (fun out => out = (.ok (), { p with selection := none })) fun _ => 0 := by
  unfold discard
  simp only [Work.run_bind, Work.run_get, Work.run_modify, pure_bind]
  simp only [held, Paid] at hp ⊢
  cases hselection : p.selection with
  | none => exact Settles.pure rfl rfl
  | some s =>
    rw [hselection] at hp
    simp only [Work.run_liftM]
    exact hp.settles_close.bind fun _ _ => Settles.pure rfl rfl

theorem balances_prepare (inputs : List (Option τ)) :
    Balances (prepare inputs : StrategyM (Interleave γ) Unit) := by
  unfold prepare
  refine Balances.guarded (Balances.of_settles ?_)
  intro p hp
  have hcounted : Paid { p with arity := inputs.length } := hp
  simp only [Work.run_bind, Work.run_get, Work.run_liftM, Work.run_modify, bind_assoc, pure_bind]
  refine Settles.bind (settles_discard hcounted) fun out hout => ?_
  subst hout
  simp only
  refine (Selection.settles_new _ _).bind fun s hs => ?_
  refine (settles_enterAll s p.source 0 inputs).bind fun out hout => ?_
  obtain ⟨hcovered, hspace⟩ := Selection.covered_new hs hout
  exact Settles.pure hcovered hspace

theorem balances_operate (inputs : List (Option τ)) (taken : Taken) :
    Balances (operate inputs taken : StrategyM (Interleave γ) (Step τ × Taken)) := by
  apply Balances.of_settles
  intro p hp
  unfold operate
  simp only [Work.run_bind, Work.run_get, Work.run_liftM, bind_assoc, pure_bind]
  refine (Settles.assert _ _).bind fun _ _ => ?_
  simp only [held, Paid] at hp ⊢
  cases hselection : p.selection with
  | none => exact Settles.pure (hselection ▸ hp) (by rw [hselection])
  | some s =>
    rw [hselection] at hp
    simp only [Work.run_bind, Work.run_liftM, bind_assoc, pure_bind]
    refine (settles_recount p inputs).bind fun seen _ => ?_
    have hextract : s.SameRoom (s.extract compare).2 := s.sameRoom_extract
    obtain ⟨hcovered, hspace⟩ := hp.sameRoom hextract
    cases hnode : s.extract compare with
    | mk node s' =>
      rw [hnode] at hcovered hspace
      cases node with
      | none =>
        simp only [Work.run_bind, Work.run_set, Work.run_liftM, bind_assoc, pure_bind]
        refine (Settles.assert _ _).bind fun _ _ => (Settles.assert _ _).bind fun _ _ => ?_
        exact Settles.pure hcovered hspace
      | some node =>
        simp only [Work.run_bind, Work.run_liftM, bind_assoc, pure_bind]
        refine (Settles.demand _).bind fun x _ => ?_
        cases x with
        | none => exact Settles.pure hcovered hspace
        | some x =>
          simp only [Work.run_bind, Work.run_set, Work.run_liftM, bind_assoc, pure_bind]
          refine (settles_enter s' node.source p.source).bind fun out hout => ?_
          obtain ⟨hcovered', hspace'⟩ := hcovered.sameRoom hout
          refine (Strategy.settles_take _ _).bind fun _ _ => ?_
          exact Settles.pure hcovered' (hspace.trans hspace')

theorem balances_arrange (run : Array τ) :
    Balances (arrange run : StrategyM (Interleave γ) (Array τ)) := by
  apply Balances.of_settles
  intro p hp
  unfold arrange
  simp only [Work.run_bind, Work.run_get, pure_bind]
  cases Draw.shuffle run p.source with
  | none =>
    simp only [Work.run_liftM]
    exact Settles.halt_bind _
  | some drawn => exact Settles.pure hp rfl

instance : Strategy.Accountable (Interleave γ) τ where
  prepare := balances_prepare
  operate := balances_operate
  arrange := balances_arrange
  close p hp := by
    simp only [held, Paid, Strategy.close] at hp ⊢
    cases hselection : p.selection with
    | none => exact Settles.pure trivial rfl
    | some s =>
      rw [hselection] at hp
      exact hp.settles_close
  returns_close p := by
    simp only [Strategy.close]
    cases p.selection with
    | none => exact Returns.pure _
    | some s => exact Returns.release s.lease

end Interleave

namespace FirstPending

instance : Holder (FirstPending τ) where
  held _ := 0
  Paid _ := True

theorem balances_operate (inputs : List (Option τ)) (taken : Taken) :
    Balances (operate inputs taken : StrategyM (FirstPending τ) (Step τ × Taken)) := by
  apply Balances.of_settles
  intro p _
  unfold operate
  simp only [Work.run_bind, Work.run_get, pure_bind]
  split
  · exact Settles.pure trivial rfl
  · cases find? 0 inputs with
    | none => exact Settles.pure trivial rfl
    | some found =>
      simp only [Work.run_bind, Work.run_set, pure_bind]
      cases p.mode with
      | concat =>
        simp only [Work.run_bind, Work.run_liftM, bind_assoc, pure_bind]
        exact (Strategy.settles_take _ _).bind fun _ _ => Settles.pure trivial rfl
      | lockstep =>
        simp only [Work.run_bind, Work.run_liftM, bind_assoc, pure_bind]
        exact (Strategy.settles_takeAll _ _).bind fun _ _ => Settles.pure trivial rfl
      | skipOdd =>
        simp only [Work.run_bind, Work.run_liftM, bind_assoc, pure_bind]
        exact (Strategy.settles_take _ _).bind fun _ _ => Settles.pure trivial rfl

instance : Strategy.Accountable (FirstPending τ) τ where
  prepare _ := Balances.modify fun _ hp => ⟨hp, rfl⟩
  operate := balances_operate
  arrange _ := Balances.throw _
  close _ _ := Settles.pure trivial rfl
  returns_close _ := Returns.pure _

end FirstPending

end BoundedMerge
