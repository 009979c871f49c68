import BoundedMerge.Proofs.Site.Reports
import BoundedMerge.Proofs.Strategy.Interleave
import BoundedMerge.Proofs.Strategy.Ordered

/-!
Strategies that get on. In every step a diligent strategy emits a pending record and takes its
input, but for a number of idle steps that is bounded by the number of inputs, and it is done
only where nothing is pending. Both ways to merge are diligent at any site, whatever the comparison
is and whatever words are drawn.
-/

namespace BoundedMerge

open Work

variable {π τ : Type} {stall : Prop}

/-- A step while `pending` is pending and `idle` idle steps may be left, with a state for which
`Ready` holds again. -/
inductive Strategy.Advances (Ready : Nat → π → List (Option τ) → Prop) (idle : Nat)
    (pending : List (Option τ)) : Step τ × Taken → π → Prop
  | done {taken : Taken} {p : π} (h : ∀ x ∈ pending, x = none) :
      Advances Ready idle pending (.done, taken) p
  | skip {taken : Taken} {p : π} {fewer : Nat} (hfewer : fewer < idle) (htaken : taken.indices = [])
      (h : Ready fewer p pending) : Advances Ready idle pending (.skip, taken) p
  | emit {taken : Taken} {p : π} {i : Nat} {x : τ} (hx : pending[i]? = some (some x))
      (htaken : taken.indices = [i]) (h : ∀ y, Ready idle p (pending.set i y)) :
      Advances Ready idle pending (.emit x, taken) p

/-- Once it is prepared the strategy is ready, and every step leaves it so. -/
structure Strategy.Diligent [Strategy π τ] (stall : Prop)
    (Ready : Nat → π → List (Option τ) → Prop) : Prop where
  prepare : ∀ (p : π) (pending : List (Option τ)),
    Quiet stall (Strategy.prepare pending : StrategyM π Unit) p fun _ p' =>
      ∃ idle ≤ pending.length, Ready idle p' pending
  operate : ∀ (idle : Nat) (p : π) (pending : List (Option τ)), Ready idle p pending →
    Quiet stall (Strategy.operate pending (Taken.none pending.length) :
      StrategyM π (Step τ × Taken)) p fun out p' => Strategy.Advances Ready idle pending out p'
  stepLimit_eq : ∀ (p : π) (records : List Nat),
    Strategy.stepLimit τ p records = records.foldr (· + ·) 0 + records.length + 1

namespace Selection

variable {κ : Type}

theorem quiet_new (capacity nodeSize : Nat) :
    SiteM.Quiet stall (new capacity nodeSize : SiteM (Selection κ)) fun s =>
      ∃ lease, s = { capacity, lease } := by
  unfold new
  apply (SiteM.Quiet.provide _).bind
  intro _ _
  apply (SiteM.Quiet.take _).bind
  intro lease _
  exact SiteM.Quiet.pure ⟨lease, rfl⟩

end Selection

namespace Ordered

theorem quiet_discard (p : Ordered τ) :
    Quiet stall (discard : StrategyM (Ordered τ) Unit) p fun _ p' =>
      p' = { p with selection := none } := by
  unfold discard
  rw [Quiet.get, Quiet.modify]
  cases p.selection with
  | none => exact Quiet.pure rfl
  | some s => exact Quiet.lift_last (SiteM.Quiet.release s.lease) fun _ _ => rfl

variable [FixedWidth τ]

theorem quiet_prepare (p : Ordered τ) (inputs : List (Option τ)) :
    Quiet stall (prepare inputs : StrategyM (Ordered τ) Unit) p fun _ p' => p'.Ready inputs := by
  unfold prepare
  split
  · exact Quiet.throw_bind
  · apply (quiet_discard p).bind
    intro _ p' hdiscard
    subst hdiscard
    apply Quiet.lift (Selection.quiet_new _ _)
    intro s hs
    obtain ⟨lease, rfl⟩ := hs
    have hempty : Holds p.cmp { capacity := inputs.length, lease : Selection τ } []
        inputs.length :=
      ⟨Nat.le_refl _, List.Perm.refl _, fun _ i _ a b ha => by simp at ha⟩
    obtain ⟨s, henter, hs⟩ := hempty.enter inputs 0 (by simp)
    rw [List.append_nil] at hs
    rw [Quiet.get]
    apply Quiet.lift (P := fun s' => s' = s)
    · rw [henter]
      exact SiteM.Quiet.pure rfl
    · intro entered hentered
      subst hentered
      exact Quiet.modify_last ⟨⟨_, rfl, hs⟩, fun i hi => by simp at hi⟩

/-- No step is idle. -/
theorem diligent (stall : Prop) :
    Strategy.Diligent stall fun (_ : Nat) (p : Ordered τ) (inputs : List (Option τ)) =>
      p.Ready inputs := by
  constructor
  · intro p pending
    apply (quiet_prepare p pending).mono
    intro _ p' hready
    exact ⟨0, Nat.zero_le _, hready⟩
  · intro idle p pending hready
    change Quiet stall (Ordered.operate pending (Taken.none pending.length)) p _
    unfold Quiet
    rcases hready.operate with ⟨hnone, p', hdone, -⟩ | ⟨x, i, p', hx, hemit, -, hready', -⟩
    · rw [hdone]
      apply SiteM.Quiet.pure
      intro out hout
      cases hout
      have hall := (Selection.entries_eq_nil 0 pending).mp hnone
      exact .done fun x hx => by simpa using List.all_eq_true.mp hall x hx
    · rw [hemit]
      apply SiteM.Quiet.pure
      intro out hout
      cases hout
      exact .emit hx rfl hready'
  · intro _ _
    rfl

end Ordered

namespace Interleave

variable {γ : Type}

theorem quiet_discard (p : Interleave γ) :
    Quiet stall (discard : StrategyM (Interleave γ) Unit) p fun _ p' =>
      p' = { p with selection := none } := by
  unfold discard
  rw [Quiet.get, Quiet.modify]
  cases p.selection with
  | none => exact Quiet.pure rfl
  | some s => exact Quiet.lift_last (SiteM.Quiet.release s.lease) fun _ _ => rfl

variable [WordSource γ]

theorem quiet_prepare (p : Interleave γ) (inputs : List (Option τ)) :
    Quiet stall (prepare inputs : StrategyM (Interleave γ) Unit) p fun _ p' =>
      p'.Ready inputs (pendings inputs) := by
  unfold prepare
  split
  · exact Quiet.throw_bind
  · rw [Quiet.modify]
    apply (quiet_discard _).bind
    intro _ p' hdiscard
    subst hdiscard
    apply Quiet.lift (Selection.quiet_new _ _)
    intro s hs
    obtain ⟨lease, rfl⟩ := hs
    have hle : pendings inputs ≤ inputs.length := List.countP_le_length
    obtain ⟨nodes, source', henter, -, hsize, hnodes, hcontends⟩ :=
      enterAll_eq { capacity := inputs.length, lease : Selection UInt32 } p.source 0 inputs.length
        inputs (by simp) (by simp) (by simp)
    rw [show (#[] : Array (Node UInt32)).size = 0 from rfl, Nat.zero_add] at hsize
    rw [Quiet.get]
    apply Quiet.lift (P := fun out => out = ({ capacity := inputs.length, lease, nodes }, source'))
    · rw [henter]
      exact SiteM.Quiet.pure rfl
    · intro entered hentered
      subst hentered
      refine Quiet.modify_last ⟨⟨_, rfl, hsize, hle, Nat.le_refl _, hnodes, hcontends⟩, rfl,
        fun i hi => by simp at hi, ?_⟩
      simp only [news, Selection.size, hsize]
      omega

/-- A step is idle for each input in contention that turns out to be used up. -/
theorem diligent (stall : Prop) :
    Strategy.Diligent stall fun (size : Nat) (p : Interleave γ) (inputs : List (Option τ)) =>
      p.Ready inputs size := by
  constructor
  · intro p pending
    apply (quiet_prepare p pending).mono
    intro _ p' hready
    exact ⟨_, List.countP_le_length, hready⟩
  · intro idle p pending hready
    change Quiet stall (Interleave.operate pending (Taken.none pending.length)) p _
    unfold Quiet
    rcases hready.operate with ⟨hnone, p', hdone, -⟩ | ⟨fewer, p', hfewer, hskip, -, hready', -⟩ |
      ⟨x, i, p', hx, hemit, -, hready', -⟩
    · rw [hdone]
      apply SiteM.Quiet.pure
      intro out hout
      cases hout
      exact .done fun x hx => by simpa using List.all_eq_true.mp hnone x hx
    · rw [hskip]
      apply SiteM.Quiet.pure
      intro out hout
      cases hout
      exact .skip (by omega) rfl hready'
    · rw [hemit]
      apply SiteM.Quiet.pure
      intro out hout
      cases hout
      exact .emit hx rfl hready'
  · intro _ _
    rfl

end Interleave

end BoundedMerge
