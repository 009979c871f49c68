import BoundedMerge.Proofs.Strategy.Policy
import BoundedMerge.Strategy.FirstPending

/-!
The strategies that look for the first pending record are policies: they hold no memory, and a
step takes the input of that record, or all inputs.
-/

namespace BoundedMerge

open SiteM

variable {τ : Type}

namespace Taken

theorem mark_of_lt {index : Nat} {indices : List Nat} (h : ∀ i ∈ indices, i < index) :
    mark index indices = indices ++ [index] := by
  induction indices with
  | nil => rfl
  | cons i indices ih =>
    have hi := h i List.mem_cons_self
    rw [mark, if_neg (by omega), if_neg (by omega),
      ih fun j hj => h j (List.mem_cons_of_mem _ hj), List.cons_append]

end Taken

namespace Strategy

theorem takeAll_none (arity : Nat) :
    takeAll (Taken.none arity) arity = pure { arity, indices := List.range arity } := by
  have hfirst (count : Nat) (hcount : count ≤ arity) :
      (List.range count).foldlM take (Taken.none arity) =
        pure { arity, indices := List.range count } := by
    induction count with
    | zero => rfl
    | succ count ih =>
      have htake : Taken.take? { arity, indices := List.range count } count =
          some { arity, indices := List.range count ++ [count] } := by
        rw [Taken.take?, if_pos (show count < arity from hcount),
          Taken.mark_of_lt fun i hi => List.mem_range.mp hi]
      rw [List.range_succ, List.foldlM_append, ih (by omega), pure_bind, List.foldlM_cons, take,
        htake]
      rfl
  exact hfirst arity (Nat.le_refl _)

end Strategy

namespace FirstPending

theorem find?_lt {index i : Nat} {x : τ} {inputs : List (Option τ)}
    (h : find? index inputs = some (i, x)) : i < index + inputs.length := by
  induction inputs generalizing index with
  | nil => contradiction
  | cons input inputs ih =>
    rw [List.length_cons]
    cases input with
    | none =>
      have := ih h
      omega
    | some y =>
      cases h
      omega

def answer (inputs : List (Option τ)) (p : FirstPending τ) : (Step τ × Taken) × FirstPending τ :=
  if p.stop = some p.steps then ((.done, Taken.none inputs.length), p)
  else match find? 0 inputs with
  | none => ((.done, Taken.none inputs.length), p)
  | some (index, x) =>
    let one : Taken := { arity := inputs.length, indices := [index] }
    let all : Taken := { arity := inputs.length, indices := List.range inputs.length }
    (match p.mode with
      | .concat => (.emit x, one)
      | .lockstep => (.emit x, all)
      | .skipOdd => (if p.key x % 2 = 1 then .skip else .emit x, one),
     { p with steps := p.steps + 1 })

theorem marks_answer (inputs : List (Option τ)) (p : FirstPending τ) :
    (answer inputs p).1.2.Marks inputs.length := by
  have hnone : (Taken.none inputs.length).Marks inputs.length :=
    ⟨List.nodup_nil, by simp [Taken.none]⟩
  rw [answer]
  split
  · exact hnone
  · cases hfind : find? 0 inputs with
    | none => exact hnone
    | some found =>
      obtain ⟨index, x⟩ := found
      have hlt := find?_lt hfind
      have hone : Taken.Marks { arity := inputs.length, indices := [index] } inputs.length :=
        ⟨List.pairwise_singleton _ _, by simpa using hlt⟩
      cases hmode : p.mode with
      | concat => simpa only [hmode] using hone
      | lockstep => exact ⟨List.nodup_range, fun i hi => List.mem_range.mp hi⟩
      | skipOdd => simpa only [hmode] using hone

def policy : Policy (FirstPending τ) τ where
  prepare _ p := .ok (.ok (), { p with steps := 0 })
  operate inputs p := .ok (.ok (answer inputs p).1, (answer inputs p).2)
  marks inputs p step taken p' h := by
    have hmarks := marks_answer inputs p
    injection h with h
    rw [Except.ok.inj (Prod.mk.inj h).1] at hmarks
    exact hmarks

theorem operate_eq (inputs : List (Option τ)) (p : FirstPending τ) :
    (operate inputs (Taken.none inputs.length) : StrategyM (FirstPending τ) (Step τ × Taken)) p =
      (pure (.ok (answer inputs p).1, (answer inputs p).2) : SiteM _) := by
  unfold operate
  rw [answer]
  simp only [Work.run_bind, Work.run_get, pure_bind]
  split
  · rfl
  · cases hfind : find? 0 inputs with
    | none => rfl
    | some found =>
      obtain ⟨index, x⟩ := found
      have htake := Strategy.take_none (show index < inputs.length by simpa using find?_lt hfind)
      have htakeAll := Strategy.takeAll_none inputs.length
      cases p.mode <;>
        simp only [Work.run_bind, Work.run_set, Work.run_liftM, Work.run_pure, pure_bind, htake,
          htakeAll]

theorem playedBy (ref : Site) : (policy : Policy (FirstPending τ) τ).PlayedBy ref where
  prepare inputs p := Meets.pure rfl
  operate inputs p := by
    change Meets ref ((operate inputs (Taken.none inputs.length) :
      StrategyM (FirstPending τ) (Step τ × Taken)) p) _ _
    rw [operate_eq]
    exact Meets.pure rfl

end FirstPending

end BoundedMerge
