import BoundedMerge.Random.Draw

/-!
Random orders. A shuffle exchanges records and so gives all of them in another order, whatever the
words are. It comes to no end only if some draw rejects one word after the other.
-/

namespace BoundedMerge

variable {γ : Type} [WordSource γ]

inductive WordSource.Reaches (source : γ) : γ → Prop
  | here : Reaches source source
  | next {later : γ} : Reaches source later → Reaches source (WordSource.next later).2

theorem WordSource.Reaches.trans {source later last : γ} (h : Reaches source later)
    (hlast : Reaches later last) : Reaches source last := by
  induction hlast with
  | here => exact h
  | next _ ih => exact ih.next

namespace Draw

open WordSource

/-- From some state of the source on, a draw rejects every word that it looks at. -/
def Stalls (source : γ) : Prop := ∃ bound later, Reaches source later ∧ below bound later = none

theorem Stalls.later {source later : γ} (hreaches : Reaches source later) (h : Stalls later) :
    Stalls source := by
  obtain ⟨bound, last, hlast, hnone⟩ := h
  exact ⟨bound, last, hreaches.trans hlast, hnone⟩

theorem belowWithin_reaches {bound tries number : Nat} {source later : γ}
    (h : belowWithin bound tries source = some (number, later)) : Reaches source later := by
  induction tries generalizing source with
  | zero => contradiction
  | succ tries ih =>
    have hnext : Reaches source (WordSource.next source).2 := Reaches.here.next
    simp only [belowWithin] at h
    split at h
    · rw [Option.some.injEq, Prod.mk.injEq] at h
      rw [← h.2]
      exact hnext
    · exact hnext.trans (ih h)

variable {τ : Type}

theorem swapIfInBounds_perm (data : Array τ) (i j : Nat) :
    (data.swapIfInBounds i j).Perm data := by
  rw [Array.swapIfInBounds_def]
  split
  · split
    · exact Array.swap_perm _ _
    · exact Array.Perm.refl _
  · exact Array.Perm.refl _

theorem shuffleFrom_perm (data : Array τ) (i : Nat) (source : γ) :
    (∃ out later, shuffleFrom data i source = some (out, later) ∧ out.Perm data ∧
      Reaches source later) ∨ (shuffleFrom data i source = none ∧ Stalls source) := by
  induction i generalizing data source with
  | zero => exact .inl ⟨data, source, rfl, Array.Perm.refl _, .here⟩
  | succ i ih =>
    cases hdraw : below (i + 2) source with
    | none =>
      right
      refine ⟨?_, i + 2, source, .here, hdraw⟩
      rw [shuffleFrom, hdraw]
      rfl
    | some drawn =>
      obtain ⟨j, later⟩ := drawn
      have hlater : Reaches source later := belowWithin_reaches hdraw
      have hstep : shuffleFrom data (i + 1) source =
          shuffleFrom (data.swapIfInBounds (i + 1) j) i later := by
        rw [shuffleFrom, hdraw]
        rfl
      rw [hstep]
      rcases ih (data.swapIfInBounds (i + 1) j) later with hdone | ⟨hnone, hstalls⟩
      · obtain ⟨out, last, hout, hperm, hlast⟩ := hdone
        have hwhole := hperm.trans (swapIfInBounds_perm data (i + 1) j)
        exact .inl ⟨out, last, hout, hwhole, hlater.trans hlast⟩
      · exact .inr ⟨hnone, hstalls.later hlater⟩

/-- A shuffle gives the records in another order, unless a draw goes on and on. -/
theorem shuffle_perm (data : Array τ) (source : γ) :
    (∃ out later, shuffle data source = some (out, later) ∧ out.Perm data ∧
      Reaches source later) ∨ (shuffle data source = none ∧ Stalls source) :=
  shuffleFrom_perm data _ source

end Draw

end BoundedMerge
