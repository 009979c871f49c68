import BoundedMerge.Proofs.Site.Work
import BoundedMerge.Proofs.Tape.Turns
import BoundedMerge.Proofs.Tape.Upholds

/-!
What ends a write, on any disk. It fails for its disk alone. It halts only where the tape has no
block yet and the site denies it the memory for one: the ledger ends the program over a breach, or
the machine cannot count or provide so many bytes.
-/

namespace BoundedMerge

open SiteM

/-- The site denies a piece of memory of the given size, and that ends the work. -/
inductive Site.Denies (site : Site) (bytes : Nat) : Halt → Prop
  | breach : site.ledger.policy = .abort → site.ledger.limit < site.ledger.used + bytes →
      Denies site bytes .breach
  | oversized {counted : Nat} : site.Overflows counted →
      counted ≤ max (2 * bytes) (site.ledger.used + bytes) → Denies site bytes (.oversized counted)
  | exhausted : site.memory.Refuses site.memory.asked bytes → Denies site bytes (.exhausted bytes)

variable {α τ : Type} {site : Site}

/-- A piece that the machine does not provide is denied. -/
theorem Site.Denies.of_provide {bytes : Nat} {halt : Halt}
    (h : halt = .oversized (2 * bytes) ∧ site.Overflows (2 * bytes) ∨
      halt = .exhausted bytes ∧ site.memory.Refuses site.memory.asked bytes) :
    site.Denies bytes halt := by
  rcases h with ⟨rfl, hover⟩ | ⟨rfl, hrefuses⟩
  · exact .oversized hover (Nat.le_max_left _ _)
  · exact .exhausted hrefuses

inductive Site.Overdraws (site : Site) (bytes : Nat) : Halt → Prop
  | breach : site.ledger.policy = .abort → site.ledger.limit < site.ledger.used + bytes →
      Overdraws site bytes .breach
  | oversized : site.Overflows (site.ledger.used + bytes) →
      Overdraws site bytes (.oversized (site.ledger.used + bytes))

theorem Site.Overdraws.denies {bytes : Nat} {halt : Halt} (h : site.Overdraws bytes halt) :
    site.Denies bytes halt := by
  cases h with
  | breach habort hlimit => exact .breach habort hlimit
  | oversized hover => exact .oversized hover (Nat.le_max_right _ _)

/-- A piece that was asked for makes no difference to the ledger. -/
theorem Site.Overdraws.of_askedOnce {bytes : Nat} {halt : Halt}
    (h : site.askedOnce.Overdraws bytes halt) : site.Overdraws bytes halt := by
  cases h with
  | breach habort hlimit => exact .breach habort hlimit
  | oversized hover => exact .oversized hover

theorem Lease.ensures_take (bytes : Nat) :
    (Lease.take bytes).Ensures site (fun _ _ => True)
      (fun halt _ => site.Overdraws bytes halt) := by
  unfold Lease.take
  simp only [ensures_bind, ensures_get]
  split
  · exact ensures_pure.mpr trivial
  · next hpolicy =>
    have hcharge : (Site.charge bytes).Ensures site
        (fun outcome _ => ∀ e, outcome = .error e → site.ledger.limit < site.ledger.used + bytes)
        (fun halt _ => site.Overdraws bytes halt) := by
      unfold Site.charge
      simp only [ensures_bind, ensures_get, ne_eq, hpolicy, not_false_eq_true, if_true]
      apply (Site.ensures_count (site.ledger.used + bytes)).mono
      · intro _ after hsame
        rw [hsame, ensures_modifyGet, Ledger.charge, if_neg hpolicy]
        intro e he
        by_contra hfits
        simp only [if_neg hfits] at he
        cases he
      · rintro halt _ ⟨rfl, hover⟩
        exact .oversized hover
    rw [ensures_bind]
    apply hcharge.mono
    · intro outcome after hbreach
      cases outcome with
      | ok _ => exact ensures_pure.mpr trivial
      | error e =>
        simp only
        split
        · next habort =>
          simp only [ensures_bind, Site.report, ensures_modify, ensures_halt]
          exact .breach habort (hbreach e rfl)
        · simp only [ensures_bind, Site.report, ensures_modify]
          exact ensures_pure.mpr trivial
    · intro halt _ hh
      exact hh

namespace Tape

variable {t : Tape τ}

variable [FixedWidth τ]

end Tape

end BoundedMerge
