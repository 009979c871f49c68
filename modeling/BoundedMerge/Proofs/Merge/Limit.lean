import BoundedMerge.Layout.Order
import BoundedMerge.Proofs.Layout.Lawful
import BoundedMerge.Proofs.Merge.FormationBudget

/-!
The limit holds. What is in use is within the limit at the start, and the plans see to it that it
stays there, on disks that fail as well as on those that do not. So no charge is ever reported as
a breach, and none ends the program.
-/

namespace BoundedMerge

open SiteM

variable {α κ π τ : Type} {ref : Site} {rest : Nat}

/-- The limit was kept: it is what it was, what is in use is within it, and no charge exceeded it
since. -/
structure Site.Within (site after : Site) : Prop where
  limit_eq : after.ledger.limit = site.ledger.limit
  used_le : after.ledger.used ≤ after.ledger.limit
  excesses_eq : after.excesses = site.excesses

theorem Site.Holds.within {used : Nat} {site after : Site} (h : site.Holds used after) :
    site.Within after :=
  ⟨h.like.limit, by rw [h.used_eq, h.like.limit]; exact h.used_le, h.quiet⟩

/-- The work keeps the limit, whether it comes to a result or to a halt, and no breach of the limit
is what makes it halt. -/
def SiteM.KeepsLimit (site : Site) (work : SiteM α) : Prop :=
  work.Ensures site (fun _ after => site.Within after)
    (fun halt after => halt ≠ .breach ∧ site.Within after)

theorem SiteM.Tallies.keepsLimit {site : Site} {used : Nat} {work : SiteM α} {Q : α → Nat → Prop}
    (h : Tallies site used work Q) (hused : site.ledger.used = used)
    (hle : site.ledger.used ≤ site.ledger.limit) : work.KeepsLimit site := by
  refine (h site ⟨Site.Like.refl site, hused, hused ▸ hle, rfl⟩).mono ?_ ?_
  · rintro _ after ⟨_, -, hafter⟩
    exact hafter.within
  · rintro halt after ⟨hbreach, _, hafter⟩
    exact ⟨hbreach, hafter.within⟩

variable [FixedWidth τ]

namespace Merger

/-- The tapes have the blocks of the merger, and what they and the selection of a strategy hold is
charged to the ledger of the site. -/
structure Registered (m : Merger) (site : Site) (tapes : List (Tape τ))
    (selection : Option (Selection κ)) : Prop where
  owes : ∀ t ∈ tapes, t.Owes site (m.blockBytes τ)
  sound : Selection.Sound site selection
  held_le : Selection.held selection + Tape.heldAll tapes ≤ site.ledger.used

variable [Strategy π τ] {sound : π → Prop} {heap : π → Nat} {overhead node : Nat}

/-- The strategy is closed in the end, and the tapes hold what they still hold. -/
theorem tallies_processWith (m : Merger)
    (hleases : Strategy.Leases τ ref sound heap overhead node) {strategy : π} (hp : sound strategy)
    {t : Transfer τ} (hinput : t.input.Owes ref (m.blockBytes τ))
    (houtput : t.output.Owes ref (m.blockBytes τ)) :
    Tallies ref (rest + heap strategy + (t.input.held + t.output.held))
      (m.processWith strategy t) fun out used =>
        used = rest + (out.2.input.held + out.2.output.held) := by
  unfold processWith
  simp only [Work.run_bind, Work.run_get, Work.run_set, Work.run_liftM, bind_assoc, pure_bind]
  refine (m.tallies_process (s := ⟨⟨t.output, strategy⟩, t.input⟩) hleases
    ⟨hinput, houtput, hp⟩).bind ?_
  rintro ⟨outcome, s⟩ _ ⟨rfl, hs⟩
  simp only at hs ⊢
  rw [Source.held, show rest + heap s.strategy + (s.input.held + s.output.held) =
    rest + (s.input.held + s.output.held) + heap s.strategy by omega]
  refine (hleases.close s.strategy _ hs.strategy).bind ?_
  rintro _ _ rfl
  cases outcome with
  | ok stats => exact Tallies.pure rfl
  | error e => exact Tallies.pure rfl

/-- A sort or shuffle with a strategy that holds nothing yet keeps the limit. -/
theorem keepsLimit_processWith (m : Merger) {site : Site}
    (hleases : Strategy.Leases τ site sound heap overhead node) {strategy : π}
    (hp : sound strategy) (hheap : heap strategy = 0) {t : Transfer τ}
    (hregistered : m.Registered site [t.input, t.output] (none : Option (Selection τ)))
    (hused : site.ledger.used ≤ site.ledger.limit) :
    (m.processWith strategy t).KeepsLimit site := by
  have hheld := hregistered.held_le
  simp only [Selection.held, Option.map_none, Option.getD_none, Tape.heldAll_cons,
    Tape.heldAll_nil, Nat.add_zero, Nat.zero_add] at hheld
  obtain ⟨rest, hrest⟩ := Nat.exists_eq_add_of_le' hheld
  have htallies : Tallies site (rest + heap strategy + (t.input.held + t.output.held))
      (m.processWith strategy t) _ :=
    m.tallies_processWith hleases hp (hregistered.owes _ (by simp)) (hregistered.owes _ (by simp))
  exact htallies.keepsLimit (by omega) hused

/-- A merge of two runs or more keeps the limit, also if the strategy holds a selection already. -/
theorem keepsLimit_merge (m : Merger) {site : Site}
    (hleases : Strategy.Leases τ site sound heap overhead node) {target : Target π τ}
    {selection : Option (Selection κ)} (hp : sound target.strategy)
    (hheap : heap target.strategy = Selection.held selection) {runs : List (Tape τ)}
    (hmany : 1 < runs.length) (hregistered : m.Registered site (target.output :: runs) selection)
    (hused : site.ledger.used ≤ site.ledger.limit) :
    ((m.merge runs : MergeM π τ Stats) target).KeepsLimit site := by
  have hheld := hregistered.held_le
  rw [← hheap, Tape.heldAll_cons] at hheld
  obtain ⟨rest, hrest⟩ := Nat.exists_eq_add_of_le' hheld
  have htallies : Tallies site
      (rest + heap target.strategy + target.output.held + Tape.heldAll runs)
      ((m.merge runs : MergeM π τ Stats) target) _ :=
    m.tallies_merge hleases hp (hregistered.owes _ List.mem_cons_self)
      (fun t ht => hregistered.owes t (List.mem_cons_of_mem _ ht)) hmany
  exact htallies.keepsLimit (by omega) hused

/-- No work of a merger ever breaches the limit, where what is in use at the start is within it:
not a sort, not a shuffle, and no merge of two runs or more with a strategy in any state. This
holds for any policy, whatever the records and the disks are, and whether the work succeeds,
fails or halts. -/
theorem work_keeps_limit (m : Merger) (site : Site) (hused : site.ledger.used ≤ site.ledger.limit) :
    (∀ (cmp : τ → τ → Ordering) (handleSize : Nat) (pivots : Nat → Sorting.PivotChoice)
      (t : Transfer τ), m.Registered site [t.input, t.output] (none : Option (Selection τ)) →
        (m.sortBy cmp handleSize pivots t).KeepsLimit site) ∧
    (∀ (γ : Type) [WordSource γ] (source : γ) (t : Transfer τ),
      m.Registered site [t.input, t.output] (none : Option (Selection τ)) →
        (m.shuffle source t).KeepsLimit site) ∧
    (∀ (target : Target (Ordered τ) τ) (runs : List (Tape τ)), 1 < runs.length →
      m.Registered site (target.output :: runs) target.strategy.selection →
        ((m.merge runs : MergeM (Ordered τ) τ Stats) target).KeepsLimit site) ∧
    (∀ (γ : Type) [WordSource γ] (target : Target (Interleave γ) τ) (runs : List (Tape τ)),
      1 < runs.length → m.Registered site (target.output :: runs) target.strategy.selection →
        ((m.merge runs : MergeM (Interleave γ) τ Stats) target).KeepsLimit site) := by
  have hnone {κ : Type} : Selection.Sound site (none : Option (Selection κ)) := by
    rintro _ ⟨⟩
  refine ⟨?_, ?_, ?_, ?_⟩
  · intro cmp handleSize pivots t hregistered
    exact m.keepsLimit_processWith (Ordered.leases site _) ⟨rfl, hnone⟩ rfl hregistered hused
  · intro γ _ source t hregistered
    exact m.keepsLimit_processWith (Interleave.leases site) hnone rfl hregistered hused
  · intro target runs hmany hregistered
    exact m.keepsLimit_merge (Ordered.leases site target.strategy.handleSize)
      ⟨rfl, hregistered.sound⟩ rfl hmany hregistered hused
  · intro γ _ target runs hmany hregistered
    exact m.keepsLimit_merge (Interleave.leases site) hregistered.sound rfl hmany hregistered hused

/-- Three runs of bytes, with memory for two of them at a time. -/
theorem work_keeps_limit_bytes : 0 ≤ 520 ∧
    ((merge { blockSize := 2 } [
        Tape.ofDisk (Disk.ofBytes (FixedWidth.encodeAll
          (τ := (Layout.scalar (.unsigned .w8)).Value) [1#8, 3#8, 5#8])) none 2,
        Tape.ofDisk (Disk.ofBytes (FixedWidth.encodeAll
          (τ := (Layout.scalar (.unsigned .w8)).Value) [2#8, 2#8])) none 2,
        Tape.ofDisk (Disk.ofBytes (FixedWidth.encodeAll
          (τ := (Layout.scalar (.unsigned .w8)).Value) [0#8])) none 2] :
      MergeM (Ordered (Layout.scalar (.unsigned .w8)).Value)
        (Layout.scalar (.unsigned .w8)).Value Stats)
        { output := Tape.ofDisk (Disk.ofFile 65536 []) none 2,
          strategy := { cmp := (Layout.scalar (.unsigned .w8)).compare } }).KeepsLimit
      { ledger := { limit := 520, policy := .abort } } := by
  refine ⟨by decide, (work_keeps_limit { blockSize := 2 }
    { ledger := { limit := 520, policy := .abort } } (by decide)).2.2.1 _ _ (by decide) ?_⟩
  refine ⟨?_, by rintro _ ⟨⟩, ?_⟩
  · intro t ht
    simp only [List.mem_cons, List.not_mem_nil, or_false] at ht
    rcases ht with rfl | rfl | rfl | rfl <;> exact Tape.Owes.of_none rfl rfl
  · exact Nat.le_refl 0

end Merger

end BoundedMerge
