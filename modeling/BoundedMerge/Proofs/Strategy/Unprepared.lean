import BoundedMerge.Proofs.Strategy.Renewal

/-!
Strategies that were never prepared for a merge. Whatever else such a strategy was asked left no
trace in it, only that it has counted the runs it sorted, or drawn words to shuffle them. It has no
selection, so an ordered strategy declines every step. An interleaving one compares the number of
inputs with that of its merge before it looks for the selection, and there is no such number yet: it
declines a step over no inputs, and any other step breaks the assertion. Both can be prepared
later, and then carry a merge to its end.
-/

namespace BoundedMerge

open SiteM Holder

namespace Strategy

variable {π τ ι : Type}

/-- What may have become of a new strategy that no merge was begun with: it refused every merge it
was to prepare for. Besides, it was asked for steps and to arrange runs, any number of times, with
any outcome and at any site. -/
inductive Unprepared (record : ι → Type) [∀ i, Strategy π (record i)] (new : π) : π → Prop
  | created : Unprepared record new new
  | refused {p p' : π} {site site' : Site} {i : ι} {e : MergeError}
    (inputs : List (Option (record i))) (h : Unprepared record new p)
    (hcall : ((Strategy.prepare inputs : StrategyM π Unit) p site :
      Except Halt (Except MergeError Unit × π) × Site) = (.ok (.error e, p'), site')) :
    Unprepared record new p'
  | operated {p p' : π} {site site' : Site} {i : ι} (inputs : List (Option (record i)))
    (taken : Taken) (h : Unprepared record new p)
    (hcall : Leaves (Strategy.operate inputs taken) p site p' site') : Unprepared record new p'
  | arranged {p p' : π} {site site' : Site} {i : ι} (run : Array (record i))
    (h : Unprepared record new p) (hcall : Leaves (Strategy.arrange run) p site p' site') :
    Unprepared record new p'

/-- Steps over the inputs are declined: wherever one is taken it fails because the strategy is not
prepared, and nothing changes. This is so with any marks at hand, also with marks that have no room
for an input, where to take one would halt. -/
def Declines (τ : Type) [Strategy π τ] (p : π) (inputs : List (Option τ)) : Prop :=
  ∀ (taken : Taken) (site : Site),
    ((Strategy.operate inputs taken : StrategyM π (Step τ × Taken)) p site :
      Except Halt (Except MergeError (Step τ × Taken) × π) × Site) =
        (.ok (.error .uninitialized, p), site)

def Breaks (τ : Type) [Strategy π τ] (a : Assertion) (p : π) (inputs : List (Option τ)) : Prop :=
  ∀ (taken : Taken) (site : Site),
    ((Strategy.operate inputs taken : StrategyM π (Step τ × Taken)) p site :
      Except Halt (Except MergeError (Step τ × Taken) × π) × Site) = (.error (.assertion a), site)

/-- The strategy is fit for a merge. To prepare it makes it answer as the `new` one does, and takes
one selection for the inputs and nothing else. Driven over any runs it comes to its end, unless the
site halts it, and has emitted what `Merges` says of these runs. -/
structure Fit (τ : Type) [Strategy π τ] (Merges : List (List τ) → List τ → Prop) (p new : π) :
    Prop where
  renews (site : Site) : Renews τ p new site.ledger.policy site.ledger.used site
  drives (runs : List (List τ)) (hruns : runs ≠ []) (site : Site) :
    ((drive runs : StrategyM π (List (Option τ))) p).Ensures site
      (fun out _ => ∃ emitted, out.1 = .ok emitted ∧ Merges runs emitted.reduceOption)
      fun halt _ => site.Excuses halt

/-- What holds nothing leaves all that is in use to others. -/
theorem accounted_of_held [Holder π] {p : π} {site : Site} (hpaid : Paid p) (hheld : held p = 0)
    (hpolicy : site.ledger.policy ≠ .ignore) : Accounted site.ledger.used p site := by
  refine ⟨hpolicy, hpaid, ?_⟩
  rw [hheld, Nat.add_zero]

section

variable [Strategy π τ] {p p' new : π} {site site' : Site} {inputs : List (Option τ)}

/-- A call leaves one strategy. -/
theorem Leaves.unique {α : Type} {call : StrategyM π α} {q q' : π} {after after' : Site}
    (h : Leaves call p site q after) (h' : Leaves call p site q' after') : q' = q := by
  obtain ⟨out, hrun⟩ := h
  obtain ⟨out', hrun'⟩ := h'
  rw [hrun] at hrun'
  injection hrun' with hresult
  injection hresult with hresult
  injection hresult with _ hq
  exact hq.symm

/-- A merge that is refused leaves the strategy as it was. -/
theorem Renews.refused_eq {policy : BreachPolicy} {others : Nat} {e : MergeError}
    (h : Renews τ p new policy others site)
    (hcall : ((Strategy.prepare inputs : StrategyM π Unit) p site :
      Except Halt (Except MergeError Unit × π) × Site) = (.ok (.error e, p'), site')) :
    p' = p := by
  by_cases hinputs : inputs = []
  · rw [hinputs] at hcall
    exact Leaves.unique ⟨_, h.refuses⟩ ⟨_, hcall⟩
  · have hok := ((h.prepares inputs hinputs).of_run hcall).1
    contradiction

theorem Declines.leaves_eq {taken : Taken} (h : Declines τ p inputs)
    (hcall : Leaves (Strategy.operate inputs taken : StrategyM π (Step τ × Taken)) p site
      p' site') :
    p' = p :=
  Leaves.unique ⟨_, h taken site⟩ hcall

theorem Breaks.not_leaves {taken : Taken} {a : Assertion} (h : Breaks τ a p inputs) :
    ¬Leaves (Strategy.operate inputs taken : StrategyM π (Step τ × Taken)) p site p' site' := by
  intro hcall
  obtain ⟨out, hrun⟩ := hcall
  rw [h taken site] at hrun
  injection hrun with hout
  contradiction

/-- A drive that is followed by a property comes to its end if the property says that every end of
the merge is one without an error. -/
theorem ensures_of_driven {Q : Except MergeError Unit → π → List (List τ) → List τ → Prop}
    {Merged : List τ → Prop} {runs : List (List τ)}
    (hdrive : Yields site ((drive runs : StrategyM π (List (Option τ))) p) (Driven Q []))
    (hends : ∀ outcome q left out, Q outcome q left out → outcome = .ok () ∧ Merged out) :
    ((drive runs : StrategyM π (List (Option τ))) p).Ensures site
      (fun out _ => ∃ emitted, out.1 = .ok emitted ∧ Merged emitted.reduceOption)
      fun halt _ => site.Excuses halt := by
  apply (hdrive.ensures (Site.Like.refl site)).mono
  · intro out _ hout
    obtain ⟨outcome, q⟩ := out
    cases outcome with
    | error e =>
      obtain ⟨⟨left, rest, hQ⟩, _⟩ := hout
      have hok := (hends _ _ _ _ hQ).1
      contradiction
    | ok emitted =>
      obtain ⟨⟨left, hQ⟩, _⟩ := hout
      exact ⟨emitted, rfl, (hends _ _ _ _ hQ).2⟩
  · exact fun _ _ hh => hh

end

end Strategy

namespace Ordered

variable {τ : Type} {cmp : τ → τ → Ordering} {handleSize : Nat} {pivots : Nat → Sorting.PivotChoice}

/-- All records of the runs, and no others. If the comparison is a total preorder and the runs are
in order, they are in the order of the stable sort. -/
structure Merges (cmp : τ → τ → Ordering) (runs : List (List τ)) (out : List τ) : Prop where
  perm : out.Perm runs.flatten
  stable : Std.TransCmp cmp → (∀ run ∈ runs, Ascending cmp run) →
    out = stableSort cmp runs.flatten

/-- To arrange a run counts as a sort, and changes nothing else. -/
theorem counts_arrange (p : Ordered τ) (run : Array τ) (site : Site) :
    ((arrange run : StrategyM (Ordered τ) (Array τ)) p).Ensures site
      (fun out _ => out.2 = { p with sorts := p.sorts + 1 }) fun _ _ => True := by
  unfold arrange
  simp only [Work.run_bind, Work.run_get, Work.run_set, Work.run_liftM, pure_bind]
  exact ensures_after fun _ _ => ensures_pure.mpr rfl

variable [FixedWidth τ]

theorem merges_drive (p : Ordered τ) {runs : List (List τ)} (hruns : runs ≠ []) (site : Site) :
    ((Strategy.drive runs : StrategyM (Ordered τ) (List (Option τ))) p).Ensures site
      (fun out _ => ∃ emitted, out.1 = .ok emitted ∧ Merges p.cmp runs emitted.reduceOption)
      fun halt _ => site.Excuses halt := by
  have hprepare : Yields site _ _ := yields_prepare_merging (p := p) (.refl p) hruns
  have hdrive := Strategy.yields_drive (steps_merging runs) (hprepare.mono fun out hout => by
    obtain ⟨_, p'⟩ := out
    obtain ⟨rfl, hmerging, hlimit⟩ := hout
    exact ⟨Strategy.remaining runs, hlimit, hmerging⟩)
  apply Strategy.ensures_of_driven hdrive
  intro _ _ _ _ hmerged
  exact ⟨hmerged.ok, hmerged.perm, hmerged.stable⟩

theorem declines_idle (sorts : Nat) (inputs : List (Option τ)) :
    Strategy.Declines τ ({ cmp, handleSize, pivots, sorts } : Ordered τ) inputs :=
  fun _ _ => rfl

theorem fit_idle (sorts : Nat) :
    Strategy.Fit τ (Merges cmp) ({ cmp, handleSize, pivots, sorts } : Ordered τ)
      { cmp, handleSize, pivots } where
  renews _ := renews_of_accounted rfl (Strategy.accounted_of_held Selection.covered_none rfl)
  drives _ hruns site := merges_drive _ hruns site

/-- Nothing but the number of sorts tells a strategy that was never prepared from a new one. -/
theorem eq_of_unprepared {p : Ordered τ}
    (h : Strategy.Unprepared (fun _ : Unit => τ) { cmp, handleSize, pivots } p) :
    ∃ sorts, p = { cmp, handleSize, pivots, sorts } := by
  induction h with
  | created => exact ⟨0, rfl⟩
  | refused inputs _ hcall ih =>
    obtain ⟨sorts, rfl⟩ := ih
    exact ⟨sorts, ((fit_idle sorts).renews _).refused_eq hcall⟩
  | operated inputs taken _ hcall ih =>
    obtain ⟨sorts, rfl⟩ := ih
    exact ⟨sorts, (declines_idle sorts inputs).leaves_eq hcall⟩
  | arranged run _ hcall ih =>
    obtain ⟨sorts, rfl⟩ := ih
    obtain ⟨_, hrun⟩ := hcall
    exact ⟨sorts + 1, (counts_arrange _ run _).of_run hrun⟩

end Ordered

namespace Interleave

variable {γ τ ι : Type} [WordSource γ]

/-- To arrange a run draws words, and changes nothing else. -/
theorem draws_arrange (p : Interleave γ) (run : Array τ) (site : Site) :
    ((arrange run : StrategyM (Interleave γ) (Array τ)) p).Ensures site
      (fun out _ => ∃ source, out.2 = { p with source }) fun _ _ => True := by
  unfold arrange
  simp only [Work.run_bind, Work.run_get, pure_bind]
  cases Draw.shuffle run p.source with
  | none => exact ensures_halt.mpr trivial
  | some drawn => exact ensures_pure.mpr ⟨drawn.2, rfl⟩

theorem merges_drive (p : Interleave γ) {runs : List (List τ)} (hruns : runs ≠ []) (site : Site) :
    ((Strategy.drive runs : StrategyM (Interleave γ) (List (Option τ))) p).Ensures site
      (fun out _ => ∃ emitted, out.1 = .ok emitted ∧ Conserves runs emitted.reduceOption)
      fun halt _ => site.Excuses halt := by
  have hprepare : Yields site _ _ := yields_prepare_merging (p := p) .here hruns
  have hdrive := Strategy.yields_drive (steps_merging runs) (hprepare.mono fun out hout => by
    obtain ⟨_, p'⟩ := out
    obtain ⟨rfl, hmerging⟩ := hout
    exact hmerging)
  apply Strategy.ensures_of_driven hdrive
  intro _ _ _ _ hmerged
  exact ⟨hmerged.ok, hmerged.joins.conserves⟩

/-- A strategy that was not prepared expects no inputs. -/
theorem declines_idle (source : γ) : Strategy.Declines τ ({ source } : Interleave γ) [] :=
  fun _ _ => rfl

theorem breaks_idle (source : γ) {inputs : List (Option τ)} (hinputs : inputs ≠ []) :
    Strategy.Breaks τ .inputCountChanged ({ source } : Interleave γ) inputs := by
  cases inputs with
  | nil => contradiction
  | cons x inputs => exact fun _ _ => rfl

theorem fit_idle (source : γ) :
    Strategy.Fit τ Conserves ({ source } : Interleave γ) { source } where
  renews _ := renews_of_accounted (Strategy.accounted_of_held Selection.covered_none rfl)
  drives _ hruns site := merges_drive _ hruns site

/-- Nothing but the words that are to come tells a strategy that was never prepared from a new
one. -/
theorem eq_of_unprepared {record : ι → Type} {source : γ} {p : Interleave γ}
    (h : Strategy.Unprepared record { source } p) : ∃ later, p = { source := later } := by
  induction h with
  | created => exact ⟨source, rfl⟩
  | @refused _ _ _ _ i _ inputs _ hcall ih =>
    obtain ⟨later, rfl⟩ := ih
    exact ⟨later, ((@fit_idle _ (record i) _ later).renews _).refused_eq hcall⟩
  | operated inputs taken _ hcall ih =>
    obtain ⟨later, rfl⟩ := ih
    -- A step that breaks the assertion leaves no strategy, so the step was one over no inputs.
    by_cases hinputs : inputs = []
    · rw [hinputs] at hcall
      exact ⟨later, (declines_idle later).leaves_eq hcall⟩
    · exact absurd hcall (breaks_idle later hinputs).not_leaves
  | arranged run _ hcall ih =>
    obtain ⟨later, rfl⟩ := ih
    obtain ⟨_, hrun⟩ := hcall
    exact (draws_arrange _ run _).of_run hrun

end Interleave

/-- Before it was prepared for a merge, whatever it was asked, an ordered strategy declines every
step, and an interleaving one every step over no inputs, while a step over any inputs breaks its
assertion that their number is that of the merge. Both are fit for a merge to come. -/
theorem Strategy.declines_before_prepare {γ ι : Type} [WordSource γ] (record : ι → Type)
    (source : γ) :
    (∀ {τ : Type} [FixedWidth τ] (cmp : τ → τ → Ordering) (handleSize : Nat)
      (pivots : Nat → Sorting.PivotChoice) (p : Ordered τ),
      Unprepared (fun _ : Unit => τ) ({ cmp, handleSize, pivots } : Ordered τ) p →
        (∀ inputs, Declines τ p inputs) ∧
          Fit τ (Ordered.Merges cmp) p { cmp, handleSize, pivots }) ∧
    ∀ {τ : Type} (p : Interleave γ), Unprepared record ({ source } : Interleave γ) p →
      (Declines τ p [] ∧ ∀ inputs ≠ [], Breaks τ .inputCountChanged p inputs) ∧
        Fit τ Conserves p { source := p.source } := by
  constructor
  · intro τ _ cmp handleSize pivots p h
    obtain ⟨sorts, rfl⟩ := Ordered.eq_of_unprepared h
    exact ⟨Ordered.declines_idle sorts, Ordered.fit_idle sorts⟩
  · intro τ p h
    obtain ⟨later, rfl⟩ := Interleave.eq_of_unprepared h
    have hbreaks (inputs : List (Option τ)) (hinputs : inputs ≠ []) :
        Breaks τ .inputCountChanged ({ source := later } : Interleave γ) inputs :=
      Interleave.breaks_idle later hinputs
    exact ⟨⟨Interleave.declines_idle later, hbreaks⟩, Interleave.fit_idle later⟩

section Bytes

def twoBytes : Array Byte := #[0x25#8, 0x13#8]

def sortedOnce : Ordered Byte := { byUpperHalf with sorts := 1 }

/-- It refused a merge of no inputs and declined a step before it sorted the run. -/
theorem unprepared_sortedOnce :
    Strategy.Unprepared (fun _ : Unit => Byte) byUpperHalf sortedOnce := by
  have hrefuses : ((Strategy.prepare ([] : List (Option Byte)) : StrategyM (Ordered Byte) Unit)
      byUpperHalf oneNode : Except Halt (Except MergeError Unit × Ordered Byte) × Site) =
        (.ok (.error (.invalidArity 0), byUpperHalf), oneNode) := rfl
  have hdeclines : Strategy.Leaves (Strategy.operate oneByte (Taken.none 1)) byUpperHalf oneNode
      byUpperHalf oneNode := ⟨.error .uninitialized, rfl⟩
  have hsorts : Strategy.Leaves (Strategy.arrange twoBytes) byUpperHalf oneNode sortedOnce
      oneNode := by
    refine ⟨.ok #[0x13#8, 0x25#8], ?_⟩
    -- The sort recurses on a measure, which `rfl` alone does not unfold.
    with_unfolding_all rfl
  have hcreated : Strategy.Unprepared (fun _ : Unit => Byte) byUpperHalf byUpperHalf := .created
  have hrefused := hcreated.refused (i := ()) [] hrefuses
  have hdeclined : Strategy.Unprepared (fun _ : Unit => Byte) byUpperHalf byUpperHalf :=
    hrefused.operated (i := ()) oneByte (Taken.none 1) hdeclines
  exact hdeclined.arranged (i := ()) twoBytes hsorts

def seeded : Interleave KeyStream := { source := KeyStream.ofSeed 7 }

/-- It refused a merge of no inputs, declined a step over none and shuffled one byte. -/
theorem unprepared_seeded : Strategy.Unprepared (fun _ : Unit => Byte) seeded seeded := by
  have hrefuses : ((Strategy.prepare ([] : List (Option Byte)) :
      StrategyM (Interleave KeyStream) Unit) seeded oneNode :
        Except Halt (Except MergeError Unit × Interleave KeyStream) × Site) =
          (.ok (.error (.invalidArity 0), seeded), oneNode) := rfl
  have hdeclines : Strategy.Leaves
      (Strategy.operate ([] : List (Option Byte)) (Taken.none 0)) seeded oneNode seeded oneNode :=
    ⟨.error .uninitialized, rfl⟩
  have hshuffles : Strategy.Leaves (Strategy.arrange (#[0x13#8] : Array Byte)) seeded oneNode
      seeded oneNode := ⟨.ok #[0x13#8], rfl⟩
  have hcreated : Strategy.Unprepared (fun _ : Unit => Byte) seeded seeded := .created
  have hrefused := hcreated.refused (i := ()) [] hrefuses
  have hdeclined := hrefused.operated (i := ()) [] (Taken.none 0) hdeclines
  exact hdeclined.arranged (i := ()) #[0x13#8] hshuffles

/-- Strategies for bytes after some calls that were not to prepare them. -/
theorem Strategy.declines_before_prepare_bytes :
    (Unprepared (fun _ : Unit => Byte) byUpperHalf sortedOnce ∧
      (∀ inputs, Declines Byte sortedOnce inputs) ∧
        Fit Byte (Ordered.Merges byUpperHalf.cmp) sortedOnce byUpperHalf) ∧
    (Unprepared (fun _ : Unit => Byte) seeded seeded ∧
      (Declines Byte seeded [] ∧ Breaks Byte .inputCountChanged seeded oneByte) ∧
        Fit Byte Conserves seeded seeded) := by
  obtain ⟨hordered, hinterleave⟩ :=
    declines_before_prepare (fun _ : Unit => Byte) (KeyStream.ofSeed 7)
  obtain ⟨⟨hdeclines, hbreaks⟩, hfit⟩ := @hinterleave Byte seeded unprepared_seeded
  exact ⟨⟨unprepared_sortedOnce, hordered _ _ _ _ unprepared_sortedOnce⟩,
    unprepared_seeded, ⟨hdeclines, hbreaks oneByte (by simp [oneByte])⟩, hfit⟩

/-- A new strategy that is to shuffle does not decline all steps: one over a single byte breaks the
assertion on the number of inputs before it is seen that nothing was prepared. -/
theorem Interleave.breaks_before_prepare :
    Strategy.Breaks Byte .inputCountChanged seeded oneByte ∧
      ¬∀ p, Strategy.Unprepared (fun _ : Unit => Byte) seeded p →
        ∀ inputs, Strategy.Declines Byte p inputs := by
  have hbreaks : Strategy.Breaks Byte .inputCountChanged seeded oneByte :=
    breaks_idle (KeyStream.ofSeed 7) (by simp [oneByte])
  refine ⟨hbreaks, ?_⟩
  intro h
  have hdeclines := h seeded .created oneByte (Taken.none 1) oneNode
  rw [hbreaks (Taken.none 1) oneNode] at hdeclines
  injection hdeclines with hout
  contradiction

end Bytes

end BoundedMerge
