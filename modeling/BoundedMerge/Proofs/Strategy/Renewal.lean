import BoundedMerge.Proofs.Layout.Lawful
import BoundedMerge.Proofs.Strategy.Answers
import BoundedMerge.Proofs.Strategy.Balance
import BoundedMerge.Proofs.Strategy.Blind
import BoundedMerge.Proofs.Strategy.Interleave
import BoundedMerge.Proofs.Strategy.Ordered

/-!
A strategy that is prepared anew. Whatever it was asked before, in merges that were completed or
broken off, it answers from then on as a new strategy does that is prepared with the same inputs,
and it holds the memory of one selection for these inputs and nothing else. Only a merge of no
inputs is refused, and that changes nothing.
-/

namespace BoundedMerge

open SiteM Holder

/-- Whatever comes first, what comes last has the property. -/
theorem SiteM.ensures_after {α β : Type} {site : Site} {work : SiteM α} {next : α → SiteM β}
    {Q : β → Site → Prop} (h : ∀ a after, (next a).Ensures after Q fun _ _ => True) :
    (work >>= next).Ensures site Q fun _ _ => True :=
  ensures_bind.mpr ((ensures_trivial work site).mono (fun a after _ => h a after) fun _ _ hh => hh)

/-- What work that settles leaves in its result does not depend on there being an account. -/
theorem SiteM.result_of_settles {α : Type} {work : SiteM α} {P : α → Prop} {after : α → Nat}
    {a : α} (h : Settles 0 work P after) (hwork : work = pure a) : P a := by
  have hbooks : (Site.real default .reliable).Books 0 := by
    refine ⟨by decide, rfl, ?_⟩
    intro e he
    contradiction
  have hresult := h 0 (Site.real default .reliable) hbooks
  rw [hwork, ensures_pure] at hresult
  exact hresult.1

namespace Strategy

variable {π τ ι α : Type}

section Past

def Leaves (call : StrategyM π α) (p : π) (site : Site) (p' : π) (site' : Site) : Prop :=
  ∃ out, (call p site : Except Halt (Except MergeError α × π) × Site) = (.ok (out, p'), site')

/-- What may have become of a new strategy, and of the site, when all other parts together have
`others` bytes in use. The strategy was asked anything, any number of times and with any outcome,
about records of one type or of several. In between the other parts did what they liked, as long as
the ledger kept its breach policy and what they took or gave back is what its account shows. -/
inductive Past (record : ι → Type) [∀ i, Strategy π (record i)] (new : π) (policy : BreachPolicy) :
    Nat → π → Site → Prop
  | created {others : Nat} {site : Site} (hpolicy : site.ledger.policy = policy)
    (hused : site.ledger.used = others) : Past record new policy others new site
  | prepared {others : Nat} {p p' : π} {site site' : Site} {i : ι}
    (inputs : List (Option (record i))) (h : Past record new policy others p site)
    (hcall : Leaves (Strategy.prepare inputs) p site p' site') :
    Past record new policy others p' site'
  | operated {others : Nat} {p p' : π} {site site' : Site} {i : ι}
    (inputs : List (Option (record i))) (taken : Taken) (h : Past record new policy others p site)
    (hcall : Leaves (Strategy.operate inputs taken) p site p' site') :
    Past record new policy others p' site'
  | arranged {others : Nat} {p p' : π} {site site' : Site} {i : ι} (run : Array (record i))
    (h : Past record new policy others p site)
    (hcall : Leaves (Strategy.arrange run) p site p' site') :
    Past record new policy others p' site'
  | elsewhere {others others' : Nat} {p : π} {site site' : Site}
    (h : Past record new policy others p site)
    (hpolicy : site'.ledger.policy = site.ledger.policy)
    (hused : site'.ledger.used + others = site.ledger.used + others') :
    Past record new policy others' p site'

variable [Holder π]

/-- An account is kept at the site. It shows what the other parts have in use and what the strategy
holds. -/
structure Accounted (others : Nat) (p : π) (site : Site) : Prop where
  kept : site.ledger.policy ≠ .ignore
  paid : Paid p
  used_eq : site.ledger.used = others + held p

/-- A step: a call leaves the account right if its books are even where nothing was ever reported,
and reports make no difference to it. -/
theorem Accounted.call {call : StrategyM π α} {others : Nat} {p : π} {site : Site}
    (h : Accounted others p site) (hbalances : Balances call) (hblind : Work.Blind call) :
    (call p).Ensures site (fun out after => Accounted others out.2 after) fun _ _ => True := by
  let blank : Site := { site.steady with journal := #[] }
  have htwin : site.Twin blank := ⟨rfl, rfl, rfl, site.twin_steady.supply, rfl⟩
  have hbooks : blank.Books (others + held p) := by
    refine ⟨h.kept, h.used_eq, ?_⟩
    intro e he
    contradiction
  apply (hblind p site blank htwin).mono
  · intro out after hout
    have hecho := hout.resolve_left id
    have hboth := (hecho.and (hbalances.settles h.paid others blank hbooks)).mono
      (fun _ _ hb => hb) fun _ _ hh => hh.1
    obtain ⟨_, after', ⟨⟨rfl, hafter⟩, hpaid, hbooks'⟩, _⟩ := hboth.exists_result
    refine ⟨?_, hpaid, ?_⟩
    · rw [← hafter.ledger]
      exact hbooks'.kept
    · rw [← hafter.ledger]
      exact hbooks'.used_eq
  · intro _ _ hh
    exact hh

variable {record : ι → Type} [∀ i, Strategy π (record i)] {new p : π} {policy : BreachPolicy}
  {others : Nat} {site : Site}

/-- A run: the account is right after any past of a strategy that held nothing when it was new. -/
theorem Past.accounted [∀ i, Accountable π (record i)]
    (hblind : ∀ i, Strategy.Blind π (record i)) (hpaid : Paid new) (hheld : held new = 0)
    (hpolicy : policy ≠ .ignore) (h : Past record new policy others p site) :
    Accounted others p site := by
  induction h with
  | created hcreated hused =>
    rw [← hcreated] at hpolicy
    exact ⟨hpolicy, hpaid, by rw [hheld, Nat.add_zero, hused]⟩
  | @prepared _ _ _ _ _ i inputs _ hcall ih =>
    obtain ⟨_, hrun⟩ := hcall
    exact (ih.call (Accountable.prepare inputs) ((hblind i).prepare inputs)).of_run hrun
  | @operated _ _ _ _ _ i inputs taken _ hcall ih =>
    obtain ⟨_, hrun⟩ := hcall
    exact (ih.call (Accountable.operate inputs taken) ((hblind i).operate inputs taken)).of_run hrun
  | @arranged _ _ _ _ _ i run _ hcall ih =>
    obtain ⟨_, hrun⟩ := hcall
    exact (ih.call (Accountable.arrange run) ((hblind i).arrange run)).of_run hrun
  | elsewhere _ hkept hused ih =>
    refine ⟨hkept ▸ ih.kept, ih.paid, ?_⟩
    have hbefore := ih.used_eq
    omega

end Past

/-- The answers to come are those of the strategy `new` if it is prepared with the inputs, at any
site that does not halt it. -/
def AnswersAsNew (τ : Type) [Strategy π τ] (new : π) (inputs : List (Option τ)) (p : π) : Prop :=
  ∀ site, ((Strategy.prepare inputs : StrategyM π Unit) new).Ensures site
    (fun out _ => out.1 = .ok () ∧ AnswerAlike τ p out.2) fun halt _ => site.Excuses halt

/-- To prepare the strategy erases its past. A merge of no inputs is refused, and changes nothing.
Any other merge begins, unless the site halts it: the strategy answers as the `new` one does, and
where an account is kept it shows what is in use by the `others` and one node for each input. -/
structure Renews (τ : Type) [Strategy π τ] (p new : π) (policy : BreachPolicy) (others : Nat)
    (site : Site) : Prop where
  refuses : ((Strategy.prepare ([] : List (Option τ)) : StrategyM π Unit) p site :
    Except Halt (Except MergeError Unit × π) × Site) = (.ok (.error (.invalidArity 0), p), site)
  prepares (inputs : List (Option τ)) (hinputs : inputs ≠ []) :
    ((Strategy.prepare inputs : StrategyM π Unit) p).Ensures site
      (fun out after => out.1 = .ok () ∧ AnswersAsNew τ new inputs out.2 ∧
        (policy ≠ .ignore →
          after.ledger.used = others + Strategy.perInput τ p * inputs.length))
      fun halt _ => site.Excuses halt

/-- To prepare a strategy erases its past if it is known what it becomes then, `anew`, and neither
the answers to come nor what is held depend on more than is new. -/
theorem renews [Strategy π τ] [Holder π] [Accountable π τ] {p new : π} {policy : BreachPolicy}
    {others : Nat} {site : Site} (anew : π → List (Option τ) → π → Prop)
    (hblind : Strategy.Blind π τ) (haccounted : policy ≠ .ignore → Accounted others p site)
    (hrefuses : (Strategy.prepare ([] : List (Option τ)) : StrategyM π Unit) p =
      (pure (.error (.invalidArity 0), p) : SiteM (Except MergeError Unit × π)))
    (hyields : ∀ (ref : Site) (q : π) (inputs : List (Option τ)), inputs ≠ [] →
      Yields ref ((Strategy.prepare inputs : StrategyM π Unit) q) fun out =>
        out.1 = .ok () ∧ anew q inputs out.2)
    (halike : ∀ inputs q q', anew p inputs q → anew new inputs q' → AnswerAlike τ q q')
    (hheld : ∀ inputs q, anew p inputs q → held q = Strategy.perInput τ p * inputs.length) :
    Renews τ p new policy others site where
  refuses := by rw [hrefuses]; rfl
  prepares inputs hinputs := by
    have hbegins := (hyields site p inputs hinputs).ensures (Site.Like.refl site)
    have haccount : ((Strategy.prepare inputs : StrategyM π Unit) p).Ensures site
        (fun out after => policy ≠ .ignore → Accounted others out.2 after) fun _ _ => True := by
      by_cases hpolicy : policy = .ignore
      · exact (ensures_trivial _ site).mono (fun _ _ _ h => absurd hpolicy h) fun _ _ hh => hh
      · apply ((haccounted hpolicy).call (Accountable.prepare inputs) (hblind.prepare inputs)).mono
        · exact fun _ _ hafter _ => hafter
        · exact fun _ _ hh => hh
    apply (hbegins.and haccount).mono
    · intro out after hout
      obtain ⟨⟨⟨hok, hanew⟩, _⟩, hafter⟩ := hout
      refine ⟨hok, ?_, ?_⟩
      · intro site'
        apply ((hyields site' new inputs hinputs).ensures (Site.Like.refl site')).mono
        · exact fun out' _ hout' => ⟨hout'.1.1, halike inputs _ _ hanew hout'.1.2⟩
        · exact fun _ _ hh => hh
      · intro hpolicy
        rw [(hafter hpolicy).used_eq, hheld inputs _ hanew]
    · exact fun _ _ hh => hh.1

end Strategy

namespace Ordered

variable {τ : Type} {p q p' q' : Ordered τ} {inputs : List (Option τ)}

def Anew (p : Ordered τ) (inputs : List (Option τ)) (q : Ordered τ) : Prop :=
  ∃ lease s, enter p.cmp { capacity := inputs.length, lease } 0 inputs = pure s ∧
    q = { p with selection := some s, lastTaken := none }

theorem Anew.alike (h : p.Anew inputs q) (h' : p'.Anew inputs q') (hcmp : p'.cmp = p.cmp) :
    q.Alike q' := by
  obtain ⟨lease, s, henter, rfl⟩ := h
  obtain ⟨lease', s', henter', rfl⟩ := h'
  rw [hcmp] at henter'
  have hempty : Selection.Alike { capacity := inputs.length, lease : Selection τ }
      { capacity := inputs.length, lease := lease' } := ⟨rfl, rfl⟩
  have hs : s.Alike s' := (agrees_enter hempty 0 inputs).related henter henter'
  exact ⟨hcmp, rfl, .some hs⟩

variable [FixedWidth τ]

theorem Anew.held_eq (h : p.Anew inputs q) : held q = nodeSize τ * inputs.length := by
  obtain ⟨lease, s, henter, rfl⟩ := h
  have hroom := result_of_settles (settles_enter _ 0 inputs) henter
  exact congrArg (nodeSize τ * ·) hroom.capacity_eq

theorem yields_prepare_anew (ref : Site) (p : Ordered τ) (inputs : List (Option τ))
    (hinputs : inputs ≠ []) :
    Yields ref ((prepare inputs : StrategyM (Ordered τ) Unit) p) fun out =>
      out.1 = .ok () ∧ p.Anew inputs out.2 := by
  unfold prepare
  rw [if_neg (show ¬inputs.isEmpty = true by simpa using hinputs)]
  apply (yields_discard p).run_bind
  · intro _ _ hdiscarded
    cases hdiscarded
    simp only [Work.run_bind, Work.run_get, Work.run_liftM, Work.run_modify, bind_assoc, pure_bind,
      Selection.new]
    refine (Yields.provide _).bind fun _ _ => (Yields.take _).bind fun lease _ => ?_
    have hempty : Holds p.cmp { capacity := inputs.length, lease : Selection τ } []
        inputs.length := ⟨Nat.le_refl _, List.Perm.refl _, fun _ i _ a b ha => by simp at ha⟩
    obtain ⟨s, henter, _⟩ := hempty.enter inputs 0 (by simp)
    rw [henter, pure_bind]
    exact Meets.pure ⟨rfl, lease, s, henter, rfl⟩
  · intro _ _ hdiscarded
    cases hdiscarded

theorem keeps_cmp_prepare (p : Ordered τ) (inputs : List (Option τ)) (site : Site) :
    ((prepare inputs : StrategyM (Ordered τ) Unit) p).Ensures site
      (fun out _ => out.2.cmp = p.cmp) fun _ _ => True := by
  by_cases hinputs : inputs = []
  · rw [hinputs]
    exact ensures_pure.mpr rfl
  · apply (yields_prepare_anew site p inputs hinputs site (Site.Like.refl site)).mono
    · intro out _ hout
      obtain ⟨⟨_, lease, s, _, hq⟩, _⟩ := hout
      rw [hq]
    · exact fun _ _ _ => trivial

omit [FixedWidth τ] in
theorem keeps_cmp_operate (p : Ordered τ) (inputs : List (Option τ)) (taken : Taken)
    (site : Site) : ((operate inputs taken : StrategyM (Ordered τ) (Step τ × Taken)) p).Ensures site
      (fun out _ => out.2.cmp = p.cmp) fun _ _ => True := by
  unfold operate
  simp only [Work.run_bind, Work.run_get, pure_bind]
  cases p.selection with
  | none => exact ensures_pure.mpr rfl
  | some s =>
    simp only [Work.run_bind, Work.run_liftM, bind_assoc, pure_bind]
    apply ensures_after
    intro s' site'
    cases s'.extract p.cmp with
    | mk node s'' =>
      cases node with
      | none =>
        simp only [Work.run_bind, Work.run_set, Work.run_liftM, bind_assoc, pure_bind]
        exact ensures_after fun _ _ => ensures_pure.mpr rfl
      | some node =>
        simp only [Work.run_bind, Work.run_set, Work.run_liftM, bind_assoc, pure_bind]
        exact ensures_after fun _ _ => ensures_pure.mpr rfl

omit [FixedWidth τ] in
theorem keeps_cmp_arrange (p : Ordered τ) (run : Array τ) (site : Site) :
    ((arrange run : StrategyM (Ordered τ) (Array τ)) p).Ensures site
      (fun out _ => out.2.cmp = p.cmp) fun _ _ => True := by
  unfold arrange
  simp only [Work.run_bind, Work.run_get, Work.run_set, Work.run_liftM, pure_bind]
  exact ensures_after fun _ _ => ensures_pure.mpr rfl

/-- Whatever becomes of a strategy, it compares records as it did when it was new. -/
theorem cmp_of_past {new : Ordered τ} {policy : BreachPolicy} {others : Nat} {site : Site}
    (h : Strategy.Past (fun _ : Unit => τ) new policy others p site) : p.cmp = new.cmp := by
  induction h with
  | created _ _ => rfl
  | prepared inputs _ hcall ih =>
    obtain ⟨_, hrun⟩ := hcall
    exact ((keeps_cmp_prepare _ inputs _).of_run hrun).trans ih
  | operated inputs taken _ hcall ih =>
    obtain ⟨_, hrun⟩ := hcall
    exact ((keeps_cmp_operate _ inputs taken _).of_run hrun).trans ih
  | arranged run _ hcall ih =>
    obtain ⟨_, hrun⟩ := hcall
    exact ((keeps_cmp_arrange _ run _).of_run hrun).trans ih
  | elsewhere _ _ _ ih => exact ih

/-- To prepare a strategy erases its past, if a new one compares records as it does. -/
theorem renews_of_accounted {new : Ordered τ} {policy : BreachPolicy} {others : Nat} {site : Site}
    (hcmp : new.cmp = p.cmp)
    (haccounted : policy ≠ .ignore → Strategy.Accounted others p site) :
    Strategy.Renews τ p new policy others site := by
  apply Strategy.renews Anew blind haccounted
  · rfl
  · exact yields_prepare_anew
  · intro inputs q q' hq hq'
    exact Strategy.answerAlike (fun _ _ hr => hr.agrees_operate) (hq.alike hq' hcmp)
  · exact fun inputs q hq => hq.held_eq

theorem renews_of_past {cmp : τ → τ → Ordering} {handleSize : Nat}
    {pivots : Nat → Sorting.PivotChoice} {policy : BreachPolicy} {others : Nat} {site : Site}
    (h : Strategy.Past (fun _ : Unit => τ) { cmp, handleSize, pivots } policy others p site) :
    Strategy.Renews τ p { cmp, handleSize, pivots } policy others site := by
  apply renews_of_accounted (cmp_of_past h).symm
  intro hpolicy
  exact h.accounted (fun _ => blind) Selection.covered_none rfl hpolicy

end Ordered

namespace Interleave

variable {γ τ : Type} {p q p' q' : Interleave γ} {inputs : List (Option τ)} [WordSource γ]

/-- The inputs with a pending record were entered into an empty selection, under words drawn from
where the source stood. -/
def Anew (p : Interleave γ) (inputs : List (Option τ)) (q : Interleave γ) : Prop :=
  ∃ lease s source,
    enterAll { capacity := inputs.length, lease } p.source 0 inputs = pure (s, source) ∧
      q = { source, selection := some s, arity := inputs.length, seen := s.size }

theorem Anew.alike (h : p.Anew inputs q) (h' : p'.Anew inputs q') (hsource : p'.source = p.source) :
    q.Alike q' := by
  obtain ⟨lease, s, source, henter, rfl⟩ := h
  obtain ⟨lease', s', source', henter', rfl⟩ := h'
  rw [hsource] at henter'
  have hempty : Selection.Alike { capacity := inputs.length, lease : Selection UInt32 }
      { capacity := inputs.length, lease := lease' } := ⟨rfl, rfl⟩
  obtain ⟨hs, hdrawn⟩ := (agrees_enterAll hempty p.source 0 inputs).related henter henter'
  exact ⟨hdrawn, rfl, rfl, congrArg Array.size hs.nodes_eq, rfl, .some hs⟩

theorem Anew.held_eq (h : p.Anew inputs q) : held q = nodeSize * inputs.length := by
  obtain ⟨lease, s, source, henter, rfl⟩ := h
  have hroom := result_of_settles (settles_enterAll _ p.source 0 inputs) henter
  exact congrArg (nodeSize * ·) hroom.capacity_eq

theorem yields_prepare_anew (ref : Site) (p : Interleave γ) (inputs : List (Option τ))
    (hinputs : inputs ≠ []) :
    Yields ref ((prepare inputs : StrategyM (Interleave γ) Unit) p) fun out =>
      out.1 = .ok () ∧ p.Anew inputs out.2 := by
  unfold prepare
  rw [if_neg (show ¬inputs.isEmpty = true by simpa using hinputs)]
  have hcounted : Yields ref ((modify fun q => { q with arity := inputs.length } :
      StrategyM (Interleave γ) PUnit) p) fun out =>
        out = (.ok ⟨⟩, { p with arity := inputs.length }) := Meets.pure rfl
  apply hcounted.run_bind
  · intro _ _ hcount
    cases hcount
    apply (yields_discard _).run_bind
    · intro _ _ hdiscarded
      cases hdiscarded
      simp only [Work.run_bind, Work.run_get, Work.run_liftM, Work.run_modify, bind_assoc,
        pure_bind, Selection.new]
      refine (Yields.provide _).bind fun _ _ => (Yields.take _).bind fun lease _ => ?_
      obtain ⟨nodes, source, henter, _⟩ :=
        enterAll_eq { capacity := inputs.length, lease : Selection UInt32 } p.source 0
          inputs.length inputs (by simp) (by simp) (by simp)
      rw [henter, pure_bind]
      exact Meets.pure ⟨rfl, lease, _, source, henter, rfl⟩
    · intro _ _ hdiscarded
      cases hdiscarded
  · intro _ _ hcount
    cases hcount

/-- To prepare a strategy erases its past, if a new one draws words from where it stands. -/
theorem renews_of_accounted {policy : BreachPolicy} {others : Nat} {site : Site}
    (haccounted : policy ≠ .ignore → Strategy.Accounted others p site) :
    Strategy.Renews τ p { source := p.source } policy others site := by
  apply Strategy.renews Anew blind haccounted
  · rfl
  · exact yields_prepare_anew
  · intro inputs q q' hq hq'
    exact Strategy.answerAlike (fun _ _ hr => hr.agrees_operate) (hq.alike hq' rfl)
  · exact fun inputs q hq => hq.held_eq

theorem renews_of_past {ι : Type} (record : ι → Type) {source : γ} {policy : BreachPolicy}
    {others : Nat} {site : Site} (h : Strategy.Past record { source } policy others p site) :
    Strategy.Renews τ p { source := p.source } policy others site := by
  apply renews_of_accounted
  intro hpolicy
  exact h.accounted (fun _ => blind) Selection.covered_none rfl hpolicy

end Interleave

/-- Whatever an ordered or an interleaving strategy was asked since it was new, to prepare it erases
that past: it goes on as the new strategy does, or as a new one that draws words from where this one
stands. -/
theorem Strategy.prepare_erases_past (policy : BreachPolicy) (others : Nat) (site : Site) :
    (∀ {τ : Type} [FixedWidth τ] (cmp : τ → τ → Ordering) (handleSize : Nat)
      (pivots : Nat → Sorting.PivotChoice) (p : Ordered τ),
      Past (fun _ : Unit => τ) ({ cmp, handleSize, pivots } : Ordered τ) policy others p site →
        Renews τ p { cmp, handleSize, pivots } policy others site) ∧
    ∀ {γ ι τ : Type} [WordSource γ] (record : ι → Type) (source : γ) (p : Interleave γ),
      Past record ({ source } : Interleave γ) policy others p site →
        Renews τ p { source := p.source } policy others site := by
  constructor
  · exact fun _ _ _ _ h => Ordered.renews_of_past h
  · exact fun record _ _ h => Interleave.renews_of_past record h

section Bytes

def oneByte : List (Option Byte) := [some 0x13#8]

def oneNode : Site :=
  { ledger := { (default : Ledger) with used := 16 }, memory := { asked := 1 } }

def byUpperHalf : Ordered Byte := { cmp := compareOn fun x : Byte => x.toNat / 16 }

/-- A merge that was broken off behind the byte, before it was seen that nothing is left. -/
def brokenOff : Ordered Byte :=
  { byUpperHalf with selection := some { capacity := 1, lease := ⟨16⟩ }, lastTaken := some 0 }

theorem Heap.push_empty {κ : Type} (before : κ → κ → Bool) (x : κ) :
    Heap.push before #[] x = #[x] := by
  simp [Heap.push, Heap.siftUp]

theorem past_brokenOff :
    Strategy.Past (fun _ : Unit => Byte) byUpperHalf .warn 0 brokenOff oneNode := by
  have hprepared : Strategy.Leaves (Strategy.prepare oneByte) byUpperHalf { ledger := default }
      { byUpperHalf with
        selection := some { capacity := 1, nodes := #[⟨0x13#8, 0⟩], lease := ⟨16⟩ } } oneNode := by
    refine ⟨.ok (), ?_⟩
    rw [← Heap.push_empty (Node.before byUpperHalf.cmp)]
    rfl
  have hcreated : Strategy.Past (fun _ : Unit => Byte) byUpperHalf .warn 0 byUpperHalf
      { ledger := default } := .created rfl rfl
  have hbegun := hcreated.prepared (i := ()) oneByte hprepared
  apply hbegun.operated (i := ()) oneByte (Taken.none 1)
  exact ⟨.ok (.emit 0x13#8, { arity := 1, indices := [0] }), rfl⟩

variable {γ : Type} [WordSource γ]

def brokenOffFrom (source : γ) : Interleave γ :=
  let nodes : Array (Node UInt32) := #[⟨(WordSource.next source).1, 0⟩]
  { source := (WordSource.next source).2, arity := 1, seen := nodes.size
    selection := some { capacity := 1, nodes, lease := ⟨16⟩ } }

theorem past_brokenOffFrom (source : γ) :
    Strategy.Past (fun _ : Unit => Byte) { source } .warn 0 (brokenOffFrom source) oneNode := by
  have hcreated : Strategy.Past (fun _ : Unit => Byte) ({ source } : Interleave γ) .warn 0
      { source } { ledger := default } := .created rfl rfl
  apply hcreated.prepared (i := ()) oneByte
  refine ⟨.ok (), ?_⟩
  rw [brokenOffFrom, ← Heap.push_empty (Node.before compare)]
  rfl

/-- Merges of one byte that were broken off leave nothing behind. -/
theorem Strategy.prepare_erases_past_bytes :
    Past (fun _ : Unit => Byte) byUpperHalf .warn 0 brokenOff oneNode ∧
      Renews Byte brokenOff byUpperHalf .warn 0 oneNode ∧
      Renews Byte (brokenOffFrom (KeyStream.ofSeed 7))
        { source := (brokenOffFrom (KeyStream.ofSeed 7)).source } .warn 0 oneNode := by
  obtain ⟨hordered, hinterleave⟩ := prepare_erases_past .warn 0 oneNode
  exact ⟨past_brokenOff, hordered _ _ _ _ past_brokenOff,
    hinterleave _ _ _ (past_brokenOffFrom (KeyStream.ofSeed 7))⟩

end Bytes

end BoundedMerge
