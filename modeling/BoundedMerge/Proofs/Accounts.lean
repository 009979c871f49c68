import BoundedMerge.Proofs.Layout.Lawful
import BoundedMerge.Proofs.Merge.FormationBalance
import Mathlib.Logic.Relation

/-!
The account of a whole program. A program has leases, tapes, batches, selections and strategies, and
does one deed after the other: it makes some of these, works on some of them, or drops them.
After every deed, whether it succeeded or failed, exactly that is in use which is charged
for the assets that the program has then, and when all of them are dropped nothing is.
-/

namespace BoundedMerge

open SiteM Holder

inductive Asset : Type 1
  | lease (l : Lease)
  | tape {τ : Type} [FixedWidth τ] (t : Tape τ)
  | batch {τ : Type} [FixedWidth τ] (b : Batch τ)
  /-- A selection with nodes of `nodeSize` bytes. -/
  | selection {κ : Type} (nodeSize : Nat) (s : Selection κ)
  /-- A strategy that merges records of type `τ`. -/
  | strategy (τ : Type) {π : Type} [Strategy π τ] [Holder π] [Strategy.Accountable π τ] (p : π)

namespace Asset

/-- Bytes that are charged for an asset: those of a lease, those of a block for a tape that caches
one, and those of all records or nodes that a batch or a selection has room for, also where the
selection is part of a strategy. -/
def worth : Asset → Nat
  | lease l => l.bytes
  | tape t => if t.block.isSome then t.blockSize else 0
  | @batch τ _ b => b.capacity * (FixedWidth.footprint τ).size
  | selection nodeSize s => nodeSize * s.capacity
  | strategy _ p => held p

instance : Holder Asset where
  held := worth
  Paid
    | lease _ => True
    | tape t => Paid t
    | batch b => Paid b
    | selection nodeSize s => s.lease.bytes = nodeSize * s.capacity
    | strategy _ p => Paid p

def ofMade {ε τ : Type} [FixedWidth τ] : Except ε (Tape τ) → List Asset
  | .ok t => [tape t]
  | .error _ => []

def ofBench {π τ : Type} [FixedWidth τ] [Strategy π τ] [Holder π] [Strategy.Accountable π τ]
    (b : Bench π τ) : List Asset :=
  tape b.output :: strategy τ b.strategy :: b.inputs.toList.map tape

def ofSource {π τ : Type} [FixedWidth τ] [Strategy π τ] [Holder π] [Strategy.Accountable π τ]
    (s : Source π τ) : List Asset :=
  [tape s.input, tape s.output, strategy τ s.strategy]

def ofTransfer {τ : Type} [FixedWidth τ] (t : Transfer τ) : List Asset :=
  [tape t.input, tape t.output]

end Asset

section Deed

open Asset

/-- What a program can do, with the assets that it takes and those that it leaves. What it leaves
depends on how the deed ends, and the program may choose its next deed by that. -/
inductive Deed : List Asset → {α : Type} → SiteM α → (α → List Asset) → Prop
  | setLimit (bytes : Nat) : Deed [] (Site.setLimit bytes) fun _ => []
  | takeLease (bytes : Nat) : Deed [] (Lease.take bytes) fun l => [lease l]
  | dropLease (l : Lease) : Deed [lease l] l.release fun _ => []
  | openTape {τ : Type} [FixedWidth τ] (path : String) (file : Except DiskError Disk)
      (blockSize : Nat) :
      Deed [] (Tape.openNamed path file blockSize : SiteM (Except TapeError (Tape τ))) ofMade
  | temporaryTape {τ : Type} [FixedWidth τ] (blockSize : Nat) :
      Deed [] (Tape.temporary blockSize : SiteM (Except TapeError (Tape τ))) ofMade
  | newTape {τ : Type} [FixedWidth τ] (m : Merger) : Deed [] (m.newTape τ) ofMade
  | askTape {τ : Type} [FixedWidth τ] (t : Tape τ) (call : TapeCall τ) :
      Deed [tape t] ((Tape.ask call : TapeM τ (Answer τ)) t) fun out => [tape out.2]
  | dropTape {τ : Type} [FixedWidth τ] (t : Tape τ) : Deed [tape t] t.close fun _ => []
  | newBatch {τ : Type} [FixedWidth τ] (capacity : Nat) :
      Deed [] (Batch.new capacity : SiteM (Batch τ)) fun b => [batch b]
  | pushBatch {τ : Type} [FixedWidth τ] (b : Batch τ) (x : τ) :
      Deed [batch b] (b.push x) fun b' => [batch b']
  /-- The records are cleared or changed in place. -/
  | editBatch {τ : Type} [FixedWidth τ] (b : Batch τ) (items : Array τ) :
      Deed [batch b] (pure { b with items }) fun b' => [batch b']
  | fillBatch {τ : Type} [FixedWidth τ] (b : Batch τ) (t : Tape τ) :
      Deed [batch b, tape t] ((b.fill : TapeM τ (Except TapeError Nat × Batch τ)) t) fun out =>
        [batch (match out.1 with
          | .ok (_, b') => b'
          | .error _ => b), tape out.2]
  | storeBatch {τ : Type} [FixedWidth τ] (b : Batch τ) (t : Tape τ) :
      Deed [batch b, tape t] ((b.store : TapeM τ Unit) t) fun out => [batch b, tape out.2]
  | dropBatch {τ : Type} [FixedWidth τ] (b : Batch τ) : Deed [batch b] b.close fun _ => []
  | newSelection {κ : Type} (capacity nodeSize : Nat) :
      Deed [] (Selection.new capacity nodeSize : SiteM (Selection κ)) fun s =>
        [selection nodeSize s]
  | insert {κ : Type} (nodeSize : Nat) (s : Selection κ) (cmp : κ → κ → Ordering) (key : κ)
      (source : Nat) :
      Deed [selection nodeSize s] (s.insert cmp key source) fun s' => [selection nodeSize s']
  | extract {κ : Type} (nodeSize : Nat) (s : Selection κ) (cmp : κ → κ → Ordering) :
      Deed [selection nodeSize s] (pure (s.extract cmp)) fun out => [selection nodeSize out.2]
  | dropSelection {κ : Type} (nodeSize : Nat) (s : Selection κ) :
      Deed [selection nodeSize s] s.close fun _ => []
  /-- A strategy is made without a selection. -/
  | newStrategy {π τ : Type} [Strategy π τ] [Holder π] [Strategy.Accountable π τ] (p : π)
      (hpaid : Paid p) (hheld : held p = 0) : Deed [] (pure p) fun p => [strategy τ p]
  | prepare {π τ : Type} [Strategy π τ] [Holder π] [Strategy.Accountable π τ] (p : π)
      (inputs : List (Option τ)) :
      Deed [strategy τ p] ((Strategy.prepare inputs : StrategyM π Unit) p) fun out =>
        [strategy τ out.2]
  | operate {π τ : Type} [Strategy π τ] [Holder π] [Strategy.Accountable π τ] (p : π)
      (inputs : List (Option τ)) (taken : Taken) :
      Deed [strategy τ p] ((Strategy.operate inputs taken : StrategyM π (Step τ × Taken)) p)
        fun out => [strategy τ out.2]
  | arrange {π τ : Type} [Strategy π τ] [Holder π] [Strategy.Accountable π τ] (p : π)
      (run : Array τ) :
      Deed [strategy τ p] ((Strategy.arrange run : StrategyM π (Array τ)) p) fun out =>
        [strategy τ out.2]
  | dropStrategy {π τ : Type} [Strategy π τ] [Holder π] [Strategy.Accountable π τ] (p : π) :
      Deed [strategy τ p] (Strategy.close τ p) fun _ => []
  | arity {π τ : Type} [FixedWidth τ] [Strategy π τ] [Holder π] [Strategy.Accountable π τ]
      (m : Merger) (p : π) (runs : Nat) :
      Deed [strategy τ p] (m.arity τ p runs) fun _ => [strategy τ p]
  | capacity {π τ : Type} [FixedWidth τ] [Strategy π τ] [Holder π] [Strategy.Accountable π τ]
      (m : Merger) (p : π) : Deed [strategy τ p] (m.capacity τ p) fun _ => [strategy τ p]
  | mergePass {π τ : Type} [FixedWidth τ] [Strategy π τ] [Holder π] [Strategy.Accountable π τ]
      (b : Bench π τ) :
      Deed (ofBench b) ((Bench.mergePass : BenchM π τ Stats) b) fun out => ofBench out.2
  /-- The merge takes the runs over. -/
  | merge {π τ : Type} [FixedWidth τ] [Strategy π τ] [Holder π] [Strategy.Accountable π τ]
      (m : Merger) (b : Bench π τ) :
      Deed (ofBench b) ((m.merge b.inputs.toList : MergeM π τ Stats) b.toTarget) fun out =>
        [tape out.2.output, strategy τ out.2.strategy]
  | process {π τ : Type} [FixedWidth τ] [Strategy π τ] [Holder π] [Strategy.Accountable π τ]
      (m : Merger) (s : Source π τ) :
      Deed (ofSource s) ((m.process : SourceM π τ Stats) s) fun out => ofSource out.2
  | sortBy {τ : Type} [FixedWidth τ] (m : Merger) (cmp : τ → τ → Ordering) (handleSize : Nat)
      (pivots : Nat → Sorting.PivotChoice) (t : Transfer τ) :
      Deed (ofTransfer t) (m.sortBy cmp handleSize pivots t) fun out => ofTransfer out.2
  | shuffle {γ τ : Type} [WordSource γ] [FixedWidth τ] (m : Merger) (source : γ)
      (t : Transfer τ) :
      Deed (ofTransfer t) (m.shuffle source t) fun out => ofTransfer out.2

end Deed

namespace Asset

variable {π τ : Type} [FixedWidth τ] [Strategy π τ] [Holder π] [Strategy.Accountable π τ]

theorem held_single (x : Asset) : held [x] = held x := Nat.add_zero _

theorem paid_single {x : Asset} : Paid [x] ↔ Paid x := List.forall_mem_singleton

theorem held_tapes (tapes : List (Tape τ)) : held (tapes.map tape) = held tapes := by
  simp only [held, List.map_map]
  rfl

theorem paid_tapes {tapes : List (Tape τ)} : Paid (tapes.map tape) ↔ Paid tapes :=
  List.forall_mem_map

theorem paid_ofBench (b : Bench π τ) : Paid (ofBench b) ↔ Paid b := by
  rw [ofBench, paid_cons, paid_cons, paid_tapes]
  change Paid b.output ∧ Paid b.strategy ∧ Paid b.inputs.toList ↔
    Paid b.inputs.toList ∧ Paid b.output ∧ Paid b.strategy
  tauto

theorem held_ofBench (b : Bench π τ) : held (ofBench b) = held b := by
  rw [ofBench, held_cons, held_cons, held_tapes]
  change held b.output + (held b.strategy + held b.inputs.toList) =
    held b.inputs.toList + (held b.output + held b.strategy)
  omega

theorem paid_ofSource (s : Source π τ) : Paid (ofSource s) ↔ Paid s := by
  rw [ofSource, paid_cons, paid_cons, paid_single]
  exact Iff.rfl

theorem held_ofSource (s : Source π τ) : held (ofSource s) = held s := by
  rw [ofSource, held_cons, held_cons, held_single]
  rfl

omit [Strategy π τ] [Holder π] [Strategy.Accountable π τ] in
theorem paid_ofTransfer (t : Transfer τ) : Paid (ofTransfer t) ↔ Paid t := by
  rw [ofTransfer, paid_cons, paid_single]
  exact Iff.rfl

theorem held_ofTransfer (t : Transfer τ) : held (ofTransfer t) = held t := by
  rw [ofTransfer, held_cons, held_single]
  rfl

theorem sum_ofTransfer (t : Transfer τ) :
    ((ofTransfer t).map worth).sum = (tape t.input).worth + (tape t.output).worth := rfl

theorem sameRoom_selection {κ : Type} {nodeSize : Nat} {s s' : Selection κ} (h : s.SameRoom s')
    (hpaid : Paid [selection nodeSize s]) :
    Paid [selection nodeSize s'] ∧
      held [selection nodeSize s'] = held [selection nodeSize s] := by
  have hlease : s.lease.bytes = nodeSize * s.capacity := paid_single.mp hpaid
  rw [← h.lease_eq, ← h.capacity_eq] at hlease
  refine ⟨paid_single.mpr hlease, ?_⟩
  rw [held_single, held_single]
  exact congrArg (nodeSize * ·) h.capacity_eq

end Asset

namespace Deed

open Asset

variable {α : Type} {operands : List Asset} {work : SiteM α} {left : α → List Asset}

/-- Tapes that were just made hold nothing. -/
theorem settles_made {ε τ : Type} [FixedWidth τ] {work : SiteM (Except ε (Tape τ))}
    (h : Settles 0 work (fun out => ∀ t, out = .ok t → t.block = none) fun _ => 0) :
    Settles 0 work (fun out => Paid (ofMade out)) fun out => held (ofMade out) := by
  refine h.mono fun out hout => ?_
  cases out with
  | error e => exact ⟨paid_nil, rfl⟩
  | ok t =>
    have hvacant := hout t rfl
    exact ⟨paid_single.mpr (Tape.paid_vacant hvacant), (held_single _).trans
      (Tape.held_vacant hvacant)⟩

/-- Work on something whose parts are assets. -/
theorem settles_balanced {ε σ β : Type} [Holder σ] (parts : σ → List Asset)
    (hheld : ∀ s, held (parts s) = held s) (hpaid : ∀ s, Paid (parts s) ↔ Paid s)
    {work : ExceptT ε (StateT σ SiteM) β} (h : Balances work) {s : σ} (hs : Paid (parts s)) :
    Settles (held (parts s)) (work s) (fun out => Paid (parts out.2)) fun out =>
      held (parts out.2) := by
  rw [hheld]
  exact (h.settles ((hpaid s).mp hs)).mono fun out hout => ⟨(hpaid _).mpr hout, hheld _⟩

/-- Every deed leaves the bytes in use for the assets that it leaves. -/
theorem settles (h : Deed operands work left) (hpaid : Paid operands) :
    Settles (held operands) work (fun a => Paid (left a)) fun a => held (left a) := by
  cases h with
  | setLimit bytes => exact (Settles.setLimit bytes).mono fun _ _ => ⟨paid_nil, rfl⟩
  | takeLease bytes =>
    refine (Settles.take bytes).mono fun l hl => ⟨paid_single.mpr trivial, ?_⟩
    exact (held_single _).trans hl
  | dropLease l => exact (Settles.release l).mono fun _ _ => ⟨paid_nil, rfl⟩
  | openTape path file blockSize => exact settles_made (Tape.settles_openNamed path file blockSize)
  | temporaryTape blockSize => exact settles_made (Tape.settles_temporary blockSize)
  | newTape m => exact settles_made m.settles_newTape
  | askTape t call =>
    exact settles_balanced (fun t => [tape t]) (fun _ => held_single _) (fun _ => paid_single)
      (Tape.balances_ask call) hpaid
  | dropTape t =>
    rw [held_single]
    exact (Tape.settles_close (paid_single.mp hpaid)).mono fun _ _ => ⟨paid_nil, rfl⟩
  | newBatch capacity =>
    exact (Batch.settles_new capacity).mono fun b hb => ⟨paid_single.mpr hb, held_single _⟩
  | pushBatch b x =>
    refine (Batch.settles_push (paid_single.mp hpaid) x).mono fun b' hb' => ?_
    rw [held_single, held_single]
    exact ⟨paid_single.mpr hb'.1, hb'.2⟩
  | editBatch b items =>
    have hedited : Paid { b with items } := (paid_single.mp hpaid : Paid b)
    exact Settles.pure (paid_single.mpr hedited) rfl
  | fillBatch b t =>
    obtain ⟨hb, ht⟩ := paid_cons.mp hpaid
    refine (Batch.trades_fill hb t (paid_single.mp ht)).adapt (held b) ?_ fun out hout => ?_
    · rw [held_cons, held_single, Nat.zero_add]
      rfl
    · obtain ⟨outcome, t'⟩ := out
      cases outcome with
      | error e =>
        refine ⟨paid_cons.mpr ⟨hb, paid_single.mpr hout.2⟩, ?_⟩
        rw [held_cons, held_single, Nat.zero_add]
        rfl
      | ok filled =>
        obtain ⟨⟨hb', heven⟩, ht'⟩ := hout
        refine ⟨paid_cons.mpr ⟨hb', paid_single.mpr ht'⟩, ?_⟩
        rw [held_cons, held_single, Nat.zero_add, ← heven]
        rfl
  | storeBatch b t =>
    obtain ⟨hb, ht⟩ := paid_cons.mp hpaid
    refine ((Batch.balances_store b).settles (paid_single.mp ht)).adapt (held b) ?_ ?_
    · rw [held_cons, held_single]
      rfl
    · intro out hout
      refine ⟨paid_cons.mpr ⟨hb, paid_single.mpr hout⟩, ?_⟩
      rw [held_cons, held_single]
      rfl
  | dropBatch b =>
    rw [held_single]
    exact (Batch.settles_close (paid_single.mp hpaid)).mono fun _ _ => ⟨paid_nil, rfl⟩
  | newSelection capacity nodeSize =>
    refine (Selection.settles_new capacity nodeSize).mono fun s hs => ?_
    rw [held_single, ← hs.1]
    exact ⟨paid_single.mpr (hs.2.trans (by rw [hs.1])), rfl⟩
  | insert nodeSize s cmp key source =>
    exact (Selection.settles_insert key source s).mono fun s' hs' => sameRoom_selection hs' hpaid
  | extract nodeSize s cmp =>
    obtain ⟨hpaid', hheld⟩ := sameRoom_selection (s.sameRoom_extract : s.SameRoom (s.extract cmp).2)
      hpaid
    exact Settles.pure hpaid' hheld.symm
  | dropSelection nodeSize s =>
    have hbytes : held (selection nodeSize s) = s.lease.bytes := (paid_single.mp hpaid).symm
    rw [held_single, hbytes]
    exact (Settles.release s.lease).mono fun _ _ => ⟨paid_nil, rfl⟩
  | newStrategy p hpaid' hheld =>
    refine Settles.pure (paid_single.mpr hpaid') ?_
    rw [held_single]
    exact hheld.symm
  | prepare p inputs =>
    exact settles_balanced (fun p => [strategy _ p]) (fun _ => held_single _)
      (fun _ => paid_single) (Strategy.Accountable.prepare inputs) hpaid
  | operate p inputs taken =>
    exact settles_balanced (fun p => [strategy _ p]) (fun _ => held_single _)
      (fun _ => paid_single) (Strategy.Accountable.operate inputs taken) hpaid
  | arrange p run =>
    exact settles_balanced (fun p => [strategy _ p]) (fun _ => held_single _)
      (fun _ => paid_single) (Strategy.Accountable.arrange run) hpaid
  | dropStrategy p =>
    rw [held_single]
    exact (Strategy.Accountable.close p (paid_single.mp hpaid)).mono fun _ _ => ⟨paid_nil, rfl⟩
  | arity m p runs => exact (m.settles_arity p runs).mono fun _ _ => ⟨hpaid, rfl⟩
  | capacity m p => exact (m.settles_capacity p).mono fun _ _ => ⟨hpaid, rfl⟩
  | mergePass b =>
    exact settles_balanced ofBench held_ofBench paid_ofBench Bench.balances_mergePass hpaid
  | merge m b =>
    obtain ⟨hruns, htarget⟩ := (paid_ofBench b).mp hpaid
    rw [held_ofBench]
    refine (m.trades_merge hruns b.toTarget htarget).mono fun out hout => ⟨?_, ?_⟩
    · exact paid_cons.mpr ⟨hout.2.1, paid_single.mpr hout.2.2⟩
    · rw [held_cons, held_single, Nat.zero_add]
      rfl
  | process m s =>
    exact settles_balanced ofSource held_ofSource paid_ofSource m.balances_process hpaid
  | sortBy m cmp handleSize pivots t =>
    exact settles_balanced ofTransfer held_ofTransfer paid_ofTransfer
      (m.balances_sortBy cmp handleSize pivots) hpaid
  | shuffle m source t =>
    exact settles_balanced ofTransfer held_ofTransfer paid_ofTransfer (m.balances_shuffle source)
      hpaid

end Deed

/-- The program does one deed, with some of its assets. The deed has come to an end, with whatever
outcome. -/
inductive Does : List Asset × Site → List Asset × Site → Prop
  | deed {assets operands others : List Asset} {α : Type} {work : SiteM α} {left : α → List Asset}
      {site last : Site} {a : α} (hdeed : Deed operands work left)
      (hperm : assets.Perm (operands ++ others))
      (hrun : (work site : Except Halt α × Site) = (.ok a, last)) :
      Does (assets, site) (left a ++ others, last)

/-- Exactly what is charged for the assets is in use. -/
def Exact (now : List Asset × Site) : Prop := Paid now.1 ∧ now.2.Books (held now.1)

section Exact

variable {assets operands others : List Asset} {α : Type} {work : SiteM α}
  {left : α → List Asset} {site : Site} {now later : List Asset × Site}

/-- Whatever a program does with an exact account, and however it ends, leaves an exact account. -/
theorem Exact.ensures (h : Exact (assets, site)) (hdeed : Deed operands work left)
    (hperm : assets.Perm (operands ++ others)) :
    work.Ensures site (fun a last => Exact (left a ++ others, last)) fun _ last => last.Clean := by
  obtain ⟨hpaid, hbooks⟩ := h
  have hpaid' : Paid (operands ++ others) := fun x hx => hpaid x (hperm.mem_iff.mpr hx)
  obtain ⟨hoperands, hothers⟩ := paid_append.mp hpaid'
  have heven : held assets = held others + held operands := by
    have hsum : held assets = held (operands ++ others) := (hperm.map held).sum_nat
    rw [hsum, held_append, Nat.add_comm]
  simp only [heven] at hbooks
  refine (hdeed.settles hoperands (held others) site hbooks).mono ?_ fun _ _ hhalt => hhalt
  intro a last ha
  refine ⟨paid_append.mpr ⟨ha.1, hothers⟩, ?_⟩
  simp only [held_append, Nat.add_comm (held (left a))]
  exact ha.2

theorem Does.exact (h : Does now later) (hnow : Exact now) : Exact later := by
  cases h with
  | deed hdeed hperm hrun => exact (hnow.ensures hdeed hperm).of_run hrun

theorem exact_of_run (hrun : Relation.ReflTransGen Does now later) (hnow : Exact now) :
    Exact later := by
  induction hrun with
  | refl => exact hnow
  | tail _ hdoes ih => exact hdoes.exact ih

end Exact

/-- Every asset can be dropped. -/
theorem exists_drop (x : Asset) (others : List Asset) (site : Site) :
    ∃ last, Does (x :: others, site) (others, last) := by
  have hdrop {α : Type} {work : SiteM α} (hdeed : Deed [x] work fun _ => [])
      (hreturns : Returns work) : ∃ last, Does (x :: others, site) (others, last) := by
    obtain ⟨a, last, hrun⟩ := hreturns.exists_run site
    exact ⟨last, Does.deed hdeed (List.Perm.refl _) hrun⟩
  cases x with
  | lease l => exact hdrop (Deed.dropLease l) (Returns.release l)
  | tape t => exact hdrop (Deed.dropTape t) t.returns_close
  | batch b => exact hdrop (Deed.dropBatch b) (Returns.release b.lease)
  | selection nodeSize s => exact hdrop (Deed.dropSelection nodeSize s) (Returns.release s.lease)
  | strategy τ p => exact hdrop (Deed.dropStrategy p) (Strategy.Accountable.returns_close p)

theorem exists_dropAll (assets : List Asset) (site : Site) :
    ∃ last, Relation.ReflTransGen Does (assets, site) ([], last) := by
  induction assets generalizing site with
  | nil => exact ⟨site, .refl⟩
  | cons x others ih =>
    obtain ⟨middle, hdoes⟩ := exists_drop x others site
    obtain ⟨last, hrest⟩ := ih middle
    exact ⟨last, .head hdoes hrest⟩

/-- The account of a program that starts with nothing, at a site with any limit. After each of
its deeds, whether it succeeded or failed, exactly that is in use which is charged for the assets
that the program has, and nothing was ever given back that was not in use; also where a deed
breaks the program off. To sort or shuffle leaves nothing behind but what the two tapes hold, and
a program that drops all its assets, as it can at any time, leaves nothing in use. -/
theorem account_exact {start : Site} (hkept : start.ledger.policy ≠ .ignore)
    (hunused : start.ledger.used = 0) (hclean : start.Clean) {assets : List Asset} {site : Site}
    (hrun : Relation.ReflTransGen Does ([], start) (assets, site)) :
    (site.ledger.used = (assets.map Asset.worth).sum ∧ site.Clean) ∧
    (∀ {operands others : List Asset} {α : Type} {work : SiteM α} {left : α → List Asset},
      Deed operands work left → assets.Perm (operands ++ others) →
        work.Ensures site
          (fun a last => last.ledger.used = ((left a).map Asset.worth).sum +
            (others.map Asset.worth).sum ∧ last.Clean)
          fun _ last => last.Clean) ∧
    (∀ {τ : Type} [FixedWidth τ] (t : Transfer τ) (others : List Asset),
      assets.Perm (Asset.tape t.input :: Asset.tape t.output :: others) →
        ∀ m : Merger,
          (∀ cmp handleSize pivots, (m.sortBy cmp handleSize pivots t).Ensures site
            (fun out last => last.ledger.used = (Asset.tape out.2.input).worth +
              (Asset.tape out.2.output).worth + (others.map Asset.worth).sum)
            fun _ last => last.Clean) ∧
          ∀ {γ : Type} [WordSource γ] (source : γ), (m.shuffle source t).Ensures site
            (fun out last => last.ledger.used = (Asset.tape out.2.input).worth +
              (Asset.tape out.2.output).worth + (others.map Asset.worth).sum)
            fun _ last => last.Clean) ∧
    (∃ last, Relation.ReflTransGen Does (assets, site) ([], last)) ∧
    ∀ last, Relation.ReflTransGen Does (assets, site) ([], last) → last.ledger.used = 0 := by
  have hstart : Exact ([], start) := ⟨paid_nil, hkept, hunused, hclean⟩
  have hexact : Exact (assets, site) := exact_of_run hrun hstart
  have hnext : ∀ {operands others : List Asset} {α : Type} {work : SiteM α}
      {left : α → List Asset}, Deed operands work left → assets.Perm (operands ++ others) →
        work.Ensures site
          (fun a last => last.ledger.used = ((left a).map Asset.worth).sum +
            (others.map Asset.worth).sum ∧ last.Clean)
          fun _ last => last.Clean := by
    intro operands others α work left hdeed hperm
    refine (hexact.ensures hdeed hperm).mono (fun a last hlast => ?_) fun _ _ hhalt => hhalt
    exact ⟨hlast.2.used_eq.trans (held_append _ _), hlast.2.clean⟩
  refine ⟨⟨hexact.2.used_eq, hexact.2.clean⟩, hnext, ?_, exists_dropAll assets site, ?_⟩
  · intro τ _ t others hperm m
    constructor
    · intro cmp handleSize pivots
      refine (hnext (Deed.sortBy m cmp handleSize pivots t) hperm).mono (fun out last hlast => ?_)
        fun _ _ hhalt => hhalt
      rw [hlast.1, Asset.sum_ofTransfer]
    · intro γ _ source
      refine (hnext (Deed.shuffle m source t) hperm).mono (fun out last hlast => ?_)
        fun _ _ hhalt => hhalt
      rw [hlast.1, Asset.sum_ofTransfer]
  · intro last hdropped
    exact (exact_of_run hdropped hexact).2.used_eq

/-- A lease over the limit, a file that is missing, and a batch of three words. -/
theorem account_exact_breached :
    ∃ site, Relation.ReflTransGen Does ([], { ledger := { limit := 64, policy := .warn } })
        ([.batch ({ capacity := 3, lease := ⟨24⟩ } : Batch Word), .lease ⟨100⟩], site) ∧
      site.ledger.used = 124 ∧
      site.journal = #[.breach (.limitExceeded 100 100 64),
        .breach (.limitExceeded 24 124 64)] := by
  have hleased : Does ([], { ledger := { limit := 64, policy := .warn } }) ([.lease ⟨100⟩],
      { ledger := { limit := 64, policy := .warn, used := 100 }
        journal := #[.breach (.limitExceeded 100 100 64)] }) :=
    .deed (.takeLease 100) (List.Perm.refl _) rfl
  have hmissing : Does ([.lease ⟨100⟩],
      { ledger := { limit := 64, policy := .warn, used := 100 }
        journal := #[.breach (.limitExceeded 100 100 64)] }) ([.lease ⟨100⟩],
      { ledger := { limit := 64, policy := .warn, used := 100 }
        journal := #[.breach (.limitExceeded 100 100 64)] }) :=
    .deed (@Deed.openTape Word _ "file" (.error .noSuchFile) 8) (List.Perm.refl _) rfl
  have hbatch : Does ([.lease ⟨100⟩],
      { ledger := { limit := 64, policy := .warn, used := 100 }
        journal := #[.breach (.limitExceeded 100 100 64)] })
      ([.batch ({ capacity := 3, lease := ⟨24⟩ } : Batch Word), .lease ⟨100⟩],
      { ledger := { limit := 64, policy := .warn, used := 124 }, memory := { asked := 1 }
        journal := #[.breach (.limitExceeded 100 100 64),
          .breach (.limitExceeded 24 124 64)] }) :=
    .deed (.newBatch 3) (List.Perm.refl _) rfl
  have hrun := ((Relation.ReflTransGen.refl.tail hleased).tail hmissing).tail hbatch
  have haccount := account_exact (by decide) rfl (by intro e he; contradiction) hrun
  exact ⟨_, hrun, haccount.1.1, rfl⟩

end BoundedMerge
