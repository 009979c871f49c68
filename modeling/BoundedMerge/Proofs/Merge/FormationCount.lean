import BoundedMerge.Layout.Order
import BoundedMerge.Merge.Formation
import BoundedMerge.Proofs.Layout.Lawful
import BoundedMerge.Proofs.Merge.MergeCount
import BoundedMerge.Proofs.Sorting.Quick

/-!
What a run formation counts. An input that fits in main memory is one run and no pass. Any other
is cut into as many runs as it takes, each as large as the capacity but the last one, and these are
merged.
-/

namespace BoundedMerge

open Work

variable {α π τ : Type} {stall : Prop}

def Strategy.KeepsSize (π τ : Type) [Strategy π τ] (stall : Prop) : Prop :=
  ∀ (p : π) (run : Array τ), Quiet stall (Strategy.arrange run : StrategyM π (Array τ)) p
    fun out _ => out.size = run.size

/-- Whatever the order is: a sort that comes to a result only moves records. -/
theorem Ordered.keepsSize [FixedWidth τ] : Strategy.KeepsSize (Ordered τ) τ stall := by
  intro p run
  change Quiet stall (Ordered.arrange run) p _
  unfold Ordered.arrange
  rw [Quiet.get, Quiet.set]
  apply Quiet.lift_last (SiteM.Quiet.demand _)
  intro out hout
  exact (Sorting.sortBy_perm hout).size_eq

/-- A draw may go on and on. -/
theorem Interleave.keepsSize {γ : Type} [WordSource γ] :
    Strategy.KeepsSize (Interleave γ) τ True := by
  intro p run
  change Quiet True (Interleave.arrange run) p _
  unfold Interleave.arrange
  rw [Quiet.get]
  rcases Draw.shuffle_perm run p.source with ⟨out, later, hshuffle, hperm, -⟩ | ⟨hnone, -⟩
  · rw [hshuffle]
    exact Quiet.set.mpr (Quiet.pure hperm.size_eq)
  · rw [hnone]
    exact Quiet.halt fun _ => trivial

namespace Batch

/-- As many records come into the batch as are read from the tape. -/
theorem quiet_pull [FixedWidth τ] (count : Nat) (batch : Batch τ) (t : Tape τ) :
    Quiet stall (batch.pull count : TapeM τ (Except TapeError Unit × Batch τ)) t fun out t' =>
      out.1 = .ok () → out.2.items.size = batch.items.size + count ∧ t'.left + count = t.left := by
  induction count generalizing batch t with
  | zero => exact Quiet.pure fun _ => ⟨rfl, rfl⟩
  | succ count ih =>
    unfold pull
    have hobserved : Quiet stall (pull.observing Tape.read : TapeM τ (Except TapeError τ)) t
        fun out t' => ∀ x, out = .ok x → t'.left + 1 = t.left := by
      unfold pull.observing
      rw [map_eq_pure_bind]
      apply Quiet.tryCatch
      · apply (Tape.quiet_read t).bind
        intro x t' hread
        obtain ⟨hlt, hsize, hoffset⟩ := hread
        refine Quiet.pure fun _ _ => ?_
        rw [Tape.left, Tape.left, hsize, hoffset]
        omega
      · intro e t'
        exact Quiet.pure (by simp)
    apply hobserved.bind
    intro out t₁ hout
    cases out with
    | error e => exact Quiet.pure (by simp)
    | ok x =>
      have hpush : SiteM.Quiet stall (batch.push x) fun batch' =>
          batch'.items.size = batch.items.size + 1 := by
        unfold push
        apply (SiteM.Quiet.assert _ _).bind
        intro _ _
        exact SiteM.Quiet.pure (Array.size_push x)
      apply Quiet.lift hpush
      intro batch' hsize
      apply (ih batch' t₁).mono
      intro out t' hrest hok
      obtain ⟨hitems, hleft⟩ := hrest hok
      have hone := hout x rfl
      exact ⟨by omega, by omega⟩

theorem quiet_new [FixedWidth τ] (capacity : Nat) :
    SiteM.Quiet stall (new capacity : SiteM (Batch τ)) fun batch =>
      batch.capacity = capacity ∧ batch.items = #[] := by
  unfold new
  apply (SiteM.Quiet.count _).bind
  intro _ _
  apply (SiteM.Quiet.take _).bind
  intro lease _
  apply (SiteM.Quiet.provide _).bind
  intro _ _
  exact SiteM.Quiet.pure ⟨rfl, rfl⟩

end Batch

namespace Source

variable {s : Source π τ}

theorem quiet_onTarget {work : MergeM π τ α} {Q : α → Target π τ → Prop}
    (h : Quiet stall work s.toTarget Q) :
    Quiet stall (onTarget work : SourceM π τ α) s fun a s' =>
      s'.input = s.input ∧ Q a s'.toTarget := by
  unfold onTarget
  rw [Quiet.get]
  apply Quiet.lift_run h
  · intro a target hout
    exact Quiet.modify.mpr (Quiet.pure ⟨rfl, hout⟩)
  · intro e target
    exact Quiet.modify.mpr Quiet.throw

theorem quiet_onInput {work : TapeM τ α} {Q : α → Tape τ → Prop}
    (h : Quiet stall work s.input Q) :
    Quiet stall (onInput work : SourceM π τ α) s fun a s' => Q a s'.input := by
  unfold onInput
  rw [Quiet.get]
  apply Quiet.lift_run h
  · intro a input hout
    exact Quiet.modify.mpr (Quiet.pure hout)
  · intro e input
    exact Quiet.modify.mpr Quiet.throw

theorem reports_onTarget {work : MergeM π τ α} {Q : α → Target π τ → List Event → Prop}
    {H : List Event → Prop} (h : Reports stall work s.toTarget Q H) :
    Reports stall (onTarget work : SourceM π τ α) s (fun a s' news => Q a s'.toTarget news) H := by
  unfold onTarget
  rw [Reports.get]
  apply Reports.lift_quiet h
  · intro out news hout
    exact hout.1
  · intro out news hout
    obtain ⟨outcome, target⟩ := out
    rw [Quiet.modify]
    cases outcome with
    | ok a => exact Quiet.pure (hout.2 a rfl)
    | error e => exact Quiet.throw

variable [FixedWidth τ] [Strategy π τ]

/-- The next batch: as much as there is room for, or all that is left. -/
theorem quiet_arrange (hsize : Strategy.KeepsSize π τ stall) (batch : Batch τ) (s : Source π τ) :
    Quiet stall (arrange batch : SourceM π τ (Batch τ)) s fun batch' s' =>
      batch'.items.size = min batch.capacity s.input.left ∧
        s'.input.left + min batch.capacity s.input.left = s.input.left := by
  have hfill : Quiet stall (fill batch.clear : SourceM π τ (Batch τ)) s fun batch' s' =>
      batch'.items.size = min batch.capacity s.input.left ∧
        s'.input.left + min batch.capacity s.input.left = s.input.left := by
    unfold fill
    apply (quiet_onInput (Q := fun out t' => out.1.isOk = true →
      out.2.items.size = min batch.capacity s.input.left ∧
        t'.left + min batch.capacity s.input.left = s.input.left) ?_).bind
    · intro out s' hout
      obtain ⟨outcome, batch'⟩ := out
      cases outcome with
      | ok _ => exact Quiet.pure (hout rfl)
      | error e => exact Quiet.throw
    · unfold Batch.fill
      rw [Quiet.get]
      apply (Batch.quiet_pull _ batch.clear s.input).bind
      intro out t' hout
      obtain ⟨outcome, batch'⟩ := out
      refine Quiet.pure fun hok => ?_
      cases outcome with
      | ok _ =>
        obtain ⟨hitems, hleft⟩ := hout rfl
        simp only [Batch.clear, Array.size_empty, Nat.zero_add, Nat.sub_zero] at hitems hleft
        exact ⟨hitems, hleft⟩
      | error e => contradiction
  unfold arrange
  apply hfill.bind
  intro batch' s₁ hfilled
  apply (quiet_onTarget (Target.quiet_onStrategy (hsize _ batch'.items))).bind
  intro items s₂ harranged
  obtain ⟨hinput, _, -, hitems⟩ := harranged
  refine Quiet.pure ⟨hitems.trans hfilled.1, ?_⟩
  rw [hinput]
  exact hfilled.2

end Source

/-- What a run formation of `records` records counts and reports, with room for `capacity` of them
at once. -/
structure Stats.Forms (stats : Stats) (capacity records : Nat) (events : List Event) : Prop where
  few : records ≤ capacity → events = [.inMemory records] ∧
    stats = { passes := 0, runs := 1, consumed := records, produced := records }
  many : capacity < records → 2 ≤ stats.runs ∧
    ∃ merged, events = .distributing records capacity :: .runsFormed stats.runs :: merged ∧
      stats.Counts ((records + capacity - 1) / capacity) records merged

namespace Merger

variable [FixedWidth τ]

/-- A parked run holds the records of its batch. -/
theorem quiet_park (m : Merger) (batch : Batch τ) :
    SiteM.Quiet stall (m.park batch) fun out => ∀ t, out = .ok t → t.left = batch.items.size := by
  unfold park
  apply m.quiet_newTape.bind
  intro made hmade
  cases made with
  | error e => exact SiteM.Quiet.pure (by simp)
  | ok tape =>
    obtain ⟨hsize, hoffset⟩ := hmade tape rfl
    have hstore : Quiet stall (do batch.store; Tape.seek 0; Tape.releaseBlock : TapeM τ Unit) tape
        fun _ t => t.left = batch.items.size := by
      unfold Batch.store
      apply (Tape.quiet_writeArray _ tape).bind
      intro _ t₁ hgrows
      have hend := hgrows.2 (hsize.trans hoffset.symm)
      rw [hgrows.1, hoffset, Nat.zero_add, Array.length_toList] at hend
      apply (Tape.quiet_seek 0 t₁).bind
      intro _ t₂ hseek
      apply (Tape.quiet_releaseBlock t₂).mono
      intro _ t₃ hstays
      rw [hstays.left_eq, Tape.left, hseek.1, hseek.2, hend, Nat.sub_zero]
    apply hstore.bind_run
    intro outcome tape' hout
    cases outcome with
    | ok _ =>
      apply SiteM.Quiet.pure
      intro t ht
      cases ht
      exact hout () rfl
    | error e => exact (Tape.quiet_close tape').bind fun _ _ => SiteM.Quiet.pure (by simp)

variable [Strategy π τ]

/-- What is left of an input is cut into as many runs as it takes. -/
theorem quiet_formWithin (hsize : Strategy.KeepsSize π τ stall) (m : Merger) (batch : Batch τ)
    (hcapacity : 1 ≤ batch.capacity) (runs : List (Tape τ)) (count : Nat) (s : Source π τ)
    (hcount : s.input.left ≤ count) :
    Quiet stall (m.formWithin batch runs count :
      SourceM π τ (Except MergeError Unit × List (Tape τ))) s fun out _ => out.1 = .ok () →
        out.2.length = runs.length + (s.input.left + batch.capacity - 1) / batch.capacity ∧
        Tape.leftAll out.2 = Tape.leftAll runs + s.input.left := by
  have hnone (runs : List (Tape τ)) (s : Source π τ) (h : s.input.left = 0) :
      runs.length = runs.length + (s.input.left + batch.capacity - 1) / batch.capacity ∧
        Tape.leftAll runs = Tape.leftAll runs + s.input.left := by
    rw [h, Nat.div_eq_of_lt (by omega)]
    exact ⟨rfl, rfl⟩
  induction count generalizing runs s with
  | zero => exact Quiet.pure fun _ => hnone runs s (by omega)
  | succ count ih =>
    unfold formWithin
    rw [Quiet.get]
    split
    · next hend =>
      refine Quiet.pure fun _ => hnone runs s ?_
      simp only [Tape.canRead, Bool.not_eq_true', decide_eq_false_iff_not] at hend
      rw [Tape.left]
      omega
    · next hmore =>
      have hleft : 1 ≤ s.input.left := by
        simp only [Tape.canRead, Bool.not_eq_true', decide_eq_false_iff_not, not_not] at hmore
        rw [Tape.left]
        omega
      have hformed : Quiet stall (formWithin.formed m batch :
          SourceM π τ (Except MergeError (Tape τ))) s fun out s' => ∀ run, out = .ok run →
            run.left = min batch.capacity s.input.left ∧
              s'.input.left + min batch.capacity s.input.left = s.input.left := by
        unfold formWithin.formed
        apply Quiet.tryCatch
        · apply (Source.quiet_arrange hsize batch s).bind
          intro batch' s' harranged
          apply Quiet.lift_last (m.quiet_park batch')
          intro out hout run hrun
          exact ⟨(hout run hrun).trans harranged.1, harranged.2⟩
        · intro e s'
          exact Quiet.pure (by simp)
      apply hformed.bind
      intro out s' hout
      cases out with
      | error e => exact Quiet.pure (by simp)
      | ok run =>
        obtain ⟨hrun, hrest⟩ := hout run rfl
        have hone : Tape.leftAll [run] = run.left := Nat.add_zero _
        apply (ih (runs ++ [run]) s' (by omega)).mono
        intro out s'' hdone hok
        obtain ⟨hlength, hall⟩ := hdone hok
        rw [List.length_append, List.length_singleton] at hlength
        rw [Tape.leftAll_append, hone] at hall
        rw [groups_rest hcapacity hleft hrest]
        exact ⟨by omega, by omega⟩

/-- The whole input is distributed, over as many runs as it takes. -/
theorem quiet_distribute (hsize : Strategy.KeepsSize π τ stall) (m : Merger) (capacity : Nat)
    (hcapacity : 1 ≤ capacity) (s : Source π τ) :
    Quiet stall (m.distribute capacity : SourceM π τ (List (Tape τ))) s fun runs _ =>
      runs.length = (s.input.left + capacity - 1) / capacity ∧
        Tape.leftAll runs = s.input.left := by
  unfold distribute
  apply Quiet.lift (Batch.quiet_new capacity)
  intro batch hbatch
  obtain ⟨hroom, -⟩ := hbatch
  rw [Quiet.get]
  have hleft : s.input.left ≤ s.input.size := Nat.sub_le _ _
  apply (quiet_formWithin hsize m batch (by omega) [] s.input.size s hleft).bind
  intro out s' hout
  obtain ⟨outcome, runs⟩ := out
  apply Quiet.lift (SiteM.Quiet.release batch.lease)
  intro _ _
  cases outcome with
  | error e => exact Quiet.after_throw (quiet_closeAll runs)
  | ok _ =>
    obtain ⟨hlength, hall⟩ := hout rfl
    rw [List.length_nil, Nat.zero_add, hroom] at hlength
    rw [show Tape.leftAll ([] : List (Tape τ)) = 0 from rfl, Nat.zero_add] at hall
    apply (Quiet.rethrow (Source.quiet_onInput (Tape.quiet_releaseBlock s'.input)) ?_).bind
    · intro _ _ _
      exact Quiet.pure ⟨hlength, hall⟩
    · intro e s''
      exact Quiet.after_throw (quiet_closeAll runs)

/-- An input that is arranged in main memory is one run and no pass. -/
theorem quiet_arrangeAll (hsize : Strategy.KeepsSize π τ stall) (records : Nat)
    (s : Source π τ) :
    Quiet stall (arrangeAll records : SourceM π τ Stats) s fun stats _ =>
      stats = { passes := 0, runs := 1, consumed := records, produced := records } := by
  have hwork (batch : Batch τ) : Quiet stall (do
      let batch ← Source.arrange batch
      Source.onTarget (Target.onOutput do batch.store; Tape.flush) : SourceM π τ Unit) s
        fun _ _ => True := by
    apply (Source.quiet_arrange hsize batch s).bind
    intro batch' s' _
    have hstore : Quiet stall (do batch'.store; Tape.flush : TapeM τ Unit) s'.output
        fun _ _ => True := by
      apply (Tape.quiet_writeArray _ _).bind
      intro _ t _
      exact (Tape.quiet_flush t).mono fun _ _ _ => trivial
    exact (Source.quiet_onTarget (Target.quiet_onOutput hstore)).mono fun _ _ _ => trivial
  unfold arrangeAll withBatch
  apply Quiet.bind (Q := fun _ _ => True)
  · apply Quiet.lift (Batch.quiet_new records)
    intro batch _
    apply (Quiet.rethrow (hwork batch) fun e s' =>
      Quiet.after_throw (SiteM.Quiet.release batch.lease)).bind
    intro _ s' _
    apply Quiet.lift (SiteM.Quiet.release batch.lease)
    intro _ _
    exact Quiet.pure trivial
  · intro _ _ _
    exact Quiet.pure rfl

/-- The capacity is planned for what is available. -/
theorem ensures_capacity (m : Merger) (p : π) (site : Site) :
    (m.capacity τ p).Ensures site (fun out after => after = site ∧
      out = Plan.capacity site.ledger.available (m.formationSpace τ p)
        (max 1 (FixedWidth.footprint τ).size)) fun halt _ => halt ≠ .stalled := by
  have hcount {β : Type} (bytes : Nat) {next : Unit → SiteM β} {Q : β → Site → Prop}
      (h : (next ⟨⟩).Ensures site Q fun halt _ => halt ≠ .stalled) :
      (Site.count bytes >>= next).Ensures site Q fun halt _ => halt ≠ .stalled := by
    rw [SiteM.ensures_bind]
    apply (Site.ensures_count bytes).mono
    · intro _ _ hsame
      rwa [hsame]
    · intro halt _ hh
      rw [hh.1]
      exact nofun
  unfold capacity orCount Tape.measure
  split
  · exact SiteM.ensures_bind.mpr (SiteM.ensures_halt.mpr nofun)
  · simp only [bind_assoc, pure_bind]
    apply hcount
    apply hcount
    rw [SiteM.ensures_bind, SiteM.ensures_get]
    split
    · next hplan =>
      apply hcount
      exact SiteM.ensures_pure.mpr ⟨rfl, rfl⟩
    · exact SiteM.ensures_pure.mpr ⟨rfl, rfl⟩

/-- An input that fits in main memory. -/
theorem reports_arrangeAll (hsize : Strategy.KeepsSize π τ stall) {records capacity : Nat}
    (hfew : records ≤ capacity) (s : Source π τ) :
    Reports stall (do Site.report (.inMemory records); arrangeAll records : SourceM π τ Stats) s
      (fun stats _ events => stats.Forms capacity records events) fun _ => True := by
  apply Reports.report_bind rfl
  apply Reports.of_quiet (quiet_arrangeAll hsize records s)
  · intro stats _ hstats
    exact ⟨fun _ => ⟨rfl, hstats⟩, fun hmany => absurd hmany (Nat.not_lt.mpr hfew)⟩
  · trivial

/-- An input that does not fit: of what is left of it, all is merged. -/
theorem reports_distribute {Ready : Nat → π → List (Option τ) → Prop}
    (hstrategy : Strategy.Diligent stall Ready) (hsize : Strategy.KeepsSize π τ stall) (m : Merger)
    {capacity : Nat} (hcapacity : 1 ≤ capacity) (s : Source π τ)
    (hmany : capacity < s.input.left) :
    Reports stall (do
        Site.report (.distributing s.input.left capacity)
        let runs ← m.distribute capacity
        Site.report (.runsFormed runs.length)
        Source.onTarget (m.merge runs) : SourceM π τ Stats) s
      (fun stats _ events => stats.Forms capacity s.input.left events) fun _ => True := by
  apply Reports.report_bind rfl
  apply Reports.quiet_bind (m.quiet_distribute hsize capacity hcapacity s) trivial
  intro runs s' hruns
  obtain ⟨hlength, hleft⟩ := hruns
  apply Reports.report_bind rfl
  apply (Source.reports_onTarget (m.reports_merge hstrategy runs s'.toTarget)).mono
  · intro stats _ merged hcounts
    rw [hlength, hleft] at hcounts
    refine ⟨fun hfew => absurd hmany (Nat.not_lt.mpr hfew), fun _ => ⟨?_, merged, ?_, hcounts⟩⟩
    · rw [hcounts.runs_eq, Nat.le_div_iff_mul_le hcapacity]
      omega
    · rw [hcounts.runs_eq, hlength]
  · intro _ _
    trivial

/-- At the site the merge comes to an end. It reports the passes of so many runs as far as it gets,
and if it does not fail it counts the runs, the passes and the records. -/
def CountsMerge (m : Merger) (runs : List (Tape τ)) (t : Target π τ) (site : Site) : Prop :=
  ((m.merge runs : MergeM π τ Stats) t).Ensures site
    (fun out after => ∃ events, after.plans = site.plans ++ events ∧
      (∃ rest, Passes 1 runs.length (events ++ rest)) ∧
      ∀ stats, out.1 = .ok stats → stats.Counts runs.length (Tape.leftAll runs) events)
    fun halt after => halt ≠ .stalled ∧
      ∃ events rest, after.plans = site.plans ++ events ∧ Passes 1 runs.length (events ++ rest)

/-- At the site the run formation counts the runs and the records if it does not fail, with room
for `capacity` records at once. It is stalled in the case `stall` only. -/
def CountsFormation (stall : Prop) (m : Merger) (capacity : Nat) (s : Source π τ) (site : Site) :
    Prop :=
  ((m.process : SourceM π τ Stats) s).Ensures site
    (fun out after => ∃ events, after.plans = site.plans ++ events ∧
      ∀ stats, out.1 = .ok stats → stats.Forms capacity s.input.size events)
    fun halt _ => halt = .stalled → stall

variable {Ready : Nat → π → List (Option τ) → Prop}

theorem countsMerge (hstrategy : Strategy.Diligent False Ready) (m : Merger)
    (runs : List (Tape τ)) (t : Target π τ) (site : Site) : m.CountsMerge runs t site := by
  apply (m.reports_merge hstrategy runs t site).mono
  · intro out after hout
    obtain ⟨events, hevents, hcourse, hstats⟩ := hout
    exact ⟨events, hevents, hcourse, hstats⟩
  · intro halt after hh
    obtain ⟨⟨events, hevents, rest, hcourse⟩, hstalled⟩ := hh
    exact ⟨hstalled, events, rest, hevents, hcourse⟩

/-- The capacity is the one that is planned at the site. -/
theorem countsFormation (hstrategy : Strategy.Diligent stall Ready)
    (hsize : Strategy.KeepsSize π τ stall) (m : Merger) {s : Source π τ} {site : Site}
    {capacity : Nat} (hplan : Plan.capacity site.ledger.available (m.formationSpace τ s.strategy)
      (max 1 (FixedWidth.footprint τ).size) = .ok capacity) :
    CountsFormation stall m capacity s site := by
  obtain ⟨hcapacity, -⟩ := Plan.capacity_le hplan
  have hforms {work : SourceM π τ Stats} {s' : Source π τ} (h : Reports stall work s'
      (fun stats _ events => stats.Forms capacity s.input.size events) fun _ => True) :
      (work s').Ensures site
        (fun out after => ∃ events, after.plans = site.plans ++ events ∧
          ∀ stats, out.1 = .ok stats → stats.Forms capacity s.input.size events)
        fun halt _ => halt = .stalled → stall := by
    apply (h site).mono
    · intro out after hout
      obtain ⟨events, hevents, -, hstats⟩ := hout
      exact ⟨events, hevents, hstats⟩
    · intro _ _ hh
      exact hh.2
  have hrewind : (Source.onInput (Tape.seek 0) : SourceM π τ Unit) s =
      (pure (.ok (), { s with input := { s.input with offset := 0 } }) : SiteM _) := rfl
  unfold CountsFormation process
  rw [run_bind, hrewind, pure_bind]
  simp only [run_bind, run_get, run_liftM, bind_assoc, pure_bind]
  rw [SiteM.ensures_bind]
  apply (m.ensures_capacity s.strategy site).mono
  · intro plan after hplanned
    obtain ⟨rfl, rfl⟩ := hplanned
    rw [hplan]
    simp only
    split
    · next hfew => exact hforms (reports_arrangeAll hsize hfew _)
    · next hmany =>
      exact hforms (m.reports_distribute hstrategy hsize hcapacity
        { s with input := { s.input with offset := 0 } } (Nat.lt_of_not_le hmany))
  · intro halt _ hh hstalled
    exact absurd hstalled hh

/-- A merge takes logarithmically many passes and counts exactly, by any comparison and with any
source of words, with any memory and any blocks, wherever the storage fails. So does a run
formation with as much room as is planned for; only a draw can keep it from coming to an end. -/
theorem merge_takes_logarithmic_passes {γ : Type} [WordSource γ] (m : Merger) (site : Site) :
    (∀ (t : Target (Ordered τ) τ) (runs : List (Tape τ)), m.CountsMerge runs t site) ∧
    (∀ (t : Target (Interleave γ) τ) (runs : List (Tape τ)), m.CountsMerge runs t site) ∧
    (∀ (s : Source (Ordered τ) τ) (capacity : Nat),
      Plan.capacity site.ledger.available (m.formationSpace τ s.strategy)
        (max 1 (FixedWidth.footprint τ).size) = .ok capacity →
      CountsFormation False m capacity s site) ∧
    (∀ (s : Source (Interleave γ) τ) (capacity : Nat),
      Plan.capacity site.ledger.available (m.formationSpace τ s.strategy)
        (max 1 (FixedWidth.footprint τ).size) = .ok capacity →
      CountsFormation True m capacity s site) := by
  refine ⟨?_, ?_, ?_, ?_⟩
  · intro t runs
    exact m.countsMerge (Ordered.diligent False) runs t site
  · intro t runs
    exact m.countsMerge (Interleave.diligent False) runs t site
  · intro s capacity hplan
    exact m.countsFormation (Ordered.diligent False) Ordered.keepsSize hplan
  · intro s capacity hplan
    exact m.countsFormation (Interleave.diligent True) Interleave.keepsSize hplan

/-- Six hundred bytes with room for 200: three runs are formed, and two can be merged at once. -/
theorem merge_takes_logarithmic_passes_bytes :
    Plan.capacity 528 328 1 = .ok 200 ∧
    CountsFormation False { blockSize := 2 } 200
      ({ input := Tape.ofDisk (Disk.ofBytes (FixedWidth.encodeAll
           (τ := (Layout.scalar (.unsigned .w8)).Value) (List.replicate 600 7#8))) none 2
         output := Tape.ofDisk (Disk.ofFile 65536 []) none 2
         strategy := { cmp := (Layout.scalar (.unsigned .w8)).compare } } :
        Source (Ordered (Layout.scalar (.unsigned .w8)).Value)
          (Layout.scalar (.unsigned .w8)).Value)
      { ledger := { limit := 528, policy := .abort } } :=
  ⟨by decide, (merge_takes_logarithmic_passes (γ := KeyStream) { blockSize := 2 }
    { ledger := { limit := 528, policy := .abort } }).2.2.1 _ 200 (by decide)⟩

end Merger

end BoundedMerge
