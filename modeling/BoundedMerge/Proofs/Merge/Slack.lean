import BoundedMerge.Proofs.Merge.Forecast
import BoundedMerge.Proofs.Merge.Plain
import BoundedMerge.Proofs.Tape.Balance

/-!
Whether more memory can make a merge longer. With more memory a plan is for no fewer inputs, but
the selection for the last of them is larger too, and it is in the way of the next plan. So a larger
limit leads to no more passes if it has slack: if what it adds is enough for the selection of the
largest group that it allows. With less than that it can lead to one pass more.
-/

namespace BoundedMerge

open SiteM

namespace Plan

variable {charge : Nat → Nat} {space more fixed perInput heap heap' runs runs' n k k' : Nat}

/-- With no less space and for no more runs, a plan is for no less, as far as there are runs. -/
theorem arity_le_of_le (hper : 0 < perInput) (hspace : space ≤ more) (hmany : 1 < runs')
    (hruns : runs' ≤ runs) (hplan : arity space fixed perInput runs = .ok k) :
    ∃ k', arity more fixed perInput runs' = .ok k' ∧ 1 < k' ∧ min k runs' ≤ k' := by
  have hbest := best_arity fixed hper (Nat.lt_of_lt_of_le hmany hruns)
  have hbest' := best_arity fixed hper hmany
  obtain ⟨-, ⟨-, hcost⟩, -⟩ := (hbest.ok_iff space k).mp hplan
  obtain ⟨k', hplan'⟩ := hbest'.exists_ok ((hbest.le_of_ok hplan).trans hspace)
  obtain ⟨hk', -, hgreatest⟩ := (hbest'.ok_iff more k').mp hplan'
  have hmin := Nat.mul_le_mul_right perInput (Nat.min_le_left k runs')
  exact ⟨k', hplan', hk', hgreatest ⟨Nat.min_le_right k runs', by omega⟩⟩

/-- With as much space for every plan and no more runs there are no more passes. The second space
must hold all of the first besides any selection that it leads to. -/
theorem passes_le (hper : 0 < perInput) (hcharge : Monotone charge)
    (hslack : ∀ k, k < runs' → fixed + k * perInput ≤ more → space + charge k ≤ more)
    (hspace : space - heap ≤ more - heap') (hmany : 1 < runs') (hruns : runs' ≤ runs)
    (hpasses : passes charge space fixed perInput heap runs = .ok n) :
    ∃ n', n' ≤ n ∧ passes charge more fixed perInput heap' runs' = .ok n' := by
  fun_induction passes charge space fixed perInput heap runs generalizing heap' runs' n with
  | case1 heap runs e hplan => cases hpasses
  | case2 heap runs k hplan hlast =>
    cases hpasses
    obtain ⟨k', hplan', -, hle⟩ := arity_le_of_le hper hspace hmany hruns hplan
    exact ⟨1, Nat.le_refl 1, passes_last hplan' (by omega)⟩
  | case3 heap runs k hplan hmore ih =>
    obtain ⟨k', hplan', hk', hle⟩ := arity_le_of_le hper hspace hmany hruns hplan
    obtain ⟨hk, -⟩ := ((best_arity fixed hper (by omega)).ok_iff _ _).mp hplan
    obtain ⟨rest, hrest, rfl⟩ : ∃ rest, passes charge space fixed perInput
        (charge (lastGroup k runs)) ((runs + k - 1) / k) = .ok rest ∧ 1 + rest = n := by
      generalize passes _ _ _ _ _ _ = planned at hpasses
      cases planned with
      | error e => cases hpasses
      | ok rest => exact ⟨rest, rfl, Except.ok.inj hpasses⟩
    by_cases hlast : runs' ≤ k'
    · exact ⟨1, Nat.le_add_right 1 rest, passes_last hplan' hlast⟩
    have hlt : k' < runs' := Nat.lt_of_not_le hlast
    have hcost : fixed + k' * perInput ≤ more :=
      (((best_arity fixed hper hmany).ok_iff _ _).mp hplan').2.1.2.trans (Nat.sub_le _ _)
    have hselection : space + charge k' ≤ more := hslack k' hlt hcost
    have hheap : charge (lastGroup k' runs') ≤ charge k' := hcharge (lastGroup_le (by omega))
    have hfewer := groups_lt (show 1 < k' by omega) hmany
    have hnext : space - charge (lastGroup k runs) ≤ more - charge (lastGroup k' runs') := by omega
    obtain ⟨rest', hrest', hpasses'⟩ := ih (fun k hk => hslack k (by omega)) hnext
      (one_lt_groups (by omega) hlt) (groups_le (by omega) (by omega) hruns) hrest
    refine ⟨1 + rest', Nat.add_le_add_left hrest' 1, ?_⟩
    rw [passes_pass hplan' hlt, hpasses']
    rfl

theorem one_le_passes (hpasses : passes charge space fixed perInput heap runs = .ok n) :
    1 ≤ n := by
  rw [passes] at hpasses
  split at hpasses
  · cases hpasses
  · split at hpasses
    · cases hpasses
      exact Nat.le_refl 1
    · generalize passes _ _ _ _ _ _ = planned at hpasses
      cases planned with
      | error e => cases hpasses
      | ok rest =>
        obtain rfl := Except.ok.inj hpasses
        exact Nat.le_add_right 1 rest

/-- The slack that the first plan needs is enough for all that follow. -/
theorem passes_le_of_slack (hper : 0 < perInput) (hcharge : Monotone charge)
    (hspace : space ≤ more) (hmany : 1 < runs)
    (hslack : ∀ k, arity more fixed perInput runs = .ok k → runs ≤ k ∨ space + charge k ≤ more)
    (hpasses : passes charge space fixed perInput 0 runs = .ok n) :
    ∃ n', n' ≤ n ∧ passes charge more fixed perInput 0 runs = .ok n' := by
  have hbest := best_arity fixed hper hmany
  cases hplan : arity more fixed perInput runs with
  | error e =>
    have hshort := ((hbest.error_iff more e).mp hplan).1
    rw [passes_error (arity_of_lt hper hmany (by omega))] at hpasses
    cases hpasses
  | ok k =>
    obtain hlast | hroom := hslack k hplan
    · exact ⟨1, one_le_passes hpasses, passes_last hplan hlast⟩
    · obtain ⟨-, -, hgreatest⟩ := (hbest.ok_iff more k).mp hplan
      refine passes_le hper hcharge ?_ (by omega) hmany (Nat.le_refl runs) hpasses
      intro j hj hcost
      have hle : charge j ≤ charge k := hcharge (hgreatest ⟨Nat.le_of_lt hj, hcost⟩)
      omega

end Plan

variable {π τ : Type} [FixedWidth τ] {site : Site}

namespace Tape

theorem ends_flush (t : Tape τ) : Ends ((flush : TapeM τ Unit) t) := by
  obtain ⟨outcome, t', hrun, -, -⟩ := t.flush_eq
  rw [hrun]
  exact Ends.pure (outcome, t')

theorem ends_releaseBlock (t : Tape τ) : Ends ((releaseBlock : TapeM τ Unit) t) := by
  unfold releaseBlock
  rw [Work.run_bind]
  apply (ends_flush t).bind
  intro out
  obtain ⟨outcome, t'⟩ := out
  cases outcome with
  | error e => exact Ends.pure _
  | ok _ =>
    simp only [Work.run_bind, Work.run_get, Work.run_modify, pure_bind]
    cases t'.block with
    | none => exact Ends.pure _
    | some b =>
      simp only [Work.run_liftM]
      exact (Ends.release b.lease).bind fun _ => Ends.pure _

theorem ends_close (t : Tape τ) : Ends t.close := by
  unfold close
  apply (ends_flush t).bind
  intro out
  obtain ⟨outcome, t'⟩ := out
  simp only
  cases t'.block with
  | none =>
    cases outcome with
    | ok _ => exact Ends.pure _
    | error e => exact (Ends.report _).bind fun _ => Ends.pure _
  | some b =>
    have hgive : Ends (do b.lease.release; return t'.disk : SiteM Disk) :=
      (Ends.release b.lease).bind fun _ => Ends.pure _
    cases outcome with
    | ok _ => exact hgive
    | error e => exact (Ends.report _).bind fun _ => hgive

end Tape

namespace Merger

theorem ends_closeAll (tapes : List (Tape τ)) : SiteM.Ends (closeAll tapes) := by
  induction tapes with
  | nil => exact SiteM.Ends.pure ()
  | cons tape tapes ih =>
    unfold closeAll
    exact tape.ends_close.bind fun _ => ih

theorem ends_releaseAll (tapes : List (Tape τ)) : SiteM.Ends (releaseAll tapes) := by
  induction tapes with
  | nil => exact SiteM.Ends.pure _
  | cons tape tapes ih =>
    unfold releaseAll
    apply tape.ends_releaseBlock.bind
    intro out
    obtain ⟨outcome, tape'⟩ := out
    cases outcome with
    | error e => exact SiteM.Ends.pure _
    | ok _ => exact ih.bind fun _ => SiteM.Ends.pure _

variable [LawfulFixedWidth τ] {size : Nat} {tapes : List (Tape τ)} {runs : List (List τ)}

/-- The blocks of all tapes are given back, however much is in use. -/
theorem ensures_releaseAll (h : List.Forall₂ Tape.Leaves tapes runs)
    (howes : ∀ t ∈ tapes, t.Owes site size) (hheld : Tape.heldAll tapes ≤ site.ledger.used) :
    (releaseAll tapes).Ensures site
      (fun out after => ∃ tapes', out = (.ok (), tapes') ∧ List.Forall₂ Tape.Leaves tapes' runs ∧
        (∀ t ∈ tapes', t.Parked size) ∧ site.Like after ∧
          after.ledger.used = site.ledger.used - Tape.heldAll tapes)
      (fun _ _ => False) := by
  -- What is charged is known where what is in use is within the limit, and the limit is not seen.
  let roomy : Site :=
    { site with ledger := { site.ledger with limit := max site.ledger.limit site.ledger.used } }
  have heased : site.Eased roomy := ⟨Nat.le_max_left _ _, rfl, rfl, rfl, rfl, rfl⟩
  obtain ⟨rest, hrest⟩ := Nat.exists_eq_add_of_le' hheld
  have htallies : Tallies roomy (rest + Tape.heldAll tapes) (releaseAll tapes) _ :=
    tallies_releaseAll tapes fun t ht => ⟨(howes t ht).blockSize_eq, (howes t ht).lease_eq⟩
  have hroomy := htallies roomy
    ⟨Site.Like.refl roomy, hrest, hrest ▸ Nat.le_max_right _ _, rfl⟩
  refine (((ends_releaseAll tapes site).and ((plain_releaseAll tapes).eases site roomy heased)).and
    ((yields_releaseAll h).ensures (Site.Like.refl site))).mono ?_ (fun _ _ hh => hh.1.1)
  rintro ⟨outcome, tapes'⟩ after ⟨⟨-, htwin⟩, ⟨rfl, hleaves⟩, hlike⟩
  obtain ⟨_, _, ⟨⟨rfl, hafter⟩, hout⟩, -⟩ :=
    ((htwin.and hroomy).mono (fun _ _ h => h) fun _ _ hh => hh.1).exists_result
  obtain ⟨used, ⟨hused, -, -, hparked⟩, hholds⟩ := hout
  refine ⟨tapes', rfl, hleaves, hparked rfl, hlike, ?_⟩
  rw [Tape.heldAll_of_parked (hparked rfl)] at hused
  rw [← hafter.used_eq, hholds.used_eq, hused, hrest]
  omega

variable [Strategy π τ] {sound fits : π → Prop} {heap : π → Nat} {overhead node : Nat}
  {joins : List (List τ) → List τ → Prop} {target : Target π τ} {start : Reel τ}

omit [LawfulFixedWidth τ] in
/-- The plan is made for what is available, also if that is nothing. -/
theorem ensures_arity (m : Merger) (p : π) (hwidth : 0 < FixedWidth.width τ) (runs : Nat) :
    (m.arity τ p runs).Ensures site
      (fun out after => after = site ∧
        out = Plan.arity site.ledger.available (m.fixedSpace τ p) (m.inputSpace τ p) runs)
      (fun halt _ => site.Fails halt) := by
  have hcount {β : Type} (bytes : Nat) {next : Unit → SiteM β} {Q : β → Site → Prop}
      (h : (next ⟨⟩).Ensures site Q fun halt _ => site.Fails halt) :
      (Site.count bytes >>= next).Ensures site Q fun halt _ => site.Fails halt := by
    rw [ensures_bind]
    apply (Site.ensures_count bytes).mono
    · intro _ _ hsame
      rwa [hsame]
    · rintro halt _ ⟨rfl, hover⟩
      exact .oversized hover
  unfold arity orCount Tape.measure
  rw [if_neg (Nat.ne_of_gt hwidth)]
  simp only [bind_assoc, pure_bind]
  apply hcount
  apply hcount
  rw [ensures_bind, ensures_get]
  split
  · next hplan =>
    apply hcount
    exact ensures_pure.mpr ⟨rfl, rfl⟩
  · exact ensures_pure.mpr ⟨rfl, rfl⟩

/-- The passes come out as they were planned, however much is in use. -/
theorem ensures_mergeWithin (m : Merger)
    (hleases : Strategy.Leases τ site sound heap overhead node)
    (hmerges : Strategy.Merges site fits joins) (hscratch : site.scratch.Sound) (stats : Stats)
    (passes : Nat) (hp : sound target.strategy) (hfits : fits target.strategy)
    (hheap : heap target.strategy = 0) (houtput : target.output.Owes site (m.blockBytes τ))
    (hheld : target.output.held ≤ site.ledger.used) (hshows : target.output.Shows start)
    (h : List.Forall₂ Tape.Leaves tapes runs) (hparked : ∀ t ∈ tapes, t.Parked (m.blockBytes τ))
    (hmany : 1 < tapes.length) (hpasses : tapes.length ≤ passes) :
    ((m.mergeWithin stats tapes passes : MergeM π τ Stats) target).Ensures site
      (fun res _ => res.1.map Stats.passes =
        (Plan.passes (fun count => site.charged (node * count)) site.ledger.available
          (overhead + m.tapeSpace τ) (m.tapeSpace τ + node + 1) 0 tapes.length).map
            (stats.passes + ·))
      (fun halt _ => site.Fails halt) := by
  have hwidth := hshows.width_pos
  by_cases hused : site.ledger.used ≤ site.ledger.limit
  · obtain ⟨rest, hrest⟩ := Nat.exists_eq_add_of_le' hheld
    have hruns : runs ≠ [] := by
      rintro rfl
      rw [h.length_eq] at hmany
      simp at hmany
    have htallies : Tallies site (rest + heap target.strategy + target.output.held)
        ((m.mergeWithin stats tapes passes : MergeM π τ Stats) target) _ :=
      m.tallies_passes hleases hmerges hwidth hscratch stats passes hp hfits houtput hshows h
        hparked hmany hpasses
    refine (htallies.ensures (m.yields_mergeWithin hmerges hwidth hscratch stats passes hfits h
      hruns (by rwa [← h.length_eq]) hshows) (by omega) hused).mono ?_ (fun _ _ hh => hh)
    rintro res _ ⟨_, hres⟩
    rw [hres, hheap, Ledger.available, hrest]
  · obtain ⟨passes, rfl⟩ : ∃ n, passes = n + 1 := ⟨passes - 1, by omega⟩
    have hnothing : site.ledger.available = 0 := Nat.sub_eq_zero_of_le (Nat.le_of_not_le hused)
    obtain ⟨hfixed, hinput⟩ := m.planned_of_leases hleases hp
    have hplan : Plan.arity (site.ledger.available - 0) (overhead + m.tapeSpace τ)
        (m.tapeSpace τ + node + 1) tapes.length = _ :=
      Plan.arity_of_lt (Nat.succ_pos _) hmany (by omega)
    rw [mergeWithin]
    simp only [Work.run_bind, Work.run_get, Work.run_liftM, bind_assoc, pure_bind]
    rw [ensures_bind]
    refine (m.ensures_arity target.strategy hwidth tapes.length).mono ?_ (fun _ _ hh => hh)
    rintro _ after ⟨hafter, rfl⟩
    rw [hafter, hfixed, hinput, Plan.passes_error hplan, ← Nat.sub_zero site.ledger.available,
      hplan]
    simp only [Work.run_bind, Work.run_liftM, bind_assoc, pure_bind]
    rw [ensures_bind]
    refine (ends_closeAll tapes site).mono (fun _ _ _ => ?_) (fun _ _ hh => hh.elim)
    exact ensures_pure.mpr rfl

/-- The passes of a merge of the tapes with a strategy that holds nothing yet, if it can be made.
The blocks that the tapes hold are given back before the first plan. -/
def passes (m : Merger) (site : Site) (p : π) (tapes : List (Tape τ)) : Except MergeError Nat :=
  Plan.passes (fun count => site.charged (Strategy.perInput τ p * count))
    (site.ledger.limit - (site.ledger.used - Tape.heldAll tapes)) (m.fixedSpace τ p)
    (m.inputSpace τ p) 0 tapes.length

/-- A merge takes exactly the passes that are planned for it, whatever the limit is. -/
theorem ensures_passes (m : Merger) {sound : Site → π → Prop}
    (hleases : ∀ site, Strategy.Leases τ site (sound site) heap overhead node)
    (hmerges : ∀ site, Strategy.Merges site fits joins) (hscratch : site.scratch.Sound)
    (hp : ∀ site, sound site target.strategy) (hfits : fits target.strategy)
    (hheap : heap target.strategy = 0) (hshows : target.output.Shows start)
    (h : List.Forall₂ Tape.Leaves tapes runs) (hmany : 1 < tapes.length)
    (howes : ∀ t ∈ target.output :: tapes, t.Owes site (m.blockBytes τ))
    (hheld : Tape.heldAll (target.output :: tapes) ≤ site.ledger.used) :
    ((m.merge tapes : MergeM π τ Stats) target).Ensures site
      (fun res _ => res.1.map Stats.passes = m.passes site target.strategy tapes)
      (fun halt _ => site.Fails halt) := by
  have hempty : ¬tapes.isEmpty = true := by
    rw [List.isEmpty_iff]
    rintro rfl
    simp at hmany
  rw [Tape.heldAll_cons] at hheld
  unfold merge
  rw [if_neg hempty]
  simp only [Work.run_bind, Work.run_liftM, bind_assoc, pure_bind]
  rw [ensures_bind]
  refine (ensures_releaseAll h (fun t ht => howes t (List.mem_cons_of_mem _ ht))
    ((Nat.le_add_left _ _).trans hheld)).mono ?_ (fun _ _ hh => hh.elim)
  rintro _ after ⟨tapes', rfl, hleaves, hparked, hlike, hused⟩
  have houtput := howes _ List.mem_cons_self
  have hcharged : after.charged = site.charged := by
    funext bytes
    rw [Site.charged, Site.charged, hlike.policy]
  have hlength : tapes'.length = tapes.length := hleaves.length_eq.trans h.length_eq.symm
  refine (m.ensures_mergeWithin (hleases after) (hmerges after) ?_ _ _ (hp after) hfits hheap
    ⟨houtput.blockSize_eq, hcharged ▸ houtput.lease_eq⟩ (by omega) hshows hleaves hparked
    (by omega) (Nat.le_refl _)).mono ?_ ?_
  · intro n
    rw [hlike.supply]
    exact hscratch n
  · intro res _ hres
    obtain ⟨hfixed, hinput⟩ := m.planned_of_leases (hleases site) (hp site)
    rw [hres, passes, hcharged, hlength, Ledger.available, hlike.limit, hused, hfixed, hinput,
      (hleases site).perInput_eq _ (hp site)]
    generalize Plan.passes _ _ _ _ _ _ = planned
    cases planned with
    | error e => rfl
    | ok n => exact congrArg Except.ok (Nat.zero_add n)
  · exact fun _ _ hh => hh.of_machine hlike.sizeBits hlike.gives

/-- What the larger limit adds is enough for the selection of as many inputs as it allows, unless
it allows to merge all tapes at once. -/
def HasSlack (m : Merger) (site : Site) (limit : Nat) (p : π) (tapes : List (Tape τ)) : Prop :=
  ∀ k, Plan.arity (limit - (site.ledger.used - Tape.heldAll tapes)) (m.fixedSpace τ p)
      (m.inputSpace τ p) tapes.length = .ok k →
    tapes.length ≤ k ∨ site.ledger.limit + site.charged (Strategy.perInput τ p * k) ≤ limit

/-- If the merge succeeds, it does so under the other limit too, in no more passes. -/
def GainsBy (m : Merger) (site : Site) (limit : Nat) (target : Target π τ)
    (tapes : List (Tape τ)) : Prop :=
  ((m.merge tapes : MergeM π τ Stats) target).Ensures site
    (fun res _ => ∀ stats, res.1 = .ok stats →
      ((m.merge tapes : MergeM π τ Stats) target).Ensures
        { site with ledger := { site.ledger with limit } }
        (fun res' _ => ∃ stats', res'.1 = .ok stats' ∧ stats'.passes ≤ stats.passes)
        (fun halt _ => site.Fails halt))
    (fun _ _ => True)

omit [LawfulFixedWidth τ] in
theorem passes_le_of_hasSlack (m : Merger) {p : π} {limit n : Nat}
    (hlimit : site.ledger.limit ≤ limit) (hmany : 1 < tapes.length)
    (hslack : m.HasSlack site limit p tapes) (hpasses : m.passes site p tapes = .ok n) :
    ∃ n', n' ≤ n ∧
      m.passes { site with ledger := { site.ledger with limit } } p tapes = .ok n' := by
  have hcharge : Monotone fun count => site.charged (Strategy.perInput τ p * count) :=
    fun a b hle => site.charged_mono (Nat.mul_le_mul_left _ hle)
  have hper : 0 < m.inputSpace τ p := Nat.succ_pos _
  have hmore : m.passes { site with ledger := { site.ledger with limit } } p tapes =
      Plan.passes (fun count => site.charged (Strategy.perInput τ p * count))
        (limit - (site.ledger.used - Tape.heldAll tapes)) (m.fixedSpace τ p) (m.inputSpace τ p) 0
        tapes.length := rfl
  unfold passes at hpasses
  rw [hmore]
  refine Plan.passes_le_of_slack hper hcharge (Nat.sub_le_sub_right hlimit _) hmany ?_ hpasses
  intro k hk
  refine (hslack k hk).imp_right fun hroom => ?_
  by_cases hrest : site.ledger.used - Tape.heldAll tapes ≤ site.ledger.limit
  · omega
  · rw [Plan.passes_error (Plan.arity_of_lt hper hmany (by omega))] at hpasses
    cases hpasses

theorem gainsBy (m : Merger) {sound : Site → π → Prop} (hplain : Strategy.Plain π τ)
    (hleases : ∀ site, Strategy.Leases τ site (sound site) heap overhead node)
    (hmerges : ∀ site, Strategy.Merges site fits joins) (hscratch : site.scratch.Sound)
    (hp : ∀ site, sound site target.strategy) (hfits : fits target.strategy)
    (hheap : heap target.strategy = 0) (hshows : target.output.Shows start)
    (h : List.Forall₂ Tape.Leaves tapes runs)
    (howes : ∀ t ∈ target.output :: tapes, t.Owes site (m.blockBytes τ))
    (hheld : Tape.heldAll (target.output :: tapes) ≤ site.ledger.used) {limit : Nat}
    (hlimit : site.ledger.limit ≤ limit) (hslack : m.HasSlack site limit target.strategy tapes) :
    m.GainsBy site limit target tapes := by
  obtain hmany | hfew := Nat.lt_or_ge 1 tapes.length
  · refine (m.ensures_passes hleases hmerges hscratch hp hfits hheap hshows h hmany howes
      hheld).mono ?_ (fun _ _ _ => trivial)
    intro res _ hres stats hstats
    rw [hstats] at hres
    obtain ⟨n, hle, hpasses⟩ := m.passes_le_of_hasSlack hlimit hmany hslack hres.symm
    refine Ensures.mono (m.ensures_passes hleases hmerges hscratch hp hfits hheap hshows h hmany
      (fun t ht => ⟨(howes t ht).blockSize_eq, (howes t ht).lease_eq⟩) hheld) ?_
      (fun _ _ hh => hh.of_machine rfl rfl)
    rintro ⟨outcome, _⟩ _ hres'
    rw [hpasses] at hres'
    cases outcome with
    | error e => cases hres'
    | ok stats' => exact ⟨stats', rfl, Except.ok.inj hres' ▸ hle⟩
  · have heased : site.Eased { site with ledger := { site.ledger with limit } } :=
      ⟨hlimit, rfl, rfl, rfl, rfl, rfl⟩
    refine ((plain_merge_of_few hplain m hfew target).eases site _ heased).mono ?_
      (fun _ _ hh => hh)
    intro res after hres stats hstats
    refine hres.mono ?_ (fun _ _ hh => hh.elim)
    rintro _ _ ⟨rfl, -⟩
    exact ⟨stats, hstats, Nat.le_refl _⟩

omit [Strategy π τ]

/-- A merge with a new strategy and on storage that works, of any number of runs, succeeds under a
larger limit if it does under the smaller one, and in no more passes, where the larger limit has
slack. -/
theorem merge_gains_with_slack (m : Merger) (site : Site) (limit : Nat)
    (hlimit : site.ledger.limit ≤ limit) (hscratch : site.scratch.Sound) :
    (∀ (target : Target (Ordered τ) τ) (start : Reel τ) (tapes : List (Tape τ))
      (runs : List (List τ)), target.strategy.selection = none → target.output.Shows start →
      List.Forall₂ Tape.Leaves tapes runs →
      m.Registered site (target.output :: tapes) target.strategy.selection →
      m.HasSlack site limit target.strategy tapes → m.GainsBy site limit target tapes) ∧
    (∀ (γ : Type) [WordSource γ] (target : Target (Interleave γ) τ) (start : Reel τ)
      (tapes : List (Tape τ)) (runs : List (List τ)), target.strategy.selection = none →
      target.output.Shows start → List.Forall₂ Tape.Leaves tapes runs →
      m.Registered site (target.output :: tapes) target.strategy.selection →
      m.HasSlack site limit target.strategy tapes → m.GainsBy site limit target tapes) := by
  have hsound {κ : Type} {selection : Option (Selection κ)} (hnew : selection = none)
      (site : Site) : Selection.Sound site selection := by
    subst hnew
    exact nofun
  refine ⟨?_, ?_⟩
  · intro target start tapes runs hnew hshows h hregistered hslack
    exact m.gainsBy Ordered.plain (fun site => Ordered.leases site target.strategy.handleSize)
      (fun _ => Ordered.merges target.strategy) hscratch (fun site => ⟨rfl, hsound hnew site⟩)
      (.refl _) (by simp only [hnew, Selection.held, Option.map_none, Option.getD_none]) hshows h
      hregistered.owes ((Nat.le_add_left _ _).trans hregistered.held_le) hlimit hslack
  · intro γ _ target start tapes runs hnew hshows h hregistered hslack
    exact m.gainsBy Interleave.plain (fun site => Interleave.leases site)
      (fun _ => Interleave.merges) hscratch (hsound hnew) trivial
      (by simp only [hnew, Selection.held, Option.map_none, Option.getD_none]) hshows h
      hregistered.owes ((Nat.le_add_left _ _).trans hregistered.held_le) hlimit hslack

/-- A record of two small numbers and a large one. In memory it is aligned for the large one, so a
node of a selection takes more than two records on a tape. -/
abbrev Padded : Layout :=
  .pair (.pair (.scalar (.signed .w8)) (.scalar (.unsigned .w8))) (.scalar (.unsigned .w128))

def paddedTarget : Target (Ordered Padded.Value) Padded.Value where
  output := Tape.ofDisk (Disk.ofBytes []) none 18
  strategy := { cmp := Padded.compare }

def paddedRuns : List (Tape Padded.Value) :=
  openRuns { blockSize := 18 } ((List.range 16).map fun i => [((0#8, 0#8), BitVec.ofNat _ i)])

theorem parked_padded : ∀ t ∈ paddedTarget.output :: paddedRuns,
    t.Parked (blockBytes Padded.Value { blockSize := 18 }) :=
  parked_openRuns (τ := Padded.Value) { blockSize := 18 }
    ([] :: (List.range 16).map fun i => [((0#8, 0#8), BitVec.ofNat _ i)])

/-- With 1728 bytes six of the runs can be merged at once instead of four with 1440, and there is
room for a selection of six besides. -/
theorem merge_gains_with_slack_padded :
    HasSlack { blockSize := 18 } { ledger := { limit := 1440, policy := .warn } } 1728
        paddedTarget.strategy paddedRuns ∧
      GainsBy { blockSize := 18 } { ledger := { limit := 1440, policy := .warn } } 1728 paddedTarget
        paddedRuns := by
  have hwidth : 0 < FixedWidth.width Padded.Value := by decide
  have hplan : Plan.arity 1728 266 235 16 = .ok 6 := by decide
  have hslack : HasSlack { blockSize := 18 } { ledger := { limit := 1440, policy := .warn } } 1728
      paddedTarget.strategy paddedRuns := by
    intro k hk
    change Plan.arity (1728 - (0 - _)) 266 235 16 = _ at hk
    rw [Nat.zero_sub, Nat.sub_zero, hplan] at hk
    cases hk
    exact .inr (by decide)
  exact ⟨hslack, (merge_gains_with_slack { blockSize := 18 }
    { ledger := { limit := 1440, policy := .warn } } 1728 (by decide) Scratch.sound_reliable).1
    paddedTarget _ paddedRuns _ rfl (Tape.shows_ofDisk hwidth [] none 18)
    (leaves_openRuns _ hwidth _) (registered_of_parked _ _ parked_padded) hslack⟩

/-- With one byte more than 1440, five of the runs can be merged at once instead of four, but the
selection of five leaves no room to merge the four that they come to: a pass more is needed. -/
theorem merge_takes_longer :
    ((merge { blockSize := 18 } paddedRuns : MergeM (Ordered Padded.Value) Padded.Value Stats)
        paddedTarget).Ensures { ledger := { limit := 1440, policy := .warn } }
      (fun res _ => res.1.map Stats.passes = .ok 2) (fun _ _ => False) ∧
    ((merge { blockSize := 18 } paddedRuns : MergeM (Ordered Padded.Value) Padded.Value Stats)
        paddedTarget).Ensures { ledger := { limit := 1441, policy := .warn } }
      (fun res _ => res.1.map Stats.passes = .ok 3) (fun _ _ => False) := by
  have hwidth : 0 < FixedWidth.width Padded.Value := by decide
  have hpasses (limit : Nat) :
      ((merge { blockSize := 18 } paddedRuns : MergeM (Ordered Padded.Value) Padded.Value Stats)
        paddedTarget).Ensures { ledger := { limit, policy := .warn } }
      (fun res _ => res.1.map Stats.passes = Plan.passes (48 * ·) limit 266 235 0 16)
      (fun _ _ => False) := by
    refine (ensures_passes { blockSize := 18 } (fun site => Ordered.leases site 80)
      (fun _ => Ordered.merges paddedTarget.strategy) Scratch.sound_reliable
      (fun site => ⟨rfl, by intro s hs; cases hs⟩) (.refl _) rfl
      (Tape.shows_ofDisk hwidth [] none 18) (leaves_openRuns _ hwidth _) (by decide)
      (fun t ht => (parked_padded t ht).owes) ?_).mono ?_
      (fun _ _ hh => Site.not_fails rfl (fun _ _ => rfl) hh)
    · exact Nat.le_of_eq (Tape.heldAll_of_parked parked_padded)
    · intro res _ hres
      rw [hres]
      change Plan.passes (48 * ·) (limit - (0 - _)) 266 235 0 16 = _
      rw [Nat.zero_sub, Nat.sub_zero]
  refine ⟨(hpasses 1440).mono ?_ fun _ _ hh => hh, (hpasses 1441).mono ?_ fun _ _ hh => hh⟩
  · intro res _ hres
    rw [hres, Plan.passes_pass (k := 4) (by decide) (by decide), Plan.passes_last (k := 4)
      (by decide) (by decide)]
    rfl
  · intro res _ hres
    rw [hres, Plan.passes_pass (k := 5) (by decide) (by decide), Plan.passes_pass (k := 3)
      (by decide) (by decide), Plan.passes_last (k := 2) (by decide) (by decide)]
    rfl

end Merger

end BoundedMerge
