import BoundedMerge.Site

/-!
How work runs. Work on a state is a function of the state, and the rules here take it apart step
by step until only work at the site is left. `Ensures` says of such work where it leads from a
given site: to a result and a site with one property, or to a halt at a site with another.
-/

namespace BoundedMerge

namespace Work

variable {ε σ α β : Type}

@[simp] theorem run_pure (a : α) (s : σ) :
    (pure a : ExceptT ε (StateT σ SiteM) α) s =
      (pure (.ok a, s) : SiteM (Except ε α × σ)) := rfl

@[simp] theorem run_throw (e : ε) (s : σ) :
    (throw e : ExceptT ε (StateT σ SiteM) α) s =
      (pure (.error e, s) : SiteM (Except ε α × σ)) := rfl

@[simp] theorem run_get (s : σ) :
    (get : ExceptT ε (StateT σ SiteM) σ) s =
      (pure (.ok s, s) : SiteM (Except ε σ × σ)) := rfl

@[simp] theorem run_set (s s' : σ) :
    (set s' : ExceptT ε (StateT σ SiteM) PUnit) s =
      (pure (.ok ⟨⟩, s') : SiteM (Except ε PUnit × σ)) := rfl

@[simp] theorem run_modify (f : σ → σ) (s : σ) :
    (modify f : ExceptT ε (StateT σ SiteM) PUnit) s =
      (pure (.ok ⟨⟩, f s) : SiteM (Except ε PUnit × σ)) := rfl

@[simp] theorem run_bind (x : ExceptT ε (StateT σ SiteM) α)
    (f : α → ExceptT ε (StateT σ SiteM) β) (s : σ) :
    (x >>= f) s = ((x s : SiteM (Except ε α × σ)) >>= fun out =>
      match out with
      | (.ok a, s) => f a s
      | (.error e, s) => (pure (.error e, s) : SiteM (Except ε β × σ))) := by
  refine bind_congr (x := (x s : SiteM (Except ε α × σ))) fun out => ?_
  rcases out with ⟨_ | _, _⟩ <;> rfl

@[simp] theorem run_map (f : α → β) (x : ExceptT ε (StateT σ SiteM) α) (s : σ) :
    (f <$> x) s = ((x s : SiteM (Except ε α × σ)) >>= fun out =>
      match out with
      | (.ok a, s) => (pure (.ok (f a), s) : SiteM (Except ε β × σ))
      | (.error e, s) => (pure (.error e, s) : SiteM (Except ε β × σ))) := by
  rw [map_eq_pure_bind, run_bind]
  rfl

@[simp] theorem run_liftM (x : SiteM α) (s : σ) :
    (liftM x : ExceptT ε (StateT σ SiteM) α) s =
      (x >>= fun a => pure (.ok a, s) : SiteM (Except ε α × σ)) := by
  change ((x >>= fun a => pure (a, s)) >>= fun out => pure (Except.ok out.1, out.2)) = _
  simp only [bind_assoc, pure_bind]

@[simp] theorem run_tryCatch (x : ExceptT ε (StateT σ SiteM) α)
    (handle : ε → ExceptT ε (StateT σ SiteM) α) (s : σ) :
    (tryCatch x handle) s = ((x s : SiteM (Except ε α × σ)) >>= fun out =>
      match out with
      | (.ok a, s) => (pure (.ok a, s) : SiteM (Except ε α × σ))
      | (.error e, s) => handle e s) := by
  refine bind_congr (x := (x s : SiteM (Except ε α × σ))) fun out => ?_
  rcases out with ⟨_ | _, _⟩ <;> rfl

@[simp] theorem run_ite (c : Prop) [Decidable c] (x y : ExceptT ε (StateT σ SiteM) α) (s : σ) :
    (if c then x else y) s = (if c then x s else y s : SiteM (Except ε α × σ)) := by
  split <;> rfl

end Work

/-- The work leads from `site` to a result and a site for which `Q` holds, or halts with a reason
and a site for which `H` holds. -/
@[irreducible] def SiteM.Ensures {α : Type} (work : SiteM α) (site : Site) (Q : α → Site → Prop)
    (H : Halt → Site → Prop) : Prop :=
  match (work site : Except Halt α × Site) with
  | (.ok a, after) => Q a after
  | (.error h, after) => H h after

namespace SiteM

variable {α β : Type} {site : Site} {H : Halt → Site → Prop}

theorem Ensures.mono {work : SiteM α} {Q Q' : α → Site → Prop} {H' : Halt → Site → Prop}
    (h : work.Ensures site Q H) (hQ : ∀ a after, Q a after → Q' a after)
    (hH : ∀ halt after, H halt after → H' halt after) : work.Ensures site Q' H' := by
  unfold Ensures at *
  split at h
  · exact hQ _ _ h
  · exact hH _ _ h

theorem Ensures.and {work : SiteM α} {Q Q' : α → Site → Prop} {H' : Halt → Site → Prop}
    (h : work.Ensures site Q H) (h' : work.Ensures site Q' H') :
    work.Ensures site (fun a after => Q a after ∧ Q' a after)
      (fun halt after => H halt after ∧ H' halt after) := by
  unfold Ensures at *
  split <;> simp_all

/-- What work ensures holds of the result it comes to. -/
theorem Ensures.of_run {work : SiteM α} {Q : α → Site → Prop} {a : α} {after : Site}
    (h : work.Ensures site Q H) (hrun : (work site : Except Halt α × Site) = (.ok a, after)) :
    Q a after := by
  unfold Ensures at h
  rwa [hrun] at h

/-- Work on a state whose outcome is known. -/
theorem Ensures.of_outcome {ε σ : Type} {work : SiteM (Except ε α × σ)}
    {Q : Except ε α × σ → Site → Prop} {outcome : Except ε α} (h : work.Ensures site Q H)
    (hrun : (work site : Except Halt (Except ε α × σ) × Site).1.map Prod.fst = .ok outcome) :
    ∃ s after, (work site : Except Halt (Except ε α × σ) × Site) = (.ok (outcome, s), after) ∧
      Q (outcome, s) after := by
  cases hout : (work site : Except Halt (Except ε α × σ) × Site) with
  | mk result after =>
    rw [hout] at hrun
    rcases result with halt | ⟨outcome', s⟩
    · contradiction
    · cases hrun
      exact ⟨s, after, rfl, h.of_run hout⟩

/-- Work that does not halt comes to a result. -/
theorem Ensures.exists_run {work : SiteM α} {Q : α → Site → Prop}
    (h : work.Ensures site Q fun _ _ => False) :
    ∃ a after, (work site : Except Halt α × Site) = (.ok a, after) ∧ Q a after := by
  unfold Ensures at h
  split at h
  · next a after hrun => exact ⟨a, after, hrun, h⟩
  · contradiction

theorem ensures_trivial (work : SiteM α) (site : Site) :
    work.Ensures site (fun _ _ => True) fun _ _ => True := by
  unfold Ensures
  split <;> trivial

@[simp] theorem ensures_pure {a : α} {Q : α → Site → Prop} :
    Ensures (pure a) site Q H ↔ Q a site := by
  unfold Ensures
  exact Iff.rfl

@[simp] theorem ensures_halt {h : Halt} {Q : α → Site → Prop} :
    Ensures (Site.halt h) site Q H ↔ H h site := by
  unfold Ensures
  exact Iff.rfl

@[simp] theorem ensures_get {Q : Site → Site → Prop} :
    Ensures get site Q H ↔ Q site site := by
  unfold Ensures
  exact Iff.rfl

@[simp] theorem ensures_modify {f : Site → Site} {Q : PUnit → Site → Prop} :
    Ensures (modify f) site Q H ↔ Q ⟨⟩ (f site) := by
  unfold Ensures
  exact Iff.rfl

@[simp] theorem ensures_modifyGet {f : Site → α × Site} {Q : α → Site → Prop} :
    Ensures (modifyGet f) site Q H ↔ Q (f site).1 (f site).2 := by
  unfold Ensures
  exact Iff.rfl

@[simp] theorem ensures_bind {work : SiteM α} {next : α → SiteM β} {Q : β → Site → Prop} :
    Ensures (work >>= next) site Q H ↔
      Ensures work site (fun a after => Ensures (next a) after Q H) H := by
  have hrun : (work >>= next) site = match (work site : Except Halt α × Site) with
      | (.ok a, after) => (next a after : Except Halt β × Site)
      | (.error h, after) => (.error h, after) := by
    change (match (work site : Except Halt α × Site) with
      | (a, after) => ExceptT.bindCont next a after) = _
    rcases (work site : Except Halt α × Site) with ⟨_ | _, _⟩ <;> rfl
  unfold Ensures
  rw [hrun]
  rcases (work site : Except Halt α × Site) with ⟨_ | _, _⟩ <;> rfl

end SiteM

/-- The machine cannot count so far. -/
def Site.Overflows (site : Site) (bytes : Nat) : Prop :=
  ∃ bits, site.sizeBits = some bits ∧ 1 <<< bits ≤ bytes

/-- The machine has no piece of so many bytes for the one who asks for the `n`-th. -/
def Memory.Refuses (memory : Memory) (n bytes : Nat) : Prop :=
  0 < bytes ∧ memory.gives n bytes = false

def Site.askedOnce (site : Site) : Site :=
  { site with memory := { site.memory with asked := site.memory.asked + 1 } }

/-- Counting changes nothing. It halts where the machine cannot count so far. -/
theorem Site.ensures_count (bytes : Nat) {site : Site} :
    (Site.count bytes).Ensures site (fun _ after => after = site)
      (fun halt _ => halt = .oversized bytes ∧ site.Overflows bytes) := by
  unfold Site.count
  simp only [SiteM.ensures_bind, SiteM.ensures_get]
  split
  · next hany =>
    obtain ⟨bits, hbits, hle⟩ := (Option.any_eq_true _ _).mp hany
    exact SiteM.ensures_halt.mpr ⟨rfl, bits, hbits, of_decide_eq_true hle⟩
  · exact SiteM.ensures_pure.mpr rfl

/-- A piece of memory is given, or the machine refuses it. -/
theorem Site.ensures_allocate (bytes : Nat) {site : Site} :
    (Site.allocate bytes).Ensures site (fun _ after => after = site.askedOnce)
      (fun halt _ => halt = .exhausted bytes ∧ site.memory.Refuses site.memory.asked bytes) := by
  unfold Site.allocate
  simp only [SiteM.ensures_bind, SiteM.ensures_modifyGet]
  cases hgiven : (decide (bytes = 0) || site.memory.gives site.memory.asked bytes) with
  | true => exact SiteM.ensures_pure.mpr rfl
  | false =>
    simp only [Bool.or_eq_false_iff, decide_eq_false_iff_not] at hgiven
    exact SiteM.ensures_halt.mpr ⟨rfl, Nat.pos_of_ne_zero hgiven.1, hgiven.2⟩

/-- A piece of memory is given, or the machine cannot count twice its size, or refuses it. -/
theorem Site.ensures_provide (bytes : Nat) {site : Site} :
    (Site.provide bytes).Ensures site (fun _ after => after = site.askedOnce)
      (fun halt _ => halt = .oversized (2 * bytes) ∧ site.Overflows (2 * bytes) ∨
        halt = .exhausted bytes ∧ site.memory.Refuses site.memory.asked bytes) := by
  unfold Site.provide
  rw [SiteM.ensures_bind]
  apply (Site.ensures_count (2 * bytes)).mono
  · intro _ after hsame
    rw [hsame]
    exact (Site.ensures_allocate bytes).mono (fun _ _ h => h) fun _ _ hh => .inr hh
  · exact fun _ _ hh => .inl hh

/-- A lease that is given back adds to the journal at most. -/
theorem Lease.ensures_release (lease : Lease) {site : Site} :
    lease.release.Ensures site
      (fun _ after => ∃ news, after.journal.toList = site.journal.toList ++ news)
      (fun _ _ => False) := by
  unfold Lease.release
  split
  · exact SiteM.ensures_pure.mpr ⟨[], (List.append_nil _).symm⟩
  · simp only [SiteM.ensures_bind, Site.refund, SiteM.ensures_modifyGet]
    cases (site.ledger.refund lease.bytes).1 with
    | ok _ => exact SiteM.ensures_pure.mpr ⟨[], (List.append_nil _).symm⟩
    | error e => exact SiteM.ensures_modify.mpr ⟨[.breach e], Array.toList_push ..⟩

def SiteM.Ends {α : Type} (work : SiteM α) : Prop :=
  ∀ site, work.Ensures site (fun _ _ => True) fun _ _ => False

namespace SiteM.Ends

variable {α β : Type}

theorem pure (a : α) : Ends (pure a) := fun _ => ensures_pure.mpr trivial

theorem bind {work : SiteM α} {next : α → SiteM β} (h : Ends work) (hnext : ∀ a, Ends (next a)) :
    Ends (work >>= next) := by
  intro site
  rw [ensures_bind]
  exact (h site).mono (fun a after _ => hnext a after) fun _ _ hh => hh

theorem report (e : Event) : Ends (Site.report e) := fun _ => ensures_modify.mpr trivial

theorem release (lease : Lease) : Ends lease.release :=
  fun _ => lease.ensures_release.mono (fun _ _ _ => trivial) fun _ _ hh => hh

end SiteM.Ends

end BoundedMerge
