import BoundedMerge.Proofs.Disk.Records
import BoundedMerge.Proofs.Site.Work

/-!
What work comes to whatever the ledger and the journal say. Two sites are alike if they differ in
no more than the bytes in use, the journal, and how many files and pieces of memory were asked for
so far. Work `Meets` a property of results if it has it at every site that is like a given one, and
if it halts there for the reasons that are up to the site or for those that are named. A strategy
may break off a merge, and a loop may run out of the steps it is allowed. Work that names no reason
`Yields` the property.
-/

namespace BoundedMerge

structure Site.Like (ref site : Site) : Prop where
  limit : site.ledger.limit = ref.ledger.limit
  policy : site.ledger.policy = ref.ledger.policy
  sizeBits : site.sizeBits = ref.sizeBits
  supply : site.scratch.supply = ref.scratch.supply
  gives : site.memory.gives = ref.memory.gives

/-- The halts that are up to the machine. -/
inductive Site.Fails (ref : Site) : Halt → Prop
  | oversized {bytes : Nat} : ref.Overflows bytes → Fails ref (.oversized bytes)
  | exhausted {n bytes : Nat} : ref.memory.Refuses n bytes → Fails ref (.exhausted bytes)

/-- The halts that are up to the site alone. -/
inductive Site.Excuses (ref : Site) : Halt → Prop
  | breach : ref.ledger.policy = .abort → Excuses ref .breach
  | machine {h : Halt} : ref.Fails h → Excuses ref h

/-- It is only the machine that matters. -/
theorem Site.Fails.of_machine {ref site : Site} {h : Halt} (hfails : site.Fails h)
    (hbits : site.sizeBits = ref.sizeBits) (hgives : site.memory.gives = ref.memory.gives) :
    ref.Fails h := by
  obtain ⟨bits, hsome, hle⟩ | ⟨hpos, hrefused⟩ := hfails
  · exact .oversized ⟨bits, hbits ▸ hsome, hle⟩
  · exact .exhausted ⟨hpos, hgives ▸ hrefused⟩

/-- A machine without bounds does not fail. -/
theorem Site.not_fails {ref : Site} (hbits : ref.sizeBits = none)
    (hgives : ∀ n bytes, ref.memory.gives n bytes = true) {h : Halt} : ¬ref.Fails h := by
  rintro (⟨bits, hsome, -⟩ | @⟨n, bytes, -, hrefused⟩)
  · rw [hbits] at hsome
    contradiction
  · rw [hgives n bytes] at hrefused
    contradiction

/-- Nothing is up to a site without bounds where a breach is only reported. -/
theorem Site.not_excuses {ref : Site} (hpolicy : ref.ledger.policy ≠ .abort)
    (hbits : ref.sizeBits = none) (hgives : ∀ n bytes, ref.memory.gives n bytes = true) {h : Halt} :
    ¬ref.Excuses h := by
  rintro (habort | hfails)
  · exact hpolicy habort
  · exact Site.not_fails hbits hgives hfails

theorem Site.Like.refl (ref : Site) : ref.Like ref := ⟨rfl, rfl, rfl, rfl, rfl⟩

/-- A change to the bytes in use and the journal. -/
theorem Site.Like.book {ref site : Site} (h : ref.Like site) (used : Nat)
    (journal : Array Event) :
    ref.Like { site with ledger := { site.ledger with used }, journal } :=
  ⟨h.limit, h.policy, h.sizeBits, h.supply, h.gives⟩

theorem Site.Like.charge {ref site : Site} (h : ref.Like site) (bytes : Nat) :
    ref.Like { site with ledger := (site.ledger.charge bytes).2 } := by
  unfold Ledger.charge
  split
  · exact h
  · exact h.book _ _

theorem Site.Like.refund {ref site : Site} (h : ref.Like site) (bytes : Nat) :
    ref.Like { site with ledger := (site.ledger.refund bytes).2 } := by
  unfold Ledger.refund
  split
  · exact h
  · exact h.book _ _

theorem Site.Like.askedOnce {ref site : Site} (h : ref.Like site) : ref.Like site.askedOnce :=
  ⟨h.limit, h.policy, h.sizeBits, h.supply, h.gives⟩

theorem Site.Like.overflows {ref site : Site} (h : ref.Like site) {bytes : Nat}
    (hover : site.Overflows bytes) : ref.Overflows bytes := by
  obtain ⟨bits, hbits, hle⟩ := hover
  exact ⟨bits, h.sizeBits ▸ hbits, hle⟩

theorem Site.Like.refuses {ref site : Site} (h : ref.Like site) {n bytes : Nat}
    (hrefuses : site.memory.Refuses n bytes) : ref.memory.Refuses n bytes :=
  ⟨hrefuses.1, h.gives ▸ hrefuses.2⟩

/-- The work has a result with property `Q` at every site like `ref`, or halts for a reason that is
up to the site or one of the reasons `H`. -/
def SiteM.Meets {α : Type} (ref : Site) (work : SiteM α) (Q : α → Prop) (H : Halt → Prop) : Prop :=
  ∀ site, ref.Like site →
    work.Ensures site (fun a after => Q a ∧ ref.Like after) (fun h _ => ref.Excuses h ∨ H h)

def SiteM.Yields {α : Type} (ref : Site) (work : SiteM α) (Q : α → Prop) : Prop :=
  Meets ref work Q fun _ => False

namespace SiteM

variable {α β : Type} {ref : Site} {H : Halt → Prop}

theorem Yields.meets {work : SiteM α} {Q : α → Prop} (h : Yields ref work Q) (H : Halt → Prop) :
    Meets ref work Q H := by
  intro site hsite
  exact (h site hsite).mono (fun _ _ ha => ha) (fun _ _ hh => hh.imp_right False.elim)

theorem Yields.ensures {work : SiteM α} {Q : α → Prop} {site : Site} (h : Yields ref work Q)
    (hsite : ref.Like site) :
    work.Ensures site (fun a after => Q a ∧ ref.Like after) (fun halt _ => ref.Excuses halt) :=
  (h site hsite).mono (fun _ _ ha => ha) (fun _ _ hh => hh.resolve_right id)

/-- Where nothing is up to the site, work comes to a result. -/
theorem Yields.exists_run {work : SiteM α} {Q : α → Prop} (h : Yields ref work Q)
    (hfree : ∀ halt, ¬ref.Excuses halt) :
    ∃ a after, (work ref : Except Halt α × Site) = (.ok a, after) ∧ Q a := by
  have hruns := (h.ensures (Site.Like.refl ref)).mono (fun _ _ ha => ha) fun halt _ => hfree halt
  obtain ⟨a, after, hrun, ha, -⟩ := hruns.exists_run
  exact ⟨a, after, hrun, ha⟩

theorem Yields.of_ensures {work : SiteM α} {Q : α → Prop}
    (h : ∀ site, ref.Like site → work.Ensures site (fun a after => Q a ∧ ref.Like after)
      (fun halt _ => ref.Excuses halt)) : Yields ref work Q :=
  fun site hsite => (h site hsite).mono (fun _ _ ha => ha) (fun _ _ hh => .inl hh)

namespace Meets

theorem mono {work : SiteM α} {Q Q' : α → Prop} (h : Meets ref work Q H)
    (hQ : ∀ a, Q a → Q' a) : Meets ref work Q' H := by
  intro site hsite
  exact (h site hsite).mono (fun a _ ha => ⟨hQ a ha.1, ha.2⟩) (fun _ _ hh => hh)

theorem mono_halts {work : SiteM α} {Q : α → Prop} {K : Halt → Prop} (h : Meets ref work Q H)
    (hH : ∀ halt, H halt → K halt) : Meets ref work Q K := by
  intro site hsite
  exact (h site hsite).mono (fun _ _ ha => ha) (fun halt _ hh => hh.imp_right (hH halt))

theorem pure {a : α} {Q : α → Prop} (h : Q a) : Meets ref (pure a) Q H :=
  fun _ hsite => ensures_pure.mpr ⟨h, hsite⟩

theorem halt {h : Halt} {Q : α → Prop} (hh : H h) : Meets ref (Site.halt h) Q H :=
  fun _ _ => ensures_halt.mpr (.inr hh)

theorem bind {work : SiteM α} {next : α → SiteM β} {P : α → Prop} {Q : β → Prop}
    (h : Meets ref work P H) (hnext : ∀ a, P a → Meets ref (next a) Q H) :
    Meets ref (work >>= next) Q H := by
  intro site hsite
  rw [ensures_bind]
  exact (h site hsite).mono (fun a after ha => hnext a ha.1 after ha.2) (fun _ _ hh => hh)

section Work

variable {ε σ : Type} {s : σ}

/-- Work on a state: what comes next starts from the state that is left. -/
theorem run_bind {work : ExceptT ε (StateT σ SiteM) α} {next : α → ExceptT ε (StateT σ SiteM) β}
    {P : Except ε α × σ → Prop} {Q : Except ε β × σ → Prop} (h : Meets ref (work s) P H)
    (hok : ∀ a s', P (.ok a, s') → Meets ref (next a s') Q H)
    (herror : ∀ e s', P (.error e, s') → Q (.error e, s')) :
    Meets ref ((work >>= next) s) Q H := by
  rw [Work.run_bind]
  apply h.bind
  intro out hout
  rcases out with ⟨e | a, s'⟩
  · exact pure (herror e s' hout)
  · exact hok a s' hout

theorem run_tryCatch {work : ExceptT ε (StateT σ SiteM) α}
    {handle : ε → ExceptT ε (StateT σ SiteM) α} {P Q : Except ε α × σ → Prop}
    (h : Meets ref (work s) P H) (hok : ∀ a s', P (.ok a, s') → Q (.ok a, s'))
    (herror : ∀ e s', P (.error e, s') → Meets ref (handle e s') Q H) :
    Meets ref ((tryCatch work handle) s) Q H := by
  rw [Work.run_tryCatch]
  apply h.bind
  intro out hout
  rcases out with ⟨e | a, s'⟩
  · exact herror e s' hout
  · exact pure (hok a s' hout)

/-- Work that does not fail needs no handler. -/
theorem run_tryCatch_of_ok {work : ExceptT ε (StateT σ SiteM) α}
    {handle : ε → ExceptT ε (StateT σ SiteM) α} {P : Except ε α × σ → Prop}
    (h : Meets ref (work s) P H) (hok : ∀ e s', ¬P (.error e, s')) :
    Meets ref ((tryCatch work handle) s) P H :=
  h.run_tryCatch (fun _ _ hout => hout) fun e s' hout => absurd hout (hok e s')

theorem run_liftM {work : SiteM α} {Q : Except ε α × σ → Prop}
    (h : Meets ref work (fun a => Q (.ok a, s)) H) :
    Meets ref ((liftM work : ExceptT ε (StateT σ SiteM) α) s) Q H := by
  rw [Work.run_liftM]
  exact h.bind fun a ha => pure ha

end Work

end Meets

end SiteM

end BoundedMerge
