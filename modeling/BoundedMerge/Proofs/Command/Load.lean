import BoundedMerge.Command.Run
import BoundedMerge.Proofs.Command.Lines
import BoundedMerge.Proofs.Layout.Lawful
import BoundedMerge.Proofs.Merge.FormationSteady
import BoundedMerge.Proofs.Site.Meets
import BoundedMerge.Proofs.Tape.Denials

/-!
The lines of a file are loaded on a tape one by one. Rules for work that ends with the first failure
reduce a run on storage that may refuse to one on storage that refuses nothing: if the work succeeds
it has loaded the integers that the lines say. It ends over the first line that is not accepted,
unless the storage or the memory ends it before.
-/

namespace BoundedMerge.Command

open SiteM

variable {α β γ δ ε : Type}

namespace JobM

theorem run_bind (work : JobM α) (next : α → JobM β) :
    (work >>= next).run = work.run >>= fun out =>
      match out with
      | .ok a => (next a).run
      | .error f => pure (.error f) := by
  rw [ExceptT.run_bind]
  apply bind_congr
  intro out
  cases out with
  | ok a => rfl
  | error f => rfl

theorem ensures_bind {site : Site} {work : JobM α} {next : α → JobM β}
    {Q : Except Failure β → Site → Prop} {H : Halt → Site → Prop} :
    (work >>= next).run.Ensures site Q H ↔
      work.run.Ensures site (fun out after =>
        match out with
        | .ok a => (next a).run.Ensures after Q H
        | .error f => Q (.error f) after) H := by
  rw [run_bind, SiteM.ensures_bind]
  have hcases (out : Except Failure α) (after : Site) :
      SiteM.Ensures (match out with
        | .ok a => (next a).run
        | .error f => pure (.error f)) after Q H ↔
        match out with
        | .ok a => (next a).run.Ensures after Q H
        | .error f => Q (.error f) after := by
    cases out with
    | ok a => exact Iff.rfl
    | error f => exact ensures_pure
  simp only [hcases]

theorem run_liftM (work : SiteM α) :
    (liftM work : JobM α).run = work >>= fun a => pure (.ok a) := rfl

theorem run_orFail (failure : ε → Failure) (work : SiteM (Except ε α)) :
    (orFail failure work).run = work >>= fun out => pure (out.mapError failure) := by
  unfold orFail
  rw [run_bind, run_liftM]
  simp only [bind_assoc, pure_bind]
  apply bind_congr
  intro out
  cases out with
  | ok a => rfl
  | error e => rfl

theorem run_onTape (failure : TapeError → Failure) (tape : Tape Number.Value)
    (work : TapeM Number.Value α) :
    (onTape failure tape work).run = (work tape : SiteM _) >>= fun out =>
      match out with
      | (.ok a, tape) => pure (.ok (a, tape))
      | (.error e, _) => pure (.error (failure e)) := by
  unfold onTape
  rw [run_bind, run_liftM]
  simp only [bind_assoc, pure_bind]
  apply bind_congr
  intro out
  obtain ⟨outcome, tape'⟩ := out
  cases outcome with
  | ok a => rfl
  | error e => rfl

def Echoes (g : α → β) (work : JobM α) (twin : JobM β) : Prop :=
  SiteM.Echoes work.run twin.run (fun out => ∃ f, out = .error f)
    fun out out' => ∃ a, out = .ok a ∧ out' = .ok (g a)

namespace Echoes

variable {g : α → β} {h : γ → δ}

theorem pure (a : α) : Echoes g (pure a) (pure (g a)) := SiteM.Echoes.pure ⟨a, rfl, rfl⟩

theorem throw (f : Failure) (twin : JobM β) : Echoes g (throw f) twin :=
  SiteM.Echoes.of_loses (Loses.pure ⟨f, rfl⟩)

theorem bind {work : JobM α} {twin : JobM β} {next : α → JobM γ} {next' : β → JobM δ}
    (hwork : Echoes g work twin) (hnext : ∀ a, Echoes h (next a) (next' (g a))) :
    Echoes h (work >>= next) (twin >>= next') := by
  unfold Echoes
  rw [run_bind, run_bind]
  apply SiteM.Echoes.bind hwork
  · intro out hlost
    obtain ⟨f, rfl⟩ := hlost
    exact Loses.pure ⟨f, rfl⟩
  · intro out out' hrel
    obtain ⟨a, rfl, rfl⟩ := hrel
    exact hnext a

/-- Work at the site whose result is looked at. -/
theorem lift_bind {work : SiteM α} {twin : SiteM β} {next : α → JobM γ} {next' : β → JobM δ}
    {lost : α → Prop} {R : α → β → Prop} (hwork : SiteM.Echoes work twin lost R)
    (hlost : ∀ a, lost a → ∃ f, next a = MonadExcept.throw f)
    (hnext : ∀ a b, R a b → Echoes h (next a) (next' b)) :
    Echoes h (liftM work >>= next) (liftM twin >>= next') := by
  unfold Echoes
  simp only [run_bind, run_liftM, bind_assoc, pure_bind]
  apply hwork.bind
  · intro a ha
    obtain ⟨f, hf⟩ := hlost a ha
    rw [hf]
    exact Loses.pure ⟨f, rfl⟩
  · intro a b hab
    exact hnext a b hab

theorem orFail {failure : ε → Failure} {work : SiteM (Except ε α)} {twin : SiteM (Except ε β)}
    (hwork : SiteM.Echoes work twin (fun out => ∃ e, out = .error e)
      fun out out' => ∃ a, out = .ok a ∧ out' = .ok (g a)) :
    Echoes g (orFail failure work) (Command.orFail failure twin) := by
  unfold Echoes
  rw [run_orFail, run_orFail]
  apply hwork.bind
  · intro out hlost
    obtain ⟨e, rfl⟩ := hlost
    exact Loses.pure ⟨_, rfl⟩
  · intro out out' hrel
    obtain ⟨a, rfl, rfl⟩ := hrel
    exact SiteM.Echoes.pure ⟨a, rfl, rfl⟩

theorem onTape (failure : TapeError → Failure) {work : TapeM Number.Value α}
    (hwork : Tape.Echoes work) (tape : Tape Number.Value) :
    Echoes (Prod.map id Tape.steady) (onTape failure tape work)
      (Command.onTape failure tape.steady work) := by
  unfold Echoes
  rw [run_onTape, run_onTape]
  apply hwork.run tape
  · intro e tape'
    exact Loses.pure ⟨_, rfl⟩
  · intro a tape'
    exact SiteM.Echoes.pure ⟨_, rfl, rfl⟩

end Echoes

def Comes (ref : Site) (work : JobM α) (Q : α → Prop) : Prop :=
  Meets ref work.run (fun out => ∀ a, out = .ok a → Q a) fun _ => True

namespace Comes

variable {ref : Site} {P : α → Prop} {Q : β → Prop}

theorem pure {a : α} (h : P a) : Comes ref (pure a) P := by
  apply Meets.pure
  intro a' ha'
  cases ha'
  exact h

theorem throw (f : Failure) : Comes ref (throw f) P := by
  apply Meets.pure
  intro a ha
  cases ha

theorem bind {work : JobM α} {next : α → JobM β} (hwork : Comes ref work P)
    (hnext : ∀ a, P a → Comes ref (next a) Q) : Comes ref (work >>= next) Q := by
  unfold Comes
  rw [run_bind]
  apply Meets.bind hwork
  intro out hout
  cases out with
  | ok a => exact hnext a (hout a rfl)
  | error f => exact throw f

theorem lift_bind {work : SiteM α} {next : α → JobM β} {H : Halt → Prop}
    (hwork : Meets ref work P H) (hnext : ∀ a, P a → Comes ref (next a) Q) :
    Comes ref (liftM work >>= next) Q := by
  unfold Comes
  simp only [run_bind, run_liftM, bind_assoc, pure_bind]
  exact (hwork.mono_halts fun _ _ => trivial).bind hnext

theorem orFail {failure : ε → Failure} {work : SiteM (Except ε α)}
    (hwork : Yields ref work fun out => ∀ a, out = .ok a → P a) :
    Comes ref (orFail failure work) P := by
  unfold Comes
  rw [run_orFail]
  apply (hwork.meets _).bind
  intro out hout
  cases out with
  | ok a => exact pure (hout a rfl)
  | error e => exact throw (failure e)

theorem onTape {failure : TapeError → Failure} {tape : Tape Number.Value}
    {work : TapeM Number.Value α} {a : α} {r : Reel Number.Value}
    (hwork : tape.Turns ref work (.ok a) r) :
    Comes ref (onTape failure tape work) fun out => out.1 = a ∧ out.2.Shows r := by
  unfold Comes
  rw [run_onTape]
  apply (Yields.meets hwork _).bind
  intro out hout
  obtain ⟨outcome, tape'⟩ := out
  obtain ⟨rfl, hshows, -⟩ := hout
  exact pure ⟨rfl, hshows⟩

end Comes

/-- What the work comes to where the storage refuses nothing is what it comes to at all. -/
theorem Echoes.ensures {g : α → β} {work : JobM α} {twin : JobM β} (h : Echoes g work twin)
    (site : Site) {Q : β → Prop} (htwin : Comes site.steady twin Q) :
    work.run.Ensures site (fun out _ => ∀ a, out = .ok a → Q (g a)) fun _ _ => True := by
  apply (h site site.steady site.twin_steady).mono
  · intro out _ hout a ha
    rcases hout with ⟨f, hf⟩ | hecho
    · rw [hf] at ha
      contradiction
    · have hboth := (hecho.and (htwin site.steady (Site.Like.refl _))).mono
        (fun _ _ h => h) (fun _ _ h => h.1)
      obtain ⟨out', after', ⟨⟨⟨a', ha', hout'⟩, -⟩, hQ, -⟩, -⟩ := hboth.exists_result
      rw [ha'] at ha
      cases ha
      exact hQ _ hout'
  · intro _ _ hh
    exact hh

end JobM

def toRecord (n : Int) : Number.Value := BitVec.ofInt _ n

def ofRecord (x : Number.Value) : Int := BitVec.toInt x

theorem ofRecord_toRecord {n : Int} (h : NumeralRange.int64.Contains n) :
    ofRecord (toRecord n) = n := by
  obtain ⟨hlow, hhigh⟩ := h
  simp only [NumeralRange.int64] at hlow hhigh
  apply BitVec.toInt_ofInt_eq_self
  · decide
  · change -2 ^ 63 ≤ n
    omega
  · change n < 2 ^ 63
    omega

theorem echoes_load (tape : Tape Number.Value) (number : Nat) (lines : List (List UInt8)) :
    JobM.Echoes Tape.steady (load tape number lines) (load tape.steady number lines) := by
  induction lines generalizing tape number with
  | nil => exact JobM.Echoes.pure tape
  | cons line lines ih =>
    rw [load, load]
    cases Lines.read line with
    | error fault =>
      cases fault with
      | notText => exact JobM.Echoes.throw _ _
      | noInteger e => exact JobM.Echoes.throw _ _
    | ok x =>
      cases x with
      | none => exact ih tape (number + 1)
      | some n =>
        apply (JobM.Echoes.onTape _ (Tape.echoes_write _) tape).bind
        intro out
        exact ih out.2 (number + 1)

def blockBytes (o : Options) : Nat :=
  Tape.itemsPerBlock (FixedWidth.width Number.Value) o.blockSize * FixedWidth.width Number.Value

end BoundedMerge.Command
