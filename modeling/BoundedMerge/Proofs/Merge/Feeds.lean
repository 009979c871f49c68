import BoundedMerge.Merge.Pass
import BoundedMerge.Proofs.Tape.Turns
import BoundedMerge.Strategy.Drive

/-!
Tapes that feed a merge. Of an input only the records that follow its cursor matter, and they are
read one at a time; what is read stays on the tape. Work on one input of a bench leaves the other
inputs and the target alone.
-/

namespace BoundedMerge

open SiteM

variable {α π τ : Type} [FixedWidth τ] {ref : Site}

/-- The tape holds `content`, and `rest` follows its cursor. -/
def Tape.Feeds (t : Tape τ) (content rest : List τ) : Prop :=
  ∃ r : Reel τ, t.Shows r ∧ r.records = content ∧ r.rest = rest

/-- Each input of the bench holds its content, and its rest follows the cursor. -/
structure Bench.Feeds (b : Bench π τ) (contents rests : List (List τ)) : Prop where
  size_eq : b.inputs.size = rests.length
  length_eq : contents.length = rests.length
  input : ∀ (i : Nat) (t : Tape τ) content rest, b.inputs[i]? = some t →
    contents[i]? = some content → rests[i]? = some rest → t.Feeds content rest

def Strategy.remaining (runs : List (List τ)) : Nat := (runs.map List.length).sum

namespace Tape

variable {t : Tape τ} {content rest : List τ}

omit [FixedWidth τ] in
theorem rest_next? (r : Reel τ) : r.next?.1 = .ok r.rest.head? ∧
    r.next?.2.records = r.records ∧ r.next?.2.rest = r.rest.tail := by
  by_cases hend : r.offset < r.records.length
  · rw [Reel.next?, dif_pos hend]
    refine ⟨?_, rfl, ?_⟩
    · rw [Reel.rest, List.drop_eq_getElem_cons hend]
      rfl
    · rw [Reel.rest, Reel.rest, List.tail_drop]
      rfl
  · rw [Reel.next?, dif_neg hend]
    have hrest : r.rest = [] := List.drop_eq_nil_of_le (Nat.le_of_not_lt hend)
    refine ⟨?_, rfl, ?_⟩
    · rw [hrest]
      rfl
    · rw [hrest]
      rfl

variable [LawfulFixedWidth τ]

theorem yields_next? (h : t.Feeds content rest) :
    Yields ref ((next? : TapeM τ (Option τ)) t) fun out =>
      out.1 = .ok rest.head? ∧ out.2.Feeds content rest.tail := by
  obtain ⟨r, hshows, rfl, rfl⟩ := h
  obtain ⟨hanswer, hrecords, hrest⟩ := rest_next? r
  refine (turns_next? hshows).mono ?_
  rintro out ⟨hout, hafter, -⟩
  exact ⟨hout.trans hanswer, r.next?.2, hafter, hrecords, hrest⟩

theorem yields_releaseBlock_feeds (h : t.Feeds content rest) :
    Yields ref ((releaseBlock : TapeM τ Unit) t) fun out =>
      out.1 = .ok () ∧ out.2.Feeds content rest ∧ out.2.block = none := by
  obtain ⟨r, hshows, hrecords, hrest⟩ := h
  apply (yields_releaseBlock hshows).mono
  intro out hout
  obtain ⟨hok, hafter, hblock, -⟩ := hout
  exact ⟨hok, ⟨r, hafter, hrecords, hrest⟩, hblock⟩

end Tape

namespace Bench

variable {b : Bench π τ} {contents rests : List (List τ)}

omit [FixedWidth τ] in
theorem Feeds.congr [FixedWidth τ] {b' : Bench π τ} (h : b.Feeds contents rests)
    (hinputs : b'.inputs = b.inputs) : b'.Feeds contents rests := by
  refine ⟨?_, h.length_eq, ?_⟩
  · rw [hinputs]
    exact h.size_eq
  · rw [hinputs]
    exact h.input

omit [FixedWidth τ] in
/-- Work on one input changes that input and nothing else. -/
theorem yields_onInput {index : Nat} {t : Tape τ} {work : TapeM τ α} {a : α}
    {P : Tape τ → Prop} (ht : b.inputs[index]? = some t)
    (hwork : Yields ref (work t) fun out => out.1 = .ok a ∧ P out.2) :
    Yields ref ((onInput index work : BenchM π τ α) b) fun out =>
      out.1 = .ok a ∧
        ∃ t', P t' ∧ out.2 = { b with inputs := b.inputs.setIfInBounds index t' } := by
  unfold Bench.onInput
  simp only [Work.run_bind, Work.run_get, Work.run_liftM, bind_assoc, pure_bind, ht, Site.demand]
  apply hwork.bind
  intro out hout
  obtain ⟨outcome, t'⟩ := out
  obtain ⟨rfl, hafter⟩ := hout
  exact Meets.pure ⟨rfl, t', hafter, rfl⟩

theorem Feeds.exists_input {index : Nat} {rest : List τ} (h : b.Feeds contents rests)
    (hrest : rests[index]? = some rest) :
    ∃ t content, b.inputs[index]? = some t ∧ contents[index]? = some content ∧
      t.Feeds content rest := by
  have hlt : index < rests.length := (List.getElem?_eq_some_iff.mp hrest).1
  have hin : index < b.inputs.size := by rw [h.size_eq]; exact hlt
  have hcontent : index < contents.length := by rw [h.length_eq]; exact hlt
  have hfeeds := h.input index _ _ rest (Array.getElem?_eq_getElem hin)
    (List.getElem?_eq_getElem hcontent) hrest
  exact ⟨_, _, Array.getElem?_eq_getElem hin, List.getElem?_eq_getElem hcontent, hfeeds⟩

/-- An input that has another rest now. -/
theorem Feeds.set {index : Nat} {content rest' : List τ} {t' : Tape τ}
    (h : b.Feeds contents rests) (hcontent : contents[index]? = some content)
    (ht' : t'.Feeds content rest') :
    Feeds { b with inputs := b.inputs.setIfInBounds index t' } contents
      (rests.set index rest') := by
  have hlt' : index < contents.length := (List.getElem?_eq_some_iff.mp hcontent).1
  have hlt : index < rests.length := by rw [← h.length_eq]; exact hlt'
  have hin : index < b.inputs.size := by rw [h.size_eq]; exact hlt
  constructor
  · rw [Array.size_setIfInBounds, List.length_set, h.size_eq]
  · rw [List.length_set, h.length_eq]
  · intro i s content rest hs hc hr
    rw [Array.getElem?_setIfInBounds] at hs
    rw [List.getElem?_set] at hr
    by_cases hi : index = i
    · subst hi
      rw [if_pos rfl, if_pos hin, Option.some.injEq] at hs
      rw [if_pos rfl, if_pos hlt, Option.some.injEq] at hr
      rw [hcontent, Option.some.injEq] at hc
      rwa [← hs, ← hr, ← hc]
    · rw [if_neg hi] at hs hr
      exact h.input i s content rest hs hc hr

/-- Work on one input, if it leaves the input with another rest. -/
theorem Feeds.yields_onInput {index : Nat} {rest rest' : List τ} {work : TapeM τ α} {a : α}
    {P : Tape τ → Prop} (h : b.Feeds contents rests) (hrest : rests[index]? = some rest)
    (hwork : ∀ (t : Tape τ) content, t.Feeds content rest →
      Yields ref (work t) fun out => out.1 = .ok a ∧ out.2.Feeds content rest' ∧ P out.2) :
    Yields ref ((onInput index work : BenchM π τ α) b) fun out =>
      out.1 = .ok a ∧ ∃ t', P t' ∧ out.2 = { b with inputs := b.inputs.setIfInBounds index t' } ∧
        out.2.Feeds contents (rests.set index rest') := by
  obtain ⟨t, content, ht, hcontent, hfeeds⟩ := h.exists_input hrest
  have hone := Bench.yields_onInput (b := b) (P := fun t' => t'.Feeds content rest' ∧ P t') ht
    (hwork t content hfeeds)
  apply hone.mono
  intro out hout
  obtain ⟨hok, t', hafter, hbench⟩ := hout
  refine ⟨hok, t', hafter.2, hbench, ?_⟩
  rw [hbench]
  exact h.set hcontent hafter.1

variable [LawfulFixedWidth τ]

theorem Feeds.yields_next {index : Nat} {rest : List τ} (h : b.Feeds contents rests)
    (hrest : rests[index]? = some rest) :
    Yields ref ((onInput index Tape.next? : BenchM π τ (Option τ)) b) fun out =>
      out.1 = .ok rest.head? ∧ out.2.Feeds contents (rests.set index rest.tail) ∧
        out.2.toTarget = b.toTarget := by
  have hnext : Yields ref ((onInput index Tape.next? : BenchM π τ (Option τ)) b) _ :=
    h.yields_onInput (P := fun _ => True) hrest fun t content hfeeds =>
      (Tape.yields_next? hfeeds).mono fun _ hout => ⟨hout.1, hout.2, trivial⟩
  apply hnext.mono
  intro out hout
  obtain ⟨hok, t', -, hbench, hafter⟩ := hout
  exact ⟨hok, hafter, by rw [hbench]⟩

/-- The first record of each input that was not looked at yet. -/
theorem Feeds.yields_readFirsts (done todo : List (List τ)) (h : b.Feeds contents (done ++ todo)) :
    Yields ref ((readFirsts done.length todo.length : BenchM π τ (List (Option τ))) b) fun out =>
      out.1 = .ok (todo.map List.head?) ∧
        out.2.Feeds contents (done ++ todo.map List.tail) ∧ out.2.toTarget = b.toTarget := by
  induction todo generalizing done b with
  | nil => exact Meets.pure ⟨rfl, h, rfl⟩
  | cons rest todo ih =>
    have hrest : (done ++ rest :: todo)[done.length]? = some rest := by
      rw [List.getElem?_append_right (Nat.le_refl _), Nat.sub_self, List.getElem?_cons_zero]
    have hset : (done ++ rest :: todo).set done.length rest.tail =
        (done ++ [rest.tail]) ++ todo := by
      rw [List.set_append_right _ _ (Nat.le_refl _), Nat.sub_self, List.set_cons_zero,
        List.append_assoc, List.singleton_append]
    rw [List.length_cons, Bench.readFirsts]
    simp only [Work.run_bind]
    refine (h.yields_next hrest).bind ?_
    rintro ⟨_, b'⟩ ⟨rfl, hfeeds, htarget⟩
    simp only at hfeeds htarget ⊢
    rw [hset] at hfeeds
    have hnext := ih (done ++ [rest.tail]) hfeeds
    rw [List.length_append, List.length_singleton] at hnext
    refine hnext.bind ?_
    rintro ⟨_, b''⟩ ⟨rfl, hfeeds', htarget'⟩
    refine Meets.pure ⟨rfl, ?_, htarget'.trans htarget⟩
    rw [List.append_assoc] at hfeeds'
    exact hfeeds'

/-- Afterwards none of these inputs holds a block, and no other holds one that held none. -/
theorem Feeds.yields_releaseInputs (indices : List Nat) (h : b.Feeds contents rests)
    (hindices : ∀ i ∈ indices, i < rests.length) :
    Yields ref ((releaseInputs indices : BenchM π τ Unit) b) fun out =>
      out.1 = .ok () ∧ out.2.Feeds contents rests ∧ out.2.toTarget = b.toTarget ∧
        ∀ (i : Nat) (t : Tape τ), out.2.inputs[i]? = some t →
          (i ∈ indices ∨ ∀ s : Tape τ, b.inputs[i]? = some s → s.block = none) →
            t.block = none := by
  induction indices generalizing b with
  | nil =>
    refine Meets.pure ⟨rfl, h, rfl, ?_⟩
    intro i t ht hnone
    rcases hnone with hmem | hnone
    · contradiction
    · exact hnone t ht
  | cons index indices ih =>
    have hlt := hindices index List.mem_cons_self
    rw [Bench.releaseInputs]
    simp only [Work.run_bind]
    have hone : Yields ref ((onInput index Tape.releaseBlock : BenchM π τ Unit) b) _ :=
      h.yields_onInput (P := fun t => t.block = none) (List.getElem?_eq_getElem hlt)
        fun _ _ hfeeds => Tape.yields_releaseBlock_feeds hfeeds
    apply hone.bind
    intro out hout
    obtain ⟨outcome, b'⟩ := out
    obtain ⟨rfl, t', hblock, rfl, hfeeds⟩ := hout
    rw [List.set_getElem_self] at hfeeds
    apply (ih hfeeds fun i hi => hindices i (List.mem_cons_of_mem _ hi)).mono
    intro out hout
    obtain ⟨hok, hafter, hsame, hreleased⟩ := hout
    refine ⟨hok, hafter, hsame, ?_⟩
    intro i t ht hnone
    apply hreleased i t ht
    by_cases hi : i = index
    · right
      intro s hs
      rw [Array.getElem?_setIfInBounds, if_pos hi.symm] at hs
      split at hs
      · rw [← Option.some.inj hs]
        exact hblock
      · contradiction
    · rcases hnone with hmem | hnone
      · left
        exact (List.mem_cons.mp hmem).resolve_left hi
      · right
        intro s hs
        rw [Array.getElem?_setIfInBounds, if_neg (Ne.symm hi)] at hs
        exact hnone s hs

end Bench

end BoundedMerge
