import BoundedMerge.Proofs.Selection.Contents
import BoundedMerge.Proofs.Tape.Denials
import Mathlib.Data.Multiset.ZeroCons

/-!
What a selection answers over its whole life. What it holds is a multiset of nodes: a call to
enter a node adds it, and a call to extract takes out a node that comes after no other, or finds
nothing where nothing is held. So the nodes that are extracted until none is left come in order.
-/

namespace BoundedMerge

open SiteM

variable {κ : Type}

def Node.NotAfter (cmp : κ → κ → Ordering) (a b : Node κ) : Prop :=
  ((cmp a.key b.key).then (compare a.source b.source)).isLE = true

namespace Selection

inductive Call (κ : Type)
  | insert (key : κ) (source : Nat)
  | extract

structure Reply (κ : Type) where
  given : Option (Node κ)
  size : Nat

/-- No call enters a node where as many as `capacity` are held. -/
def Call.Fit (capacity : Nat) : Nat → List (Call κ) → Prop
  | _, [] => True
  | held, .insert _ _ :: calls => held < capacity ∧ Fit capacity (held + 1) calls
  | held, .extract :: calls => Fit capacity (held - 1) calls

/-- The reply to a call where the nodes in `held` are held, and the nodes held afterwards. -/
inductive Reply.Answers (cmp : κ → κ → Ordering) :
    Multiset (Node κ) → Call κ → Reply κ → Multiset (Node κ) → Prop
  | entered (held : Multiset (Node κ)) (key : κ) (source : Nat) :
      Answers cmp held (.insert key source) ⟨none, held.card + 1⟩ (⟨key, source⟩ ::ₘ held)
  | nothing : Answers cmp 0 .extract ⟨none, 0⟩ 0
  | least (node : Node κ) (rest : Multiset (Node κ)) (h : ∀ other ∈ rest, node.NotAfter cmp other) :
      Answers cmp (node ::ₘ rest) .extract ⟨some node, rest.card⟩ rest

inductive Reply.AnswerAll (cmp : κ → κ → Ordering) :
    Multiset (Node κ) → List (Call κ) → List (Reply κ) → Multiset (Node κ) → Prop
  | nil (held : Multiset (Node κ)) : AnswerAll cmp held [] [] held
  | cons {held between after : Multiset (Node κ)} {call : Call κ}
      {calls : List (Call κ)} {reply : Reply κ} {replies : List (Reply κ)} :
      reply.Answers cmp held call between → AnswerAll cmp between calls replies after →
      AnswerAll cmp held (call :: calls) (reply :: replies) after

theorem Call.fit_extracts (capacity held count : Nat) :
    Fit capacity held (List.replicate count (extract : Call κ)) := by
  induction count generalizing held with
  | zero => trivial
  | succ count ih => exact ih (held - 1)

/-- Extracting to the end gives all that is held in order, and then nothing. -/
theorem Reply.AnswerAll.drain {cmp : κ → κ → Ordering} {held after : Multiset (Node κ)}
    {replies : List (Reply κ)} {extra : Nat}
    (h : AnswerAll cmp held (List.replicate (held.card + extra) .extract) replies after) :
    after = 0 ∧ ∃ nodes : List (Node κ), (nodes : Multiset (Node κ)) = held ∧
      nodes.Pairwise (Node.NotAfter cmp) ∧
      replies.map Reply.given = nodes.map some ++ List.replicate extra none := by
  generalize hcount : held.card + extra = count at h
  induction count generalizing held replies extra with
  | zero =>
    obtain rfl : held = 0 := Multiset.card_eq_zero.mp (by omega)
    obtain rfl : extra = 0 := by rw [Multiset.card_zero] at hcount; omega
    cases h
    exact ⟨rfl, [], rfl, List.Pairwise.nil, rfl⟩
  | succ count ih =>
    rw [List.replicate_succ] at h
    cases h with
    | @cons _ between _ _ _ _ _ hfirst hrest =>
      cases hfirst with
      | nothing =>
        obtain rfl : extra = count + 1 := by rw [Multiset.card_zero] at hcount; omega
        have hcount' : Multiset.card (0 : Multiset (Node κ)) + count = count := Nat.zero_add count
        obtain ⟨hafter, nodes, hheld, horder, hgiven⟩ := ih hcount' hrest
        obtain rfl : nodes = [] := Multiset.coe_eq_zero nodes |>.mp hheld
        refine ⟨hafter, [], rfl, List.Pairwise.nil, ?_⟩
        rw [List.map_cons, hgiven, List.replicate_succ]
        rfl
      | least node rest hleast =>
        rw [Multiset.card_cons] at hcount
        have hcount' : between.card + extra = count := by omega
        obtain ⟨hafter, nodes, hheld, horder, hgiven⟩ := ih hcount' hrest
        refine ⟨hafter, node :: nodes, ?_, List.Pairwise.cons ?_ horder, ?_⟩
        · rw [← Multiset.cons_coe, hheld]
        · intro other hother
          exact hleast other (by rwa [← hheld, Multiset.mem_coe])
        · rw [List.map_cons, hgiven, List.map_cons, List.cons_append]

def answer (cmp : κ → κ → Ordering) (s : Selection κ) :
    Call κ → SiteM (Reply κ × Selection κ)
  | .insert key source => do
    let s ← s.insert cmp key source
    return (⟨none, s.size⟩, s)
  | .extract =>
    let (given, s) := s.extract cmp
    return (⟨given, s.size⟩, s)

def serve (cmp : κ → κ → Ordering) (s : Selection κ) :
    List (Call κ) → SiteM (List (Reply κ) × Selection κ)
  | [] => return ([], s)
  | call :: calls => do
    let (reply, s) ← s.answer cmp call
    let (replies, s) ← s.serve cmp calls
    return (reply :: replies, s)

/-- The selection is a heap of the nodes in `held`, and has room for `capacity` of them. -/
structure Holds (cmp : κ → κ → Ordering) (capacity : Nat) (s : Selection κ)
    (held : Multiset (Node κ)) : Prop where
  room : s.capacity = capacity
  nodes : (s.nodes.toList : Multiset (Node κ)) = held
  inOrder : Heap.InOrder (Node.before cmp) s.nodes
  within : held.card ≤ capacity

variable {cmp : κ → κ → Ordering} {capacity : Nat} {s : Selection κ} {held : Multiset (Node κ)}

theorem Holds.size_eq (h : s.Holds cmp capacity held) : s.size = held.card := by
  rw [← h.nodes, Multiset.coe_card, Array.length_toList]
  rfl

theorem Holds.isEmpty_iff (h : s.Holds cmp capacity held) : s.isEmpty = true ↔ held = 0 := by
  rw [← Multiset.card_eq_zero, ← h.size_eq, isEmpty, Array.isEmpty_iff_size_eq_zero]
  rfl

/-- One call is answered from the nodes that are held. -/
theorem Holds.answer [Std.TransCmp cmp] (h : s.Holds cmp capacity held) {call : Call κ}
    {calls : List (Call κ)} (hfit : Call.Fit capacity held.card (call :: calls)) :
    ∃ reply s' after, s.answer cmp call = pure (reply, s') ∧
      reply.Answers cmp held call after ∧ s'.Holds cmp capacity after ∧
      Call.Fit capacity after.card calls := by
  cases call with
  | insert key source =>
    obtain ⟨hroom, hfit⟩ := hfit
    have hsize : s.nodes.size < s.capacity := by
      have := h.size_eq
      rw [size] at this
      rw [h.room]
      omega
    have hafter : ({ s with
        nodes := Heap.push (Node.before cmp) s.nodes { key, source } } : Selection κ).Holds
        cmp capacity (⟨key, source⟩ ::ₘ held) := by
      refine ⟨h.room, ?_, Heap.push_inOrder (Node.consistent cmp) h.inOrder _, ?_⟩
      · rw [← h.nodes, Multiset.cons_coe, Multiset.coe_eq_coe]
        exact Heap.push_perm _ _ _
      · rw [Multiset.card_cons]
        exact hroom
    refine ⟨⟨none, held.card + 1⟩, _, _, ?_, .entered held key source, hafter, ?_⟩
    · simp only [Selection.answer, insert_eq hsize, pure_bind, hafter.size_eq, Multiset.card_cons]
    · rwa [Multiset.card_cons]
  | extract =>
    by_cases hempty : s.nodes.toList = []
    · obtain rfl : held = 0 := by rw [← h.nodes, hempty, Multiset.coe_nil]
      refine ⟨⟨none, 0⟩, s, 0, ?_, .nothing, h, hfit⟩
      simp only [Selection.answer, extract_eq_none hempty, h.size_eq, Multiset.card_zero]
    · obtain ⟨node, rest, hextract, hperm, horder⟩ := extract_eq_some cmp hempty
      obtain ⟨hinOrder, hleast⟩ := horder inferInstance h.inOrder
      have hheld : held = node ::ₘ (rest.toList : Multiset (Node κ)) := by
        rw [← h.nodes, Multiset.cons_coe, Multiset.coe_eq_coe]
        exact hperm
      subst hheld
      have hwithin := h.within
      rw [Multiset.card_cons] at hwithin
      have hafter : ({ s with nodes := rest } : Selection κ).Holds cmp capacity
          (rest.toList : Multiset (Node κ)) :=
        ⟨h.room, rfl, hinOrder, by omega⟩
      refine ⟨⟨some node, Multiset.card (rest.toList : Multiset (Node κ))⟩, _, _, ?_,
        .least node _ fun other hother => ?_, hafter, ?_⟩
      · simp only [Selection.answer, hextract, hafter.size_eq]
      · rw [Multiset.mem_coe] at hother
        have hbehind := hleast other (hperm.mem_iff.mpr (List.mem_cons_of_mem _ hother))
        exact (lessBy_eq_false (fun a b : Node κ =>
          (cmp a.key b.key).then (compare a.source b.source)) node other).mp hbehind
      · rwa [Call.Fit, Multiset.card_cons, Nat.add_sub_cancel] at hfit

/-- A whole history is answered from the nodes that are held. -/
theorem Holds.serve [Std.TransCmp cmp] (h : s.Holds cmp capacity held)
    {calls : List (Call κ)} (hfit : Call.Fit capacity held.card calls) :
    ∃ replies s' after, s.serve cmp calls = pure (replies, s') ∧
      Reply.AnswerAll cmp held calls replies after ∧ s'.Holds cmp capacity after ∧
      ∀ reply ∈ replies, reply.size ≤ capacity := by
  induction calls generalizing s held with
  | nil => exact ⟨[], s, held, rfl, .nil held, h, by simp⟩
  | cons call calls ih =>
    obtain ⟨reply, s₁, between, hanswer, hfirst, hbetween, hfit⟩ := h.answer hfit
    obtain ⟨replies, s₂, after, hserve, hrest, hafter, hsizes⟩ := ih hbetween hfit
    refine ⟨reply :: replies, s₂, after, ?_, .cons hfirst hrest, hafter, ?_⟩
    · simp only [Selection.serve, hanswer, hserve, pure_bind]
    · have hwithin := hbetween.within
      have hsize : reply.size = between.card := by
        cases hfirst with
        | entered => rw [Multiset.card_cons]
        | nothing => rfl
        | least => rfl
      intro r hr
      rcases List.mem_cons.mp hr with rfl | hr
      · omega
      · exact hsizes r hr

/-- The memory for its nodes is what a new selection may be denied, and nothing else. -/
theorem ensures_new (cmp : κ → κ → Ordering) (capacity nodeSize : Nat) (site : Site) :
    (new capacity nodeSize : SiteM (Selection κ)).Ensures site
      (fun s _ => s.Holds cmp capacity 0)
      (fun halt _ => site.Denies (nodeSize * capacity) halt) := by
  unfold new
  rw [ensures_bind]
  apply (Site.ensures_provide (nodeSize * capacity)).mono
  · intro _ after hasked
    rw [hasked, ensures_bind]
    apply (Lease.ensures_take (nodeSize * capacity)).mono
    · intro lease _ _
      rw [ensures_pure]
      refine ⟨rfl, rfl, ?_, Nat.zero_le _⟩
      intro i _ a b ha
      simp at ha
    · intro halt _ hh
      exact hh.of_askedOnce.denies
  · intro halt _ hh
    exact .of_provide hh

structure Outcome (κ : Type) where
  replies : List (Reply κ)
  left : Selection κ
  drained : List (Reply κ)
  last : Selection κ

/-- A new selection serves a history. Then it is emptied, and asked for `extra` nodes more. -/
def live (cmp : κ → κ → Ordering) (capacity nodeSize : Nat) (history : List (Call κ))
    (extra : Nat) : SiteM (Outcome κ) := do
  let s ← new capacity nodeSize
  let (replies, left) ← s.serve cmp history
  let (drained, last) ← left.serve cmp (List.replicate (left.size + extra) .extract)
  return { replies, left, drained, last }

/-- A selection is a priority multiset with room for `capacity` nodes: a history that never
enters a node where it is full is answered from the nodes entered and not yet extracted, the
least one first, and what is left comes out in order. -/
theorem live_refines_multiset (cmp : κ → κ → Ordering) [Std.TransCmp cmp]
    (capacity nodeSize : Nat) (history : List (Call κ)) (hfit : Call.Fit capacity 0 history)
    (extra : Nat) (site : Site) :
    (live cmp capacity nodeSize history extra).Ensures site
      (fun out _ => ∃ held : Multiset (Node κ),
        Reply.AnswerAll cmp 0 history out.replies held ∧
        (∀ reply ∈ out.replies, reply.size ≤ capacity) ∧
        out.left.size = held.card ∧ (out.left.isEmpty = true ↔ held = 0) ∧
        ∃ nodes : List (Node κ), (nodes : Multiset (Node κ)) = held ∧
          nodes.Pairwise (Node.NotAfter cmp) ∧
          out.drained.map Reply.given = nodes.map some ++ List.replicate extra none ∧
          out.last.isEmpty = true)
      (fun halt _ => site.Denies (nodeSize * capacity) halt) := by
  unfold live
  rw [ensures_bind]
  apply (ensures_new cmp capacity nodeSize site).mono
  · intro s after hs
    obtain ⟨replies, left, held, hserve, hanswers, hheld, hsizes⟩ := hs.serve hfit
    obtain ⟨drained, last, final, hdrain, hlast, hfinal, -⟩ :=
      hheld.serve (Call.fit_extracts capacity held.card (held.card + extra))
    obtain ⟨rfl, nodes, hnodes, horder, hgiven⟩ := hlast.drain
    simp only [hserve, pure_bind, hheld.size_eq, hdrain]
    rw [ensures_pure]
    exact ⟨held, hanswers, hsizes, hheld.size_eq, hheld.isEmpty_iff, nodes, hnodes, horder, hgiven,
      hfinal.isEmpty_iff.mpr rfl⟩
  · intro halt _ hdenied
    exact hdenied

/-- Two nodes with equal keys, one that is extracted and one more in its place. -/
theorem live_refines_multiset_ties :
    Call.Fit 2 0 [.insert 5 1, .insert 5 0, .extract, .insert 4 7] ∧
      (live (compare : Nat → Nat → Ordering) 2 16 [.insert 5 1, .insert 5 0, .extract, .insert 4 7]
        1).Ensures (Site.real default .reliable) (fun out _ => ∃ held : Multiset (Node Nat),
          Reply.AnswerAll compare 0 [.insert 5 1, .insert 5 0, .extract, .insert 4 7] out.replies
            held ∧
          (∀ reply ∈ out.replies, reply.size ≤ 2) ∧
          out.left.size = held.card ∧ (out.left.isEmpty = true ↔ held = 0) ∧
          ∃ nodes : List (Node Nat), (nodes : Multiset (Node Nat)) = held ∧
            nodes.Pairwise (Node.NotAfter compare) ∧
            out.drained.map Reply.given = nodes.map some ++ List.replicate 1 none ∧
            out.last.isEmpty = true)
        (fun halt _ => (Site.real default .reliable).Denies (16 * 2) halt) := by
  have hfit : Call.Fit 2 0 [.insert 5 1, .insert 5 0, .extract, .insert 4 7] := by
    simp [Call.Fit]
  exact ⟨hfit, live_refines_multiset compare 2 16 _ hfit 1 (Site.real default .reliable)⟩

end Selection

end BoundedMerge
