import BoundedMerge.Proofs.Random.Draw
import BoundedMerge.Proofs.Selection.Contents
import BoundedMerge.Proofs.Strategy.Interleaving
import BoundedMerge.Strategy.Interleave

/-!
Interleaving inputs at random. Whatever words are drawn, every input with a pending record is in
contention, an input that has none drops out, and the records seen are those emitted and those
pending. So a merge emits an interleaving of its inputs and none of what it takes for granted
fails.
-/

namespace BoundedMerge.Interleave

open SiteM

variable {γ τ : Type} {ref : Site}

def pendings (inputs : List (Option τ)) : Nat := inputs.countP Option.isSome

/-- The record that was seen where the last one was taken, counted. -/
def news (lastTaken : Option Nat) (inputs : List (Option τ)) : Nat :=
  match lastTaken with
  | none => 0
  | some i => if (inputs[i]?.join).isSome then 1 else 0

def Contends (s : Selection UInt32) (source : Nat) (inputs : List (Option τ)) : Prop :=
  ∀ i x, inputs[i]? = some (some x) → ∃ node ∈ s.nodes.toList, node.source = source + i

/-- The strategy is in the middle of a merge of `inputs`, with `size` of them in contention. -/
structure Ready (p : Interleave γ) (inputs : List (Option τ)) (size : Nat) : Prop where
  holds : ∃ s, p.selection = some s ∧ s.nodes.size = size ∧ size ≤ inputs.length ∧
    inputs.length ≤ s.capacity ∧ (∀ node ∈ s.nodes.toList, node.source < inputs.length) ∧
    Contends s 0 inputs
  arity_eq : p.arity = inputs.length
  last : ∀ i, p.lastTaken = some i → i < inputs.length
  seen_eq : p.seen + news p.lastTaken inputs = p.emitted + pendings inputs

theorem pendings_eq_zero {inputs : List (Option τ)} (h : inputs.all Option.isNone = true) :
    pendings inputs = 0 := by
  rw [pendings, List.countP_eq_zero]
  intro x hx
  simpa using List.all_eq_true.mp h x hx

theorem pendings_set (inputs : List (Option τ)) (i : Nat) (x : τ) (y : Option τ)
    (h : inputs[i]? = some (some x)) :
    pendings (inputs.set i y) + 1 = pendings inputs + if y.isSome then 1 else 0 := by
  obtain ⟨hlt, hget⟩ := List.getElem?_eq_some_iff.mp h
  have hpos : 0 < pendings inputs :=
    List.countP_pos_iff.mpr ⟨some x, List.mem_of_getElem? h, rfl⟩
  simp only [pendings] at hpos ⊢
  rw [List.countP_set hlt, hget]
  simp only [Option.isSome_some, if_true]
  omega

/-- Nothing is pending if no input is in contention. -/
theorem Contends.all_isNone {s : Selection UInt32} {source : Nat} {inputs : List (Option τ)}
    (h : Contends s source inputs) (hnone : s.nodes.toList = []) :
    inputs.all Option.isNone = true := by
  rw [List.all_eq_true]
  intro x hx
  obtain ⟨i, hi⟩ := List.mem_iff_getElem?.mp hx
  cases x with
  | none => rfl
  | some x =>
    obtain ⟨node, hnode, -⟩ := h i x hi
    simp [hnone] at hnode

/-- All inputs but the one that is extracted stay in contention. -/
theorem Contends.extracted {s : Selection UInt32} {source : Nat} {inputs : List (Option τ)}
    {node : Node UInt32} {rest : Array (Node UInt32)} (h : Contends s source inputs)
    (hperm : s.nodes.toList.Perm (node :: rest.toList)) {i : Nat} {x : τ}
    (hx : inputs[i]? = some (some x)) (hne : source + i ≠ node.source) :
    ∃ other ∈ rest.toList, other.source = source + i := by
  obtain ⟨other, hother, hi⟩ := h i x hx
  rcases List.mem_cons.mp (hperm.mem_iff.mp hother) with rfl | hmem
  · exact absurd hi.symm hne
  · exact ⟨other, hmem, hi⟩

theorem Contends.insert {s : Selection UInt32} {source : Nat} {inputs : List (Option τ)}
    {nodes : Array (Node UInt32)} (node : Node UInt32) (h : Contends s source inputs)
    (hperm : nodes.toList.Perm (node :: s.nodes.toList)) :
    Contends { s with nodes } source inputs := by
  intro i x hx
  obtain ⟨other, hother, hsource⟩ := h i x hx
  exact ⟨other, hperm.mem_iff.mpr (List.mem_cons_of_mem _ hother), hsource⟩

variable [WordSource γ]

theorem enter_eq (s : Selection UInt32) (input : Nat) (source : γ)
    (h : s.nodes.size < s.capacity) :
    ∃ nodes, enter s input source = pure ({ s with nodes }, (WordSource.next source).2) ∧
      nodes.toList.Perm (⟨(WordSource.next source).1, input⟩ :: s.nodes.toList) ∧
      (Heap.InOrder (Node.before compare) s.nodes →
        Heap.InOrder (Node.before compare) nodes) := by
  refine ⟨_, ?_, Heap.push_perm (Node.before compare) _ _, fun horder => ?_⟩
  · simp only [enter, Selection.insert_eq h, pure_bind]
  · exact Heap.push_inOrder (Node.consistent compare) horder _

/-- Inputs that are entered come into contention. -/
theorem enterAll_eq (s : Selection UInt32) (source : γ) (input bound : Nat)
    (inputs : List (Option τ)) (hroom : s.nodes.size + inputs.length ≤ s.capacity)
    (hbound : input + inputs.length ≤ bound)
    (hs : ∀ node ∈ s.nodes.toList, node.source < bound) :
    ∃ nodes source', enterAll s source input inputs = pure ({ s with nodes }, source') ∧
      WordSource.Reaches source source' ∧ nodes.size = s.nodes.size + pendings inputs ∧
      (∀ node ∈ nodes.toList, node.source < bound) ∧
      Contends { s with nodes } input inputs := by
  induction inputs generalizing input with
  | nil => exact ⟨s.nodes, source, rfl, .here, rfl, hs, fun i x hx => by simp at hx⟩
  | cons x inputs ih =>
    rw [List.length_cons] at hroom hbound
    obtain ⟨nodes, source', htail, hreaches, hsize, hnodes, hcontends⟩ :=
      ih (input + 1) (by omega) (by omega)
    have hle : pendings inputs ≤ inputs.length := List.countP_le_length
    have hshift (nodes : Array (Node UInt32)) (h : Contends { s with nodes } (input + 1) inputs)
        (hfirst : ∀ y, x = some y → ∃ node ∈ nodes.toList, node.source = input) :
        Contends { s with nodes } input (x :: inputs) := by
      intro i y hy
      cases i with
      | zero => exact hfirst y (by simpa using hy)
      | succ i =>
        obtain ⟨node, hnode, hsource⟩ := h i y (by simpa using hy)
        exact ⟨node, hnode, by omega⟩
    rw [enterAll, htail, pure_bind]
    cases x with
    | none => exact ⟨nodes, source', rfl, hreaches, by simpa [pendings] using hsize, hnodes,
        hshift nodes hcontends (by simp)⟩
    | some x =>
      have hroom' : nodes.size < s.capacity := by omega
      obtain ⟨nodes', henter, hperm, -⟩ := enter_eq { s with nodes } input source' hroom'
      refine ⟨nodes', _, henter, hreaches.next, ?_, ?_,
        hshift nodes' (hcontends.insert _ hperm) ?_⟩
      · have hlen := hperm.length_eq
        simp only [List.length_cons, Array.length_toList] at hlen
        simp only [pendings, List.countP_cons, Option.isSome_some, if_true] at hsize ⊢
        omega
      · intro node hnode
        rcases List.mem_cons.mp (hperm.mem_iff.mp hnode) with rfl | hnode
        · simp only
          omega
        · exact hnodes node hnode
      · exact fun _ _ => ⟨_, hperm.mem_iff.mpr List.mem_cons_self, rfl⟩

/-- The least node of the selection of `p` is out, and `p'` holds all others and those that were
entered. -/
def Replaces (p p' : Interleave γ) (least : Node UInt32) (entered : List (Node UInt32)) : Prop :=
  ∃ s s' rest, p.selection = some s ∧ p'.selection = some s' ∧
    s.nodes.toList.Perm (least :: rest) ∧ s'.nodes.toList.Perm (entered ++ rest) ∧
    (Heap.InOrder (Node.before compare) s.nodes →
      Heap.InOrder (Node.before compare) s'.nodes ∧
        ∀ other ∈ s.nodes.toList, Node.before compare other least = false)

omit [WordSource γ] in
theorem Ready.recount {p : Interleave γ} {inputs : List (Option τ)} {size : Nat}
    (h : p.Ready inputs size) :
    Interleave.recount p inputs = pure (p.emitted + pendings inputs) := by
  rw [← h.seen_eq, Interleave.recount]
  cases htaken : p.lastTaken with
  | none => rfl
  | some i =>
    have hget := List.getElem?_eq_getElem (h.last i htaken)
    simp only [hget, news, Option.join_some, Site.demand, pure_bind]
    split <;> rfl

omit [WordSource γ] in
/-- An input that turned out to be used up drops out. -/
theorem Ready.dropped {p : Interleave γ} {inputs : List (Option τ)} {size : Nat}
    (h : p.Ready inputs size) {s : Selection UInt32} (hs : p.selection = some s)
    {node : Node UInt32} {rest : Array (Node UInt32)}
    (hperm : s.nodes.toList.Perm (node :: rest.toList)) (hget : inputs[node.source]? = some none) :
    rest.size + 1 = size ∧
      ({ p with selection := some { s with nodes := rest }, lastTaken := none,
                seen := p.emitted + pendings inputs } : Interleave γ).Ready inputs rest.size := by
  obtain ⟨⟨s', hs', hsize, hle, hroom, hsource, hcontends⟩, harity, -, -⟩ := h
  obtain rfl : s = s' := Option.some.inj (hs.symm.trans hs')
  have hlen := hperm.length_eq
  simp only [List.length_cons, Array.length_toList] at hlen
  refine ⟨by omega, ⟨_, rfl, rfl, by omega, hroom, ?_, ?_⟩, harity, by simp, rfl⟩
  · intro other hother
    exact hsource other (hperm.mem_iff.mpr (List.mem_cons_of_mem _ hother))
  · intro i x hx
    refine hcontends.extracted hperm hx ?_
    rw [Nat.zero_add]
    rintro rfl
    simp [hget] at hx

omit [WordSource γ] in
/-- An input whose record was taken stays in contention under another word, whatever its next record
is. -/
theorem Ready.reentered {p : Interleave γ} {inputs : List (Option τ)} {size : Nat}
    (h : p.Ready inputs size) {s : Selection UInt32} (hs : p.selection = some s)
    {node : Node UInt32} {rest nodes : Array (Node UInt32)} {word : UInt32} {x : τ}
    (hperm : s.nodes.toList.Perm (node :: rest.toList))
    (hget : inputs[node.source]? = some (some x))
    (hperm' : nodes.toList.Perm (⟨word, node.source⟩ :: rest.toList)) (source : γ) (y : Option τ) :
    ({ p with source, selection := some { s with nodes }, lastTaken := some node.source,
              seen := p.emitted + pendings inputs, emitted := p.emitted + 1 } :
      Interleave γ).Ready (inputs.set node.source y) size := by
  obtain ⟨⟨s', hs', hsize, hle, hroom, hsource, hcontends⟩, harity, -, -⟩ := h
  obtain rfl : s = s' := Option.some.inj (hs.symm.trans hs')
  obtain ⟨hlt, -⟩ := List.getElem?_eq_some_iff.mp hget
  have hlen := hperm.length_eq
  have hlen' := hperm'.length_eq
  simp only [List.length_cons, Array.length_toList] at hlen hlen'
  refine ⟨⟨_, rfl, ?_, ?_, ?_, ?_, ?_⟩, ?_, ?_, ?_⟩
  · simp only
    omega
  · rw [List.length_set]
    exact hle
  · rw [List.length_set]
    exact hroom
  · intro other hother
    rw [List.length_set]
    rcases List.mem_cons.mp (hperm'.mem_iff.mp hother) with rfl | hmem
    · exact hlt
    · exact hsource other (hperm.mem_iff.mpr (List.mem_cons_of_mem _ hmem))
  · intro i z hz
    by_cases hi : i = node.source
    · exact ⟨_, hperm'.mem_iff.mpr List.mem_cons_self, by simp only [hi, Nat.zero_add]⟩
    · rw [List.getElem?_set, if_neg (Ne.symm hi)] at hz
      obtain ⟨other, hmem, hother⟩ := hcontends.extracted hperm hz (by omega)
      exact ⟨other, hperm'.mem_iff.mpr (List.mem_cons_of_mem _ hmem), hother⟩
  · rw [List.length_set]
    exact harity
  · intro i hi
    rw [List.length_set, ← Option.some.inj hi]
    exact hlt
  · have hset := pendings_set inputs node.source x y hget
    simp only [news, List.getElem?_set_self hlt, Option.join_some]
    omega

/-- A step ends the merge if nothing is pending, or an input that is used up drops out, or a
pending record is emitted and its input taken; then the input stays in contention under one more
word. -/
theorem Ready.operate {p : Interleave γ} {inputs : List (Option τ)} {size : Nat}
    (h : p.Ready inputs size) :
    (inputs.all Option.isNone = true ∧ ∃ p',
      (Interleave.operate inputs (Taken.none inputs.length) : StrategyM (Interleave γ) _) p =
        (pure (.ok (.done, Taken.none inputs.length), p') : SiteM _) ∧ p'.source = p.source) ∨
    (∃ left p', left + 1 = size ∧
      (Interleave.operate inputs (Taken.none inputs.length) : StrategyM (Interleave γ) _) p =
        (pure (.ok (.skip, Taken.none inputs.length), p') : SiteM _) ∧ p'.source = p.source ∧
      p'.Ready inputs left ∧ ∃ least, Replaces p p' least []) ∨
    ∃ x i p', inputs[i]? = some (some x) ∧
      (Interleave.operate inputs (Taken.none inputs.length) : StrategyM (Interleave γ) _) p =
        (pure (.ok (.emit x, { arity := inputs.length, indices := [i] }), p') : SiteM _) ∧
      p'.source = (WordSource.next p.source).2 ∧ (∀ y, p'.Ready (inputs.set i y) size) ∧
      ∃ word, Replaces p p' ⟨word, i⟩ [⟨(WordSource.next p.source).1, i⟩] := by
  have hrecount := h.recount
  have hready := h
  obtain ⟨⟨s, hs, hsize, hle, hroom, hsource, hcontends⟩, harity, -, -⟩ := h
  unfold Interleave.operate
  simp only [Work.run_bind, Work.run_get, Work.run_liftM, pure_bind, hs, hrecount, harity,
    Site.assert, decide_true, if_true]
  by_cases hnone : s.nodes.toList = []
  · left
    have hall := hcontends.all_isNone hnone
    simp only [Selection.extract_eq_none hnone, Work.run_bind, Work.run_set, Work.run_liftM,
      Work.run_pure, pure_bind, hall, pendings_eq_zero hall, Nat.add_zero, decide_true, if_true]
    exact ⟨trivial, _, rfl, rfl⟩
  · right
    obtain ⟨node, rest, hextract, hperm, hleast⟩ := Selection.extract_eq_some compare hnone
    have hlen := hperm.length_eq
    simp only [List.length_cons, Array.length_toList] at hlen
    have hlt := hsource node (hperm.mem_iff.mpr List.mem_cons_self)
    have hget := List.getElem?_eq_getElem hlt
    simp only [hextract, Work.run_bind, Work.run_liftM, pure_bind, hget, Site.demand]
    cases hinput : inputs[node.source] with
    | none =>
      left
      obtain ⟨hleft, hdropped⟩ := hready.dropped hs hperm (hget.trans (congrArg some hinput))
      rw [harity] at hdropped
      exact ⟨_, _, hleft, rfl, rfl, hdropped, node, s, _, _, hs, rfl, hperm, .refl _,
        hleast inferInstance⟩
    | some x =>
      right
      rw [hinput] at hget
      obtain ⟨nodes, henter, hperm', horder⟩ :=
        enter_eq { s with nodes := rest } node.source p.source (by simp only; omega)
      simp only [henter, Work.run_bind, Work.run_set, Work.run_liftM, Work.run_pure, pure_bind,
        Strategy.take_none hlt]
      refine ⟨x, node.source, _, hget, rfl, rfl, fun y => ?_, node.key, s, _, _, hs, rfl, hperm,
        hperm', fun h => ?_⟩
      · have hreentered := hready.reentered hs hperm hget hperm' (WordSource.next p.source).2 y
        rw [harity] at hreentered
        exact hreentered
      · obtain ⟨hrest, hbefore⟩ := hleast inferInstance h
        exact ⟨horder hrest, hbefore⟩

omit [WordSource γ] in
theorem yields_discard (p : Interleave γ) :
    Yields ref ((discard : StrategyM (Interleave γ) Unit) p) fun out =>
      out = (.ok (), { p with selection := none }) := by
  unfold discard
  simp only [Work.run_bind, Work.run_get, Work.run_modify, pure_bind]
  cases p.selection with
  | none => exact Meets.pure rfl
  | some s =>
    exact Meets.run_liftM ((Yields.release s.lease).mono fun _ _ => rfl)

theorem yields_prepare (p : Interleave γ) (inputs : List (Option τ)) (hinputs : inputs ≠ []) :
    Yields ref ((prepare inputs : StrategyM (Interleave γ) Unit) p) fun out =>
      out.1 = .ok () ∧ WordSource.Reaches p.source out.2.source ∧
        out.2.Ready inputs (pendings inputs) ∧
        ∃ s lease, out.2.selection = some s ∧
          enterAll { capacity := inputs.length, lease } p.source 0 inputs =
            pure (s, out.2.source) := by
  unfold prepare
  rw [if_neg (show ¬inputs.isEmpty = true by simpa using hinputs)]
  refine Meets.run_bind (P := fun out => out = (.ok ⟨⟩, { p with arity := inputs.length })) ?_ ?_
    (by rintro e p' ⟨⟩)
  · exact Meets.pure rfl
  rintro _ _ ⟨⟩
  refine Meets.run_bind (yields_discard _) ?_ (by rintro e p' ⟨⟩)
  rintro _ _ ⟨⟩
  simp only [Work.run_bind, Work.run_get, Work.run_liftM, Work.run_modify, bind_assoc, pure_bind,
    Selection.new]
  refine (Yields.provide _).bind fun _ _ => (Yields.take _).bind fun lease _ => ?_
  have hle : pendings inputs ≤ inputs.length := List.countP_le_length
  obtain ⟨nodes, source', henter, hreaches, hsize, hnodes, hcontends⟩ :=
    enterAll_eq { capacity := inputs.length, lease : Selection UInt32 } p.source 0 inputs.length
      inputs (by simp) (by simp) (by simp)
  rw [show (#[] : Array (Node UInt32)).size = 0 from rfl, Nat.zero_add] at hsize
  rw [henter, pure_bind]
  refine Meets.pure ⟨rfl, hreaches, ⟨⟨_, rfl, hsize, hle, Nat.le_refl _, hnodes, hcontends⟩, rfl,
    ?_, ?_⟩, _, lease, rfl, henter⟩
  · intro i hi
    simp at hi
  · simp only [news, Selection.size, hsize]
    omega

/-- What a step keeps: what was emitted, with any interleaving of what is left of the runs behind
it, is an interleaving of the whole. -/
structure Merging (first : γ) (whole : List (List τ)) (steps : Nat) (p : Interleave γ)
    (runs : List (List τ)) (out : List τ) : Prop where
  ready : ∃ size, p.Ready (runs.map List.head?) size ∧ steps = Strategy.remaining runs + size
  source : WordSource.Reaches first p.source
  joins : ∀ rest, Interleaves runs rest → Interleaves whole (out ++ rest)

structure Merged (first : γ) (whole : List (List τ)) (outcome : Except MergeError Unit)
    (p : Interleave γ) (runs : List (List τ)) (out : List τ) : Prop where
  ok : outcome = .ok ()
  source : WordSource.Reaches first p.source
  empty : ∀ run ∈ runs, run = []
  joins : Interleaves whole out

variable {first : γ}

/-- A step emits one of the records that are left, or drops an input, or there are no records. -/
theorem Ready.stepsTo {I : Nat → Interleave γ → List (List τ) → List τ → Prop}
    {Q : Except MergeError Unit → Interleave γ → List (List τ) → List τ → Prop}
    {p : Interleave γ} {runs : List (List τ)} {size : Nat} {out : List τ}
    (h : p.Ready (runs.map List.head?) size)
    (hdone : ∀ p', (∀ run ∈ runs, run = []) → p'.source = p.source → Q (.ok ()) p' runs out)
    (hskip : ∀ p' left least, p'.source = p.source → p'.Ready (runs.map List.head?) left →
      Replaces p p' least [] → I (Strategy.remaining runs + left) p' runs out)
    (hemit : ∀ p' i x word, (runs.map List.head?)[i]? = some (some x) →
      p'.source = (WordSource.next p.source).2 →
      p'.Ready ((Strategy.advanceOne runs i).map List.head?) size →
      Replaces p p' ⟨word, i⟩ [⟨(WordSource.next p.source).1, i⟩] →
      I (Strategy.remaining (Strategy.advanceOne runs i) + size) p' (Strategy.advanceOne runs i)
        (out ++ [x])) :
    Strategy.StepsTo ref I Q (Strategy.remaining runs + size) p runs out := by
  have hoperate := h.operate
  rw [List.length_map] at hoperate
  unfold Strategy.StepsTo
  change Yields ref ((Interleave.operate (runs.map List.head?) (Taken.none runs.length) :
    StrategyM (Interleave γ) (Step τ × Taken)) p) _
  rcases hoperate with ⟨hnone, p', heq, hsource⟩ |
    ⟨left, p', hleft, heq, hsource, hready, least, hreplaces⟩ |
    ⟨x, i, p', hx, heq, hsource, hready, word, hreplaces⟩
  · have hempty : ∀ run ∈ runs, run = [] := by
      intro run hrun
      rw [List.all_map, List.all_eq_true] at hnone
      simpa using hnone run hrun
    have hall : runs.all List.isEmpty = true :=
      List.all_eq_true.mpr fun run hrun => by simp [hempty run hrun]
    rw [heq]
    apply Meets.pure
    simp only [hall, if_true]
    exact hdone p' hempty hsource
  · rw [heq]
    refine Meets.pure ⟨List.nodup_nil, by simp [Taken.none], ?_⟩
    rw [Strategy.advance_eq _ List.nodup_nil]
    exact ⟨_, by omega, hskip p' left least hsource hready hreplaces⟩
  · rw [heq]
    have hlt : i < runs.length := by
      rw [← List.length_map (f := List.head?)]
      exact (List.getElem?_eq_some_iff.mp hx).1
    have hcount := Strategy.remaining_advanceOne runs i
    rw [hx, Option.join_some, Option.isSome_some, if_pos rfl] at hcount
    have hready' : p'.Ready ((Strategy.advanceOne runs i).map List.head?) size := by
      rw [Strategy.map_advanceOne]
      exact hready _
    have hnodup : [i].Nodup := List.pairwise_singleton _ i
    refine Meets.pure ⟨hnodup, by simpa using hlt, ?_⟩
    rw [Strategy.advance_eq _ hnodup]
    exact ⟨_, by omega, hemit p' i x word hx hsource hready' hreplaces⟩

theorem Merging.done {whole : List (List τ)} {steps : Nat} {p p' : Interleave γ}
    {runs : List (List τ)} {out : List τ} (h : Merging first whole steps p runs out)
    (hempty : ∀ run ∈ runs, run = []) (hsource : p'.source = p.source) :
    Merged first whole (.ok ()) p' runs out := by
  have hjoins := h.joins [] (.done hempty)
  rw [List.append_nil] at hjoins
  refine ⟨rfl, ?_, hempty, hjoins⟩
  rw [hsource]
  exact h.source

theorem steps_merging (whole : List (List τ)) (steps : Nat) (p : Interleave γ)
    (runs : List (List τ)) (out : List τ) (h : Merging first whole steps p runs out) :
    Strategy.StepsTo ref (Merging first whole) (Merged first whole) steps p runs out := by
  have hmerging := h
  obtain ⟨⟨size, hready, rfl⟩, hfirst, hjoins⟩ := h
  apply hready.stepsTo
  · intro p' hempty hsource
    exact hmerging.done hempty hsource
  · intro p' left least hsource hready' _
    refine ⟨⟨left, hready', rfl⟩, ?_, hjoins⟩
    rw [hsource]
    exact hfirst
  · intro p' i x word hx hsource hready' _
    refine ⟨⟨size, hready', rfl⟩, ?_, ?_⟩
    · rw [hsource]
      exact hfirst.next
    · intro rest hrest
      rw [List.append_assoc, List.singleton_append]
      exact hjoins _ (hrest.advanceOne hx)

/-- A merge begins with all records left, and each input in contention has a step of its own. -/
theorem yields_prepare_merging {p : Interleave γ} {runs : List (List τ)}
    (hfirst : WordSource.Reaches first p.source) (hruns : runs ≠ []) :
    Yields ref ((prepare (runs.map List.head?) : StrategyM (Interleave γ) Unit) p) fun out =>
      out.1 = .ok () ∧ ∃ steps < Strategy.stepLimit τ p (runs.map List.length),
        Merging first runs steps out.2 runs [] := by
  apply (yields_prepare p (runs.map List.head?) (by simpa using hruns)).mono
  intro out hout
  obtain ⟨hok, hsource, hready, -⟩ := hout
  refine ⟨hok, Strategy.remaining runs + pendings (runs.map List.head?), ?_, ⟨_, hready, rfl⟩,
    hfirst.trans hsource, fun rest hrest => hrest⟩
  have hle : pendings (runs.map List.head?) ≤ (runs.map List.head?).length := List.countP_le_length
  rw [List.length_map] at hle
  have hlimit : Strategy.stepLimit τ p (runs.map List.length) =
      (runs.map List.length).sum + (runs.map List.length).length + 1 := rfl
  rw [hlimit, Strategy.remaining, List.length_map]
  omega

/-- A pass over runs that are fed from tapes. -/
theorem yields_mergePass [FixedWidth τ] [LawfulFixedWidth τ] {b : Bench (Interleave γ) τ}
    {contents runs : List (List τ)} {start : Reel τ}
    (hfirst : WordSource.Reaches first b.strategy.source)
    (hfeeds : b.Feeds contents runs) (hruns : runs ≠ []) (hshows : b.output.Shows start) :
    Yields ref ((Bench.mergePass : BenchM (Interleave γ) τ Stats) b) fun res =>
      ∃ outcome p runs' out, Merged first runs outcome p runs' out ∧
        res.2.Stands contents start p runs' out ∧
        res.1 = outcome.map fun _ =>
          Bench.tally (Strategy.remaining runs) runs.length runs' out := by
  apply Bench.yields_mergePass (steps_merging runs) ?_ hfeeds hruns hshows
  apply (yields_prepare_merging hfirst hruns).mono
  intro out hout
  obtain ⟨_, p⟩ := out
  obtain ⟨rfl, hmerging⟩ := hout
  exact hmerging

end BoundedMerge.Interleave
