import BoundedMerge.Proofs.Strategy.Interleave
import BoundedMerge.Proofs.Strategy.Scan

/-!
A random merge as a race. Each input that has records left is in contention under a word; the one
with the least word gives its next record and goes on under the next word that is drawn, and all
others keep theirs. So the words alone say which input gives the next record, whatever the records
are, and a merge that draws them from any source takes the inputs in that order.
-/

namespace BoundedMerge

namespace WordSource

variable {γ : Type} [WordSource γ]

def draws : Nat → γ → List UInt32
  | 0, _ => []
  | count + 1, source => (next source).1 :: draws count (next source).2

def behind : Nat → γ → γ
  | 0, source => source
  | count + 1, source => behind count (next source).2

theorem length_draws (count : Nat) (source : γ) : (draws count source).length = count := by
  induction count generalizing source with
  | zero => rfl
  | succ count ih => rw [draws, List.length_cons, ih]

theorem draws_add (count more : Nat) (source : γ) :
    draws (count + more) source = draws count source ++ draws more (behind count source) := by
  induction count generalizing source with
  | zero => rw [Nat.zero_add, draws, behind, List.nil_append]
  | succ count ih => rw [Nat.succ_add, draws, draws, behind, ih, List.cons_append]

theorem behind_succ (count : Nat) (source : γ) :
    behind (count + 1) source = (next (behind count source)).2 := by
  induction count generalizing source with
  | zero => rfl
  | succ count ih => exact ih (next source).2

end WordSource

/-- Words that were written down, and zeros behind them. -/
structure Script where
  words : List UInt32

namespace Script

instance : WordSource Script where
  next script := (script.words.headD 0, ⟨script.words.tail⟩)

theorem draws_eq (words : List UInt32) :
    WordSource.draws words.length (Script.mk words) = words := by
  induction words with
  | nil => rfl
  | cons word words ih => exact congrArg (word :: ·) ih

end Script

namespace Interleave

open SiteM Selection WordSource

variable {γ τ : Type} {ref : Site}

/-- What stands in contention: the word of each input that has records left. -/
def contenders (words : List UInt32) (lengths : List Nat) : List (Option UInt32) :=
  List.zipWith (fun word left => if left = 0 then none else some word) words lengths

/-- The inputs that give the records, one after the other, for as many words as are drawn later.
The input with the least word gives a record and goes on with the next word. -/
def race (words : List UInt32) (lengths : List Nat) : List UInt32 → List Nat
  | [] => []
  | word :: later =>
    match Ordered.scan compare (contenders words lengths) with
    | none => []
    | some (i, _) => i :: race (words.set i word) (lengths.modify i (· - 1)) later

/-- The order in which a merge takes the inputs if it draws these words: first one for each input,
the last input first, and then one for each record. -/
def order (lengths : List Nat) (words : List UInt32) : List Nat :=
  race (words.take lengths.length).reverse lengths (words.drop lengths.length)

def deal (runs : List (List τ)) : List Nat → List τ
  | [] => []
  | i :: order => (runs.getD i []).head?.toList ++ deal (Strategy.advanceOne runs i) order

theorem getElem?_contenders {words : List UInt32} {lengths : List Nat} {i : Nat} {word : UInt32} :
    (contenders words lengths)[i]? = some (some word) ↔
      words[i]? = some word ∧ 0 < lengths[i]?.getD 0 := by
  rw [contenders, List.getElem?_zipWith_eq_some]
  constructor
  · intro h
    obtain ⟨word', left, hword, hleft, hsome⟩ := h
    split at hsome
    · cases hsome
    · cases hsome
      rw [hleft, Option.getD_some]
      exact ⟨hword, by omega⟩
  · intro h
    obtain ⟨hword, hpos⟩ := h
    cases hleft : lengths[i]? with
    | none => simp [hleft] at hpos
    | some left =>
      rw [hleft, Option.getD_some] at hpos
      exact ⟨word, left, hword, rfl, if_neg (by omega)⟩

theorem race_cons {words later : List UInt32} {lengths : List Nat} {i : Nat} {word held : UInt32}
    (h : Ordered.Least compare (contenders words lengths) i held) :
    race words lengths (word :: later) =
      i :: race (words.set i word) (lengths.modify i (· - 1)) later := by
  rw [race, (Ordered.scan_eq_some_iff _ i held).mpr h]

theorem deal_cons {runs : List (List τ)} {i : Nat} {x : τ} (order : List Nat)
    (hx : (runs.map List.head?)[i]? = some (some x)) :
    deal runs (i :: order) = x :: deal (Strategy.advanceOne runs i) order := by
  obtain ⟨tail, hrun⟩ := Strategy.exists_tail hx
  rw [deal, List.getD_eq_getElem?_getD, hrun]
  rfl

theorem advanceOne_eq_modify (runs : List (List τ)) (i : Nat) :
    Strategy.advanceOne runs i = runs.modify i List.tail := by
  rw [Strategy.advanceOne, List.modify_eq_set_getElem?, List.getD_eq_getElem?_getD]
  cases hrun : runs[i]? with
  | none => exact List.set_eq_of_length_le (List.getElem?_eq_none_iff.mp hrun)
  | some run => rfl

theorem lengths_advanceOne (runs : List (List τ)) (i : Nat) :
    (Strategy.advanceOne runs i).map List.length = (runs.map List.length).modify i (· - 1) := by
  refine List.ext_getElem? fun j => ?_
  rw [advanceOne_eq_modify, List.getElem?_map, List.getElem?_modify, List.getElem?_modify,
    List.getElem?_map]
  by_cases hij : i = j <;> cases runs[j]? <;> simp [hij]

/-- The inputs that are held are held under these words, none twice. -/
def Keyed (p : Interleave γ) (words : List UInt32) : Prop :=
  ∃ s, p.selection = some s ∧ Heap.InOrder (Node.before compare) s.nodes ∧
    s.nodes.toList.Subperm (entries 0 (words.map some))

variable {p p' : Interleave γ} {words : List UInt32} {node : Node UInt32}
  {entered : List (Node UInt32)} {i : Nat} {word next : UInt32}

/-- What leaves the selection was held under its word. -/
theorem Keyed.get (h : p.Keyed words) (hreplaces : Replaces p p' ⟨word, i⟩ entered) :
    words[i]? = some word := by
  obtain ⟨s, hs, -, hheld⟩ := h
  obtain ⟨s', -, rest, hs', -, hperm, -⟩ := hreplaces
  obtain rfl := Option.some.inj (hs.symm.trans hs')
  have hmem := hheld.subset (hperm.mem_iff.mpr List.mem_cons_self)
  simpa using ((mem_entries _ _ _).mp hmem).2

theorem Keyed.skip (h : p.Keyed words) (hreplaces : Replaces p p' node []) : p'.Keyed words := by
  obtain ⟨s, hs, horder, hheld⟩ := h
  obtain ⟨s₀, s', rest, hs₀, hs', hperm, hperm', hleast⟩ := hreplaces
  obtain rfl := Option.some.inj (hs.symm.trans hs₀)
  refine ⟨s', hs', (hleast horder).1, ?_⟩
  have hrest : rest.Subperm (node :: rest) := (List.sublist_cons_self node rest).subperm
  exact hperm'.subperm.trans (hrest.trans (hperm.symm.subperm.trans hheld))

theorem Keyed.emit (h : p.Keyed words) (hreplaces : Replaces p p' ⟨word, i⟩ [⟨next, i⟩]) :
    p'.Keyed (words.set i next) := by
  have hword := h.get hreplaces
  have hi : i < words.length := (List.getElem?_eq_some_iff.mp hword).1
  obtain ⟨s, hs, horder, hheld⟩ := h
  obtain ⟨s₀, s', rest, hs₀, hs', hperm, hperm', hleast⟩ := hreplaces
  obtain rfl := Option.some.inj (hs.symm.trans hs₀)
  refine ⟨s', hs', (hleast horder).1, hperm'.subperm.trans ?_⟩
  have hbefore : (words.map some)[i]? = some (some word) := by
    rw [List.getElem?_map, hword, Option.map_some]
  have hafter : ((words.set i next).map some)[i]? = some (some next) := by
    rw [List.getElem?_map, List.getElem?_set_self hi, Option.map_some]
  replace hbefore := entries_perm 0 hbefore
  replace hafter := entries_perm 0 hafter
  rw [Nat.zero_add] at hbefore hafter
  have hrest := List.subperm_cons _ |>.mp
    (hperm.symm.subperm.trans (hheld.trans hbefore.subperm))
  rw [← entriesBut_set 0 i _ (some next), ← List.map_set] at hrest
  exact ((List.subperm_cons _).mpr hrest).trans hafter.symm.subperm

/-- An input with a pending record that leaves the selection has the least word of all that have
records left. -/
theorem Keyed.least {runs : List (List τ)} {size : Nat} {x : τ} (h : p.Keyed words)
    (hready : p.Ready (runs.map List.head?) size)
    (hreplaces : Replaces p p' ⟨word, i⟩ entered)
    (hx : (runs.map List.head?)[i]? = some (some x)) :
    Ordered.Least compare (contenders words (runs.map List.length)) i word := by
  have hword := h.get hreplaces
  obtain ⟨s, hs, horder, hheld⟩ := h
  obtain ⟨s₀, s', rest, hs₀, -, -, -, hleast⟩ := hreplaces
  obtain rfl := Option.some.inj (hs.symm.trans hs₀)
  obtain ⟨s₁, hs₁, -, -, -, -, hcontends⟩ := hready.holds
  obtain rfl := Option.some.inj (hs.symm.trans hs₁)
  obtain ⟨tail, hrun⟩ := Strategy.exists_tail hx
  apply Ordered.least_of_entries
  · refine getElem?_contenders.mpr ⟨hword, ?_⟩
    rw [List.getElem?_map, hrun]
    exact Nat.succ_pos _
  · intro other hother
    obtain ⟨hkey, hpos⟩ := getElem?_contenders.mp ((mem_entries _ _ _).mp hother).2
    rw [Nat.sub_zero] at hkey hpos
    have hpending : ∃ y, (runs.map List.head?)[other.source]? = some (some y) := by
      rw [List.getElem?_map] at hpos ⊢
      rcases hget : runs[other.source]? with _ | _ | ⟨y, run⟩
      · simp [hget] at hpos
      · simp [hget] at hpos
      · exact ⟨y, rfl⟩
    obtain ⟨y, hy⟩ := hpending
    obtain ⟨node, hnode, hsource⟩ := hcontends _ y hy
    rw [Nat.zero_add] at hsource
    -- The input is held under one word only.
    have hentry := ((mem_entries _ _ _).mp (hheld.subset hnode)).2
    rw [Nat.sub_zero, List.getElem?_map, hsource, hkey] at hentry
    have hsame : node = other := by
      obtain ⟨key, source⟩ := node
      obtain ⟨key', source'⟩ := other
      simp_all
    exact hsame ▸ (hleast horder).2 node hnode

variable [WordSource γ]

/-- Inputs that are entered are held under words that were drawn for them, the last one first. -/
theorem enterAll_keyed (s : Selection UInt32) (source : γ) (input : Nat)
    (inputs : List (Option τ)) (hroom : s.nodes.size + inputs.length ≤ s.capacity)
    (hinputs : ∀ x ∈ inputs, x.isSome) :
    ∃ nodes, enterAll s source input inputs =
        pure ({ s with nodes }, behind inputs.length source) ∧
      nodes.toList.Perm
        (entries input ((draws inputs.length source).reverse.map some) ++ s.nodes.toList) ∧
      (Heap.InOrder (Node.before compare) s.nodes →
        Heap.InOrder (Node.before compare) nodes) := by
  induction inputs generalizing input with
  | nil => exact ⟨s.nodes, rfl, .refl _, id⟩
  | cons x inputs ih =>
    rw [List.length_cons] at hroom
    obtain ⟨nodes, htail, hperm, horder⟩ :=
      ih (input + 1) (by omega) fun x hx => hinputs x (List.mem_cons_of_mem _ hx)
    have hsize := hperm.length_eq
    have hle := length_entries_le (input + 1) ((draws inputs.length source).reverse.map some)
    rw [List.length_map, List.length_reverse, length_draws] at hle
    simp only [List.length_append, Array.length_toList] at hsize
    have hfree : nodes.size < s.capacity := by omega
    obtain ⟨nodes', henter, hperm', horder'⟩ :=
      enter_eq { s with nodes } input (behind inputs.length source) hfree
    obtain ⟨y, rfl⟩ := Option.isSome_iff_exists.mp (hinputs x List.mem_cons_self)
    refine ⟨nodes', ?_, ?_, fun h => horder' (horder h)⟩
    · rw [enterAll, htail, pure_bind]
      change enter { s with nodes } input (behind inputs.length source) = _
      rw [henter, List.length_cons, behind_succ]
    · rw [List.length_cons, draws_add, List.reverse_append]
      exact hperm'.trans (hperm.cons _)

/-- What a step of the race keeps: what was emitted, with what the race makes of the words to come
and the runs that are left, is the target. -/
structure Racing (target : List τ) (steps : Nat) (p : Interleave γ) (runs : List (List τ))
    (out : List τ) : Prop where
  ready : ∃ size, p.Ready (runs.map List.head?) size ∧ steps = Strategy.remaining runs + size
  races : ∃ words, p.Keyed words ∧ out ++ deal runs (race words (runs.map List.length)
    (draws (Strategy.remaining runs) p.source)) = target

structure Raced (target : List τ) (outcome : Except MergeError Unit) (runs : List (List τ))
    (out : List τ) : Prop where
  ok : outcome = .ok ()
  empty : ∀ run ∈ runs, run = []
  eq : out = target

variable {target : List τ}

theorem Racing.done {steps : Nat} {runs : List (List τ)} {out : List τ}
    (h : Racing target steps p runs out) (hempty : ∀ run ∈ runs, run = []) :
    Raced target (.ok ()) runs out := by
  obtain ⟨words, -, hout⟩ := h.races
  rw [Strategy.remaining_of_empty hempty, draws, race, deal, List.append_nil] at hout
  exact ⟨rfl, hempty, hout⟩

theorem steps_racing (target : List τ) (steps : Nat) (p : Interleave γ) (runs : List (List τ))
    (out : List τ) (h : Racing target steps p runs out) :
    Strategy.StepsTo ref (Racing target) (fun outcome _ runs out => Raced target outcome runs out)
      steps p runs out := by
  have hracing := h
  obtain ⟨⟨size, hready, rfl⟩, words, hkeyed, hout⟩ := h
  apply hready.stepsTo
  · intro p' hempty _
    exact hracing.done hempty
  · intro p' left least hsource hready' hreplaces
    refine ⟨⟨left, hready', rfl⟩, words, hkeyed.skip hreplaces, ?_⟩
    rw [hsource]
    exact hout
  · intro p' i x word hx hsource hready' hreplaces
    have hcount := Strategy.remaining_advanceOne runs i
    rw [hx, Option.join_some, Option.isSome_some, if_pos rfl] at hcount
    refine ⟨⟨size, hready', rfl⟩, _, hkeyed.emit hreplaces, ?_⟩
    rw [← hout, ← hcount, Nat.add_comm 1, draws, race_cons (hkeyed.least hready hreplaces hx),
      deal_cons _ hx, hsource, lengths_advanceOne, List.append_assoc, List.singleton_append]

/-- A merge is prepared for the race that its first words begin. -/
theorem yields_prepare_racing (p : Interleave γ) (runs : List (List τ)) (hruns : runs ≠ [])
    (hpending : ∀ run ∈ runs, run ≠ []) :
    Yields ref ((prepare (runs.map List.head?) : StrategyM (Interleave γ) Unit) p) fun out =>
      out.1 = .ok () ∧
        ∃ steps < Strategy.stepLimit τ p (runs.map List.length),
          Racing (deal runs (order (runs.map List.length)
            (draws (runs.length + Strategy.remaining runs) p.source))) steps out.2 runs [] := by
  apply (yields_prepare p (runs.map List.head?) (by simpa using hruns)).mono
  intro out hprepared
  obtain ⟨_, p'⟩ := out
  obtain ⟨rfl, -, hready, s, lease, hs, henter⟩ := hprepared
  have hle : pendings (runs.map List.head?) ≤ (runs.map List.head?).length := List.countP_le_length
  have hheads : ∀ x ∈ runs.map List.head?, x.isSome := by
    intro x hx
    obtain ⟨run, hrun, rfl⟩ := List.mem_map.mp hx
    exact List.isSome_head?.mpr (hpending run hrun)
  obtain ⟨nodes, hkeyed, hperm, horder⟩ := enterAll_keyed
    { capacity := (runs.map List.head?).length, lease : Selection UInt32 } p.source 0
    (runs.map List.head?) (by simp) hheads
  rw [hkeyed] at henter
  have hresult : (({ capacity := (runs.map List.head?).length, nodes, lease : Selection UInt32 },
      behind (runs.map List.head?).length p.source) : Selection UInt32 × γ) = (s, p'.source) := by
    have hrun := congrFun henter { ledger := default }
    injection hrun with hrun
    injection hrun
  obtain ⟨rfl, hsource⟩ := Prod.mk.inj hresult
  have hlimit : Strategy.stepLimit τ p (runs.map List.length) =
      (runs.map List.length).sum + (runs.map List.length).length + 1 := rfl
  rw [show (#[] : Array (Node UInt32)).toList = [] from rfl, List.append_nil] at hperm
  refine ⟨rfl, _, ?_, ⟨_, hready, rfl⟩, _, ⟨_, hs, horder ?_, hperm.subperm⟩, ?_⟩
  · rw [hlimit, Strategy.remaining]
    simp only [List.length_map] at hle ⊢
    omega
  · intro i _ a b ha
    simp at ha
  · rw [List.nil_append, ← hsource, List.length_map, order, draws_add, List.length_map,
      List.take_left' (length_draws _ _), List.drop_left' (length_draws _ _)]

/-- A pass over inputs that have records left deals them in the order of the words it draws. -/
theorem yields_mergePass_racing [FixedWidth τ] [LawfulFixedWidth τ] {b : Bench (Interleave γ) τ}
    {contents runs : List (List τ)} {start : Reel τ} (hfeeds : b.Feeds contents runs)
    (hruns : runs ≠ []) (hpending : ∀ run ∈ runs, run ≠ []) (hshows : b.output.Shows start) :
    Yields ref ((Bench.mergePass : BenchM (Interleave γ) τ Stats) b) fun res =>
      (∃ stats, res.1 = .ok stats) ∧ res.2.output.Shows (start.writeArray
        (deal runs (order (runs.map List.length)
          (draws (runs.length + Strategy.remaining runs) b.strategy.source)))) := by
  have hpass := Bench.yields_mergePass (@steps_racing γ τ ref _ _)
    ((yields_prepare_racing b.strategy runs hruns hpending).mono fun out hprepared => by
      obtain ⟨_, p⟩ := out
      obtain ⟨rfl, hracing⟩ := hprepared
      exact hracing) hfeeds hruns hshows
  apply hpass.mono
  intro res hres
  obtain ⟨outcome, p, left, out, ⟨rfl, -, rfl⟩, hstands, hok⟩ := hres
  exact ⟨⟨_, hok⟩, hstands.shows⟩

/-- Runs of records that say which run they are of. -/
def numbered (lengths : List Nat) : List (List Nat) :=
  lengths.mapIdx fun i length => List.replicate length i

/-- The inputs in the order in which a merge takes their records if it draws these words. -/
def takes (lengths : List Nat) (words : List UInt32) : List Nat :=
  match ((Strategy.drive (numbered lengths) : StrategyM (Interleave Script) (List (Option Nat)))
    { source := ⟨words⟩ } : SiteM _) { ledger := default } with
  | (.ok (.ok emitted, _), _) => emitted.reduceOption
  | _ => []

theorem map_length_numbered (lengths : List Nat) :
    (numbered lengths).map List.length = lengths := by
  refine List.ext_getElem? fun i => ?_
  rw [numbered, List.getElem?_map, List.getElem?_mapIdx]
  cases lengths[i]? with
  | none => rfl
  | some length => simp

theorem advanceOne_numbered (lengths : List Nat) (i : Nat) :
    Strategy.advanceOne (numbered lengths) i = numbered (lengths.modify i (· - 1)) := by
  refine List.ext_getElem? fun j => ?_
  rw [advanceOne_eq_modify, List.getElem?_modify, numbered, numbered, List.getElem?_mapIdx,
    List.getElem?_mapIdx, List.getElem?_modify]
  by_cases hij : i = j <;> cases lengths[j]? <;> simp [hij]

/-- Numbered records tell in which order they were dealt. -/
theorem deal_race_numbered (words : List UInt32) (lengths : List Nat) (later : List UInt32) :
    deal (numbered lengths) (race words lengths later) = race words lengths later := by
  induction later generalizing words lengths with
  | nil => rfl
  | cons word later ih =>
    rw [race]
    cases hscan : Ordered.scan compare (contenders words lengths) with
    | none => rfl
    | some found =>
      obtain ⟨i, held⟩ := found
      have hleast := (Ordered.scan_eq_some_iff _ i held).mp hscan
      have hpos := (getElem?_contenders.mp hleast.pending).2
      have hhead : ((numbered lengths).map List.head?)[i]? = some (some i) := by
        rw [List.getElem?_map, numbered, List.getElem?_mapIdx]
        cases hget : lengths[i]? with
        | none => simp [hget] at hpos
        | some length =>
          rw [hget, Option.getD_some] at hpos
          simp [List.head?_replicate, hpos.ne']
      simp only
      rw [deal_cons _ hhead, advanceOne_numbered, ih]

/-- A merge takes the inputs in the order that the race gives. -/
theorem takes_eq_order {lengths : List Nat} {words : List UInt32} (hpos : ∀ n ∈ lengths, 0 < n)
    (hlength : words.length = lengths.length + lengths.sum) :
    takes lengths words = order lengths words := by
  by_cases hnil : lengths = []
  · subst hnil
    obtain rfl := List.length_eq_zero_iff.mp hlength
    rfl
  have hcount : (numbered lengths).length = lengths.length := List.length_mapIdx
  have hruns : numbered lengths ≠ [] := by
    intro h
    rw [h] at hcount
    exact hnil (List.length_eq_zero_iff.mp hcount.symm)
  have hpending : ∀ run ∈ numbered lengths, run ≠ [] := by
    intro run hrun hempty
    have hmem := List.mem_map_of_mem (f := List.length) hrun
    rw [map_length_numbered, hempty] at hmem
    exact absurd (hpos _ hmem) (Nat.lt_irrefl 0)
  let site : Site := { ledger := default }
  let p : Interleave Script := { source := ⟨words⟩ }
  have hprepare : Yields site _ _ := yields_prepare_racing p (numbered lengths) hruns hpending
  rw [Strategy.remaining, hcount, map_length_numbered, ← hlength, Script.draws_eq, order,
    deal_race_numbered, ← order] at hprepare
  have hdrive : Yields site ((Strategy.drive (numbered lengths) :
      StrategyM (Interleave Script) (List (Option Nat))) p) _ :=
    Strategy.yields_drive (steps_racing (order lengths words))
      (hprepare.mono fun out hprepared => by
        obtain ⟨_, p'⟩ := out
        obtain ⟨rfl, hracing⟩ := hprepared
        rw [map_length_numbered]
        exact hracing)
  obtain ⟨⟨outcome, p'⟩, after, hrun, hdriven⟩ := hdrive.exists_run fun _ =>
    Site.not_excuses (by decide) rfl fun _ _ => rfl
  rw [takes, hrun]
  cases outcome with
  | error e =>
    obtain ⟨left, out, ⟨hok, -, -⟩⟩ := hdriven
    cases hok
  | ok emitted =>
    obtain ⟨left, -, -, hout⟩ := hdriven
    exact hout

end Interleave

end BoundedMerge
