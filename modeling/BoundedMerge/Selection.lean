import BoundedMerge.Site

/-!
A selection holds keyed sources and gives the one with the least key. It is a binary heap in an
array: the children of node `i` stand at `2 * i + 1` and `2 * i + 2`, and no node comes before its
parent. Nodes with equal keys are ordered by their source. The memory of all nodes it may ever
hold is charged when the selection is made.
-/

namespace BoundedMerge

variable {κ : Type}

structure Node (κ : Type) where
  key : κ
  source : Nat
deriving Repr

namespace Node

/-- By key, then by source. -/
def before (cmp : κ → κ → Ordering) (a b : Node κ) : Bool :=
  (cmp a.key b.key).then (compare a.source b.source) == .lt

end Node

namespace Heap

def siftUp (before : κ → κ → Bool) (nodes : Array κ) (pos : Nat) : Array κ :=
  if h : 0 < pos ∧ pos < nodes.size then
    let parent := (pos - 1) / 2
    have : parent < nodes.size := by omega
    if before nodes[pos] nodes[parent] then siftUp before (nodes.swap pos parent) parent
    else nodes
  else nodes
termination_by pos

/-- The place with the least node among `pos` and its children, the left one first. -/
def leastOf (before : κ → κ → Bool) (nodes : Array κ) (pos : Nat) : Nat :=
  let left := 2 * pos + 1
  let right := left + 1
  let least := if comesBefore left pos then left else pos
  if comesBefore right least then right else least
where
  comesBefore (i j : Nat) : Bool :=
    match nodes[i]?, nodes[j]? with
    | some a, some b => before a b
    | _, _ => false

theorem leastOf_cases (before : κ → κ → Bool) (nodes : Array κ) (pos : Nat) :
    leastOf before nodes pos = pos ∨ pos < leastOf before nodes pos := by
  simp only [leastOf]
  split <;> split <;> omega

theorem leastOf_lt {before : κ → κ → Bool} {nodes : Array κ} {pos : Nat} (h : pos < nodes.size) :
    leastOf before nodes pos < nodes.size := by
  have bound : ∀ i j, leastOf.comesBefore before nodes i j = true → i < nodes.size := by
    intro i j hij
    by_cases hi : i < nodes.size
    · exact hi
    · simp [leastOf.comesBefore, hi] at hij
  simp only [leastOf]
  by_cases hl : leastOf.comesBefore before nodes (2 * pos + 1) pos = true
  · have := bound _ _ hl
    simp only [hl, if_true]
    split
    · next hr => exact bound _ _ hr
    · exact this
  · simp only [hl, Bool.false_eq_true, if_false]
    split
    · next hr => exact bound _ _ hr
    · exact h

def siftDown (before : κ → κ → Bool) (nodes : Array κ) (pos : Nat) : Array κ :=
  if h : pos < nodes.size then
    let least := leastOf before nodes pos
    have := leastOf_cases before nodes pos
    have : least < nodes.size := leastOf_lt h
    if least = pos then nodes
    else siftDown before (nodes.swap pos least) least
  else nodes
termination_by nodes.size - pos
decreasing_by simp only [Array.size_swap]; omega

def push (before : κ → κ → Bool) (nodes : Array κ) (x : κ) : Array κ :=
  siftUp before (nodes.push x) nodes.size

/-- The first node, and the heap without it: the last node takes its place and moves down. -/
def popLeast? (before : κ → κ → Bool) (nodes : Array κ) : Option (κ × Array κ) :=
  match nodes[0]?, nodes.back? with
  | some least, some last =>
    let rest := nodes.pop
    some (least, if rest.isEmpty then rest else siftDown before (rest.setIfInBounds 0 last) 0)
  | _, _ => none

end Heap

structure Selection (κ : Type) where
  capacity : Nat
  nodes : Array (Node κ) := #[]
  lease : Lease

namespace Selection

def size (s : Selection κ) : Nat := s.nodes.size

def isEmpty (s : Selection κ) : Bool := s.nodes.isEmpty

def new (capacity nodeSize : Nat) : SiteM (Selection κ) := do
  Site.provide (nodeSize * capacity)
  return { capacity, lease := ← Lease.take (nodeSize * capacity) }

def close (s : Selection κ) : SiteM Unit := s.lease.release

def insert (cmp : κ → κ → Ordering) (key : κ) (source : Nat) (s : Selection κ) :
    SiteM (Selection κ) := do
  Site.assert (s.nodes.size < s.capacity) .selectionFull
  return { s with nodes := Heap.push (Node.before cmp) s.nodes { key, source } }

def extract (cmp : κ → κ → Ordering) (s : Selection κ) : Option (Node κ) × Selection κ :=
  match Heap.popLeast? (Node.before cmp) s.nodes with
  | some (least, nodes) => (some least, { s with nodes })
  | none => (none, s)

end Selection

end BoundedMerge
