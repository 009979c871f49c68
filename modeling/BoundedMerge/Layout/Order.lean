import BoundedMerge.Layout.Basic

/-!
Orders on records. The natural order compares scalars by value and compound records part by part.
The other criteria look at the key alone, the first scalar of a record taken as an integer.
-/

namespace BoundedMerge

namespace Layout

protected def compare : (l : Layout) → l.Value → l.Value → Ordering
  | scalar s, a, b => s.compare a b
  | array item _, a, b => List.compareLex item.compare a.toList b.toList
  | pair first second, a, b => (first.compare a.1 b.1).then (second.compare a.2 b.2)

/-- The first scalar of a record as an integer, 0 if it has none. -/
def key : (l : Layout) → l.Value → Int
  | scalar s, v => s.key v
  | array item _, v => (v.toList.head?.map item.key).getD 0
  | pair first _, v => first.key v.1

end Layout

inductive Criterion
  | ascending
  | descending
  | byKey
  | byKeyDescending
  | byMagnitude
  /-- By the key modulo ten, never negative. -/
  | byLastDigit
  | allEqual
deriving DecidableEq, Repr

def Criterion.compare (c : Criterion) (l : Layout) (a b : l.Value) : Ordering :=
  match c with
  | ascending => l.compare a b
  | descending => l.compare b a
  | byKey => Ord.compare (l.key a) (l.key b)
  | byKeyDescending => Ord.compare (l.key b) (l.key a)
  | byMagnitude => Ord.compare (l.key a).natAbs (l.key b).natAbs
  | byLastDigit => Ord.compare (l.key a % 10) (l.key b % 10)
  | allEqual => .eq

/-- The same records with every group of neighbours that compare equal in natural order. Two lists
that a criterion sorted, of the same records, are then the same. -/
def Criterion.settle (c : Criterion) (l : Layout) (records : List l.Value) : List l.Value :=
  (records.splitBy fun a b => c.compare l a b == .eq).flatMap fun group =>
    group.mergeSort fun a b => l.compare a b != .gt

end BoundedMerge
