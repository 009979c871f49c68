/-!
Splitting a run of records around a pivot. Two places move towards each other: one down over the
records above the pivot, one up over the records below it. Where both stop the two records change
sides. When the places meet, no record up to the lower one is above the pivot and no record behind
it is below. A search or an exchange that runs off the end of the run gives nothing; with an order
on the records that cannot happen, since the pivot itself stops both searches.
-/

namespace BoundedMerge.Sorting

variable {τ : Type}

def swap? (data : Array τ) (i j : Nat) : Option (Array τ) :=
  if h : i < data.size ∧ j < data.size then some (data.swap i j h.1 h.2) else none

/-- The first place from `q` downwards whose record is not above the pivot. -/
def descend (less : τ → τ → Bool) (pivot : τ) (data : Array τ) : Nat → Option Nat
  | 0 =>
    match data[0]? with
    | none => none
    | some x => if less pivot x then none else some 0
  | q + 1 =>
    match data[q + 1]? with
    | none => none
    | some x => if less pivot x then descend less pivot data q else some (q + 1)

/-- The first place from `p` upwards whose record is not below the pivot. -/
def ascend (less : τ → τ → Bool) (pivot : τ) (data : Array τ) (p : Nat) : Option Nat :=
  if h : p < data.size then
    if less data[p] pivot then ascend less pivot data (p + 1) else some p
  else none
termination_by data.size - p

theorem descend_le {less : τ → τ → Bool} {pivot : τ} {data : Array τ} {q r : Nat}
    (h : descend less pivot data q = some r) : r ≤ q := by
  induction q with
  | zero =>
    simp only [descend] at h
    split at h
    · contradiction
    · split at h
      · contradiction
      · simpa using Nat.le_of_eq (Option.some.inj h).symm
  | succ q ih =>
    simp only [descend] at h
    split at h
    · contradiction
    · split at h
      · exact Nat.le_succ_of_le (ih h)
      · exact Nat.le_of_eq (Option.some.inj h).symm

/-- Moves the two places towards each other. Gives the last place of the lower part and the
records in their new places. -/
def meet (less : τ → τ → Bool) (pivot : τ) (data : Array τ) (p q : Nat) :
    Option (Nat × Array τ) :=
  match _hq : descend less pivot data q, ascend less pivot data p with
  | some upper, some lower =>
    if lower < upper then
      match swap? data lower upper with
      | some data => meet less pivot data (lower + 1) (upper - 1)
      | none => none
    else some (upper, data)
  | _, _ => none
termination_by q
decreasing_by
  have := descend_le _hq
  omega

def partition (less : τ → τ → Bool) (pivotAt : Nat) (data : Array τ) : Option (Nat × Array τ) :=
  match swap? data 0 pivotAt with
  | none => none
  | some data =>
    match data[0]? with
    | none => none
    | some pivot => meet less pivot data 0 (data.size - 1)

end BoundedMerge.Sorting
