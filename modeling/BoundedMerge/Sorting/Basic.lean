import BoundedMerge.Sorting.Split
import BoundedMerge.Sorting.Insertion

/-!
The sort of a run in main memory. Ranges are split around a pivot until they are short, and one
pass of insertion over the whole run puts the short ranges in order. Which record of a range is
its pivot is chosen from outside, by the way the range was reached; the choice shows only in the
order of records that compare equal.
-/

namespace BoundedMerge.Sorting

variable {τ : Type}

/-- Chooses a pivot for every range: a range is named by the sides taken to reach it, the last one
first, with `false` for the lower side. The choice is a number that counts modulo the length. -/
abbrev PivotChoice := List Bool → Nat → Nat

def middlePivot : PivotChoice := fun _ size => size / 2

/-- Ranges shorter than this are left to the insertion pass. -/
def defaultThreshold : Nat := 10

/-- Splits ranges of `threshold` records and more. Gives nothing if a split runs off its range or
does not make it shorter. -/
def quickSort (less : τ → τ → Bool) (threshold : Nat) (pivots : PivotChoice) (path : List Bool)
    (data : Array τ) : Option (Array τ) :=
  if data.size < threshold then some data
  else
    match partition less (pivots path data.size % data.size) data with
    | none => none
    | some (last, data') =>
      let low := data'.extract 0 (last + 1)
      let high := data'.extract (last + 1) data'.size
      if _h : low.size < data.size ∧ high.size < data.size then
        match quickSort less threshold pivots (false :: path) low with
        | none => none
        | some low =>
          match quickSort less threshold pivots (true :: path) high with
          | none => none
          | some high => some (low ++ high)
      else none
termination_by data.size
decreasing_by
  · exact _h.1
  · exact _h.2

/-- Sorts by `less`, with a threshold of two at least. -/
def sortBy (less : τ → τ → Bool) (threshold : Nat) (pivots : PivotChoice) (data : Array τ) :
    Option (Array τ) :=
  (quickSort less (max 2 threshold) pivots [] data).bind (insertionSort less)

def lessBy (cmp : τ → τ → Ordering) (a b : τ) : Bool := cmp a b == .lt

def sort [LT τ] [DecidableLT τ] (threshold : Nat) (pivots : PivotChoice) (data : Array τ) :
    Option (Array τ) :=
  sortBy (fun a b => decide (a < b)) threshold pivots data

end BoundedMerge.Sorting
