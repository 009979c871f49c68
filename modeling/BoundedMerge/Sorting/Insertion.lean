/-!
Insertion: each record in turn moves down past the greater ones before it. On records that are
nearly in order few records move. A record that is not there gives nothing.
-/

namespace BoundedMerge.Sorting

variable {τ : Type}

/-- Moves the record at the given place down while it is less than the one before it. Gives the
place it comes to as well. -/
def sink (less : τ → τ → Bool) (data : Array τ) : Nat → Option (Nat × Array τ)
  | 0 => if 0 < data.size then some (0, data) else none
  | i + 1 =>
    if h : i + 1 < data.size then
      if less data[i + 1] data[i] then sink less (data.swap (i + 1) i) i else some (i + 1, data)
    else none

def insertUpTo (less : τ → τ → Bool) (data : Array τ) (count : Nat) : Option (Array τ) :=
  (List.range count).foldlM (fun data i => (sink less data i).map Prod.snd) data

def insertionSort (less : τ → τ → Bool) (data : Array τ) : Option (Array τ) :=
  insertUpTo less data data.size

end BoundedMerge.Sorting
