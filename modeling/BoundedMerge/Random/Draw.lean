import BoundedMerge.Random.KeyStream

/-!
Draws from a source of words: a number below a bound, each with the same weight, and from such
numbers a random order of a run of records.
-/

namespace BoundedMerge.Draw

variable {γ : Type} [WordSource γ]

/-- How many words a single draw may reject. More than half of all words are accepted whatever the
bound, so no source of independent words ever gets there. -/
def maxRejections : Nat := 1024

/-- The last low half that is accepted: with it the words that give one number are equally many for
every number. -/
def zone (bound : Nat) : Nat := (bound <<< (31 - Nat.log2 bound)) - 1

/-- A number below `bound`: a word is spread over the bound, and the high half of the product is
the number, unless the low half lies outside the zone. -/
def belowWithin (bound : Nat) : Nat → γ → Option (Nat × γ)
  | 0, _ => none
  | tries + 1, source =>
    let (word, source) := WordSource.next source
    let product := word.toNat * bound
    if product % UInt32.size ≤ zone bound then some (product / UInt32.size, source)
    else belowWithin bound tries source

def below (bound : Nat) (source : γ) : Option (Nat × γ) := belowWithin bound maxRejections source

/-- Exchanges each record from place `i` down to place 1 with one at or before it. -/
def shuffleFrom {τ : Type} (data : Array τ) : Nat → γ → Option (Array τ × γ)
  | 0, source => some (data, source)
  | i + 1, source => do
    let (j, source) ← below (i + 2) source
    shuffleFrom (data.swapIfInBounds (i + 1) j) i source

def shuffle {τ : Type} (data : Array τ) (source : γ) : Option (Array τ × γ) :=
  shuffleFrom data (data.size - 1) source

end BoundedMerge.Draw
