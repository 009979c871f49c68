/-! The inputs that a strategy used up one record of in one step. -/

namespace BoundedMerge

structure Taken where
  /-- How many inputs there are. -/
  arity : Nat
  /-- The taken inputs, each once and in ascending order. -/
  indices : List Nat := []
deriving DecidableEq, Repr

namespace Taken

def none (arity : Nat) : Taken := { arity }

def mark (index : Nat) : List Nat → List Nat
  | [] => [index]
  | i :: rest =>
    if index < i then index :: i :: rest
    else if index = i then i :: rest
    else i :: mark index rest

/-- Marks an input; taking it twice is taking it once. -/
def take? (t : Taken) (index : Nat) : Option Taken :=
  if index < t.arity then some { t with indices := mark index t.indices } else .none

def contains? (t : Taken) (index : Nat) : Option Bool :=
  if index < t.arity then some (t.indices.contains index) else .none

def count (t : Taken) : Nat := t.indices.length

def clear (t : Taken) : Taken := none t.arity

end Taken

end BoundedMerge
