/-!
The bytes of a file that may be much longer than what was written to it. The places where nothing
was written hold zeros and are not kept.
-/

namespace BoundedMerge

/-- Bytes, `size` of them: those in front, then zeros, and on top of both the patches, the latest
first. A patch goes from its place as far as its bytes go. -/
structure SparseBytes where
  front : Array UInt8 := #[]
  patches : List (Nat × Array UInt8) := []
  size : Nat := front.size

namespace SparseBytes

def ofList (bytes : List UInt8) : SparseBytes := { front := bytes.toArray }

def patched? (i : Nat) (patch : Nat × Array UInt8) : Option UInt8 :=
  if patch.1 ≤ i then patch.2[i - patch.1]? else none

def get (b : SparseBytes) (i : Nat) : UInt8 :=
  (b.patches.findSome? (patched? i)).getD (b.front.getD i 0)

def toList (b : SparseBytes) : List UInt8 := (List.range b.size).map b.get

/-- At most `count` bytes from `offset` on, fewer at the end. -/
def read (offset count : Nat) (b : SparseBytes) : Array UInt8 :=
  (Array.range (min count (b.size - offset))).map fun i => b.get (offset + i)

/-- Writes `data` from `offset` on, over what is there and past the end. The offset must not lie
past the end. -/
def overwrite (bytes : Array UInt8) (offset : Nat) : List UInt8 → Array UInt8
  | [] => bytes
  | b :: data =>
    overwrite (if offset < bytes.size then bytes.setIfInBounds offset b else bytes.push b)
      (offset + 1) data

/-- The bytes after `data` was written from `offset` on. A write to the front, or right behind it,
needs no patch while there is none. -/
def write (offset : Nat) (data : List UInt8) (b : SparseBytes) : SparseBytes :=
  if data.isEmpty then b
  else
    let size := max b.size (offset + data.length)
    if b.patches.isEmpty ∧ offset ≤ b.front.size then
      { b with front := overwrite b.front offset data, size }
    else { b with patches := (offset, data.toArray) :: b.patches, size }

/-- The bytes after the length was set to `size`. What is cut off is forgotten. -/
def resize (size : Nat) (b : SparseBytes) : SparseBytes where
  front := b.front.extract 0 size
  patches := (b.patches.map fun p => (p.1, p.2.extract 0 (size - p.1))).filter (!·.2.isEmpty)
  size

end SparseBytes

end BoundedMerge
