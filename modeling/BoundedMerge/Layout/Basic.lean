import BoundedMerge.FixedWidth
import BoundedMerge.Layout.Scalar

/-!
Record layouts: scalars, arrays of a fixed length and pairs, nested without bound. Parts follow
each other without gaps: item `i` of an array stands `i` item widths in, and the second part of a
pair right behind the first. Reading and writing through a buffer that may be too short are
`decode?` and `encodeInto?`; a record that fits is read and written by `decode` and `encode`.
-/

namespace BoundedMerge

inductive Layout
  | scalar (s : Scalar)
  | array (item : Layout) (count : Nat)
  | pair (first second : Layout)
deriving DecidableEq, Repr

namespace Layout

def Value : Layout → Type
  | scalar s => s.Bits
  | array item count => Vector item.Value count
  | pair first second => first.Value × second.Value

def width : Layout → Nat
  | scalar s => s.bytes
  | array item count => item.width * count
  | pair first second => first.width + second.width

def footprint : Layout → Footprint
  | scalar s => ⟨s.bytes, s.bytes⟩
  | array item count => item.footprint.array count
  | pair first second => first.footprint.pair second.footprint

def encode : (l : Layout) → l.Value → List UInt8
  | scalar _, v => Scalar.encode v
  | array item _, v => v.toList.flatMap item.encode
  | pair first second, v => first.encode v.1 ++ second.encode v.2

def decode : (l : Layout) → List UInt8 → l.Value
  | scalar s, bytes => s.decode bytes
  | array item count, bytes =>
    Vector.ofFn fun i : Fin count => item.decode (bytes.drop (i * item.width))
  | pair first second, bytes => (first.decode bytes, second.decode (bytes.drop first.width))

instance (l : Layout) : FixedWidth l.Value where
  width := l.width
  encode := l.encode
  decode := l.decode
  footprint := l.footprint

/-- Writes the items one after the other with `put`, each into its own `width` bytes, until the
buffer has no room for a whole item. -/
def putItems {α : Type} (put : α → List UInt8 → Option (List UInt8)) (width : Nat) :
    List α → List UInt8 → Option (List UInt8)
  | [], buffer => some buffer
  | x :: items, buffer =>
    if buffer.length < width then some buffer
    else do
      let head ← put x (buffer.take width)
      let tail ← putItems put width items (buffer.drop width)
      return head ++ tail

/-- The buffer with a record written to its front, or nothing if a part does not fit. An array
writes the items that fit whole, whatever their number. -/
def encodeInto? : (l : Layout) → l.Value → List UInt8 → Option (List UInt8)
  | scalar s, v, buffer =>
    if buffer.length < s.bytes then none
    else some (Scalar.encode v ++ buffer.drop s.bytes)
  | array item _, v, buffer =>
    if item.width = 0 then none
    else putItems item.encodeInto? item.width v.toList buffer
  | pair first second, v, buffer =>
    if buffer.length < first.width + second.width then none
    else do
      let head ← first.encodeInto? v.1 (buffer.take first.width)
      let rest := buffer.drop first.width
      let middle ← second.encodeInto? v.2 (rest.take second.width)
      return head ++ middle ++ rest.drop second.width

def decode? : (l : Layout) → List UInt8 → Option l.Value
  | scalar s, buffer => if buffer.length < s.bytes then none else some (s.decode buffer)
  | array item count, buffer =>
    (Vector.ofFn fun i : Fin count => item.decode? (buffer.drop (i * item.width))).mapM id
  | pair first second, buffer =>
    if buffer.length < first.width + second.width then none
    else do
      let a ← first.decode? (buffer.take first.width)
      let b ← second.decode? ((buffer.drop first.width).take second.width)
      return (a, b)

end Layout

end BoundedMerge
