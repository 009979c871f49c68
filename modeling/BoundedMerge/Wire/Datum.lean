import BoundedMerge.Layout.Scalar

/-!
Data of any shape, and the kinds they are read as. A named wrapper is written as what it wraps, and
the fields of a variant are written as they are, whatever its form.
-/

namespace BoundedMerge

mutual

inductive Kind
  | bool
  | scalar (s : Scalar)
  | char
  | text
  | bytes
  | unit
  | option (k : Kind)
  /-- A named wrapper of one value. -/
  | wrapper (k : Kind)
  | seq (item : Kind)
  | tuple (fields : List Kind)
  | map (key value : Kind)
  | struct (fields : List Kind)
  | enum (variants : List Variant)
  /-- Whatever is there. -/
  | any
  /-- A kind that refuses to be read. -/
  | refusing (message : String)

inductive Variant
  | unit
  | wrapper (k : Kind)
  | tuple (fields : List Kind)
  | struct (fields : List Kind)

end

def Variant.fields : Variant → List Kind
  | unit => []
  | wrapper k => [k]
  | tuple fields | struct fields => fields

inductive Datum
  | bool (b : Bool)
  | scalar (s : Scalar) (v : s.Bits)
  | char (c : Char)
  | text (s : String)
  | bytes (data : List UInt8)
  | unit
  | absent
  | present (d : Datum)
  | seq (items : List Datum)
  | tuple (fields : List Datum)
  /-- The entries in the order they are written. -/
  | map (entries : List (Datum × Datum))
  | struct (fields : List Datum)
  | variant (index : Nat) (fields : List Datum)
  /-- A sequence or map that does not tell its length beforehand. -/
  | unannounced
  /-- A value that refuses to be written. -/
  | refusing (message : String)

namespace Datum

instance : Inhabited Datum := ⟨unit⟩

mutual

/-- Whether two data are the same; floating-point numbers are the same if their bits are. -/
def same : Datum → Datum → Bool
  | bool a, bool b => a == b
  | scalar s v, scalar t w => s == t && v.toNat == w.toNat
  | char a, char b => a == b
  | text a, text b => a == b
  | bytes a, bytes b => a == b
  | unit, unit => true
  | absent, absent => true
  | present a, present b => same a b
  | seq a, seq b => sameAll a b
  | tuple a, tuple b => sameAll a b
  | map a, map b => sameEntries a b
  | struct a, struct b => sameAll a b
  | variant i a, variant j b => i == j && sameAll a b
  | unannounced, unannounced => true
  | refusing a, refusing b => a == b
  | _, _ => false

def sameAll : List Datum → List Datum → Bool
  | [], [] => true
  | a :: as, b :: bs => same a b && sameAll as bs
  | _, _ => false

def sameEntries : List (Datum × Datum) → List (Datum × Datum) → Bool
  | [], [] => true
  | (k, v) :: as, (l, w) :: bs => same k l && same v w && sameEntries as bs
  | _, _ => false

end

end Datum

end BoundedMerge
