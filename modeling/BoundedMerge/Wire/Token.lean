import BoundedMerge.Layout.Scalar
import BoundedMerge.Wire.Error

/-!
Tokens are the pieces that a datum is written in: a scalar, a text, the count of a sequence, the
index of a variant. A token is its payload, and where kinds are checked a tag of one byte before
it. Counts take two bytes, so nothing counted may be longer than `maxCount`.
-/

namespace BoundedMerge

inductive Token
  | bool (b : Bool)
  | scalar (s : Scalar) (v : s.Bits)
  | char (c : Char)
  | text (s : String)
  | bytes (data : List UInt8)
  /-- Whether a value follows. -/
  | option (present : Bool)
  | unit
  /-- The number of items that follow. -/
  | seq (count : Nat)
  | tuple
  /-- The number of entries that follow. -/
  | map (count : Nat)
  | struct
  | variant (index : Nat)

namespace Token

def maxCount : Nat := 65535

inductive Tag
  | bool
  | scalar (s : Scalar)
  | char | text | bytes | option | unit | seq | tuple | map | struct | variant
deriving DecidableEq, Repr

def Tag.number : Tag → Nat
  | bool => 1
  | scalar (.signed .w8) => 2
  | scalar (.signed .w16) => 3
  | scalar (.signed .w32) => 4
  | scalar (.signed .w64) => 5
  | scalar (.signed .w128) => 6
  | scalar (.unsigned .w8) => 7
  | scalar (.unsigned .w16) => 8
  | scalar (.unsigned .w32) => 9
  | scalar (.unsigned .w64) => 10
  | scalar (.unsigned .w128) => 11
  | scalar .float32 => 12
  | scalar .float64 => 13
  | char => 14
  | text => 15
  | bytes => 16
  | option => 17
  | unit => 18
  | seq => 19
  | tuple => 20
  | map => 21
  | struct => 22
  | variant => 23

def tag : Token → Tag
  | bool _ => .bool
  | scalar s _ => .scalar s
  | char _ => .char
  | text _ => .text
  | bytes _ => .bytes
  | option _ => .option
  | unit => .unit
  | seq _ => .seq
  | tuple => .tuple
  | map _ => .map
  | struct => .struct
  | variant _ => .variant

def counted (count : Nat) (data : List UInt8) : Except WireError (List UInt8) :=
  if maxCount < count then .error (.lengthOverflow count)
  else .ok (LittleEndian.encode 2 count ++ data)

def payload : Token → Except WireError (List UInt8)
  | bool b => .ok [if b then 1 else 0]
  | scalar _ v => .ok (Scalar.encode v)
  | char c => .ok (LittleEndian.encode 4 c.toNat)
  | text s => let data := Utf8.encode s; counted data.length data
  | bytes data => counted data.length data
  | option present => .ok [if present then 1 else 0]
  | unit | tuple | struct => .ok []
  | seq count | map count => counted count []
  | variant index => .ok (LittleEndian.encode 4 index)

end Token

end BoundedMerge
