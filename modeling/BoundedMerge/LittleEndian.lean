/-!
Numbers as bytes, the least significant byte first. A run of `n` bytes stands for a number below
the `n`-th power of 256, and the two determine each other.
-/

namespace BoundedMerge.LittleEndian

def encode : Nat → Nat → List UInt8
  | 0, _ => []
  | n + 1, value => UInt8.ofNat value :: encode n (value / 256)

def decode : List UInt8 → Nat
  | [] => 0
  | b :: bytes => b.toNat + 256 * decode bytes

@[simp] theorem length_encode (n value : Nat) : (encode n value).length = n := by
  induction n generalizing value with
  | zero => rfl
  | succ n ih => simp [encode, ih]

theorem encode_decode (bytes : List UInt8) : encode bytes.length (decode bytes) = bytes := by
  induction bytes with
  | nil => rfl
  | cons b bytes ih =>
    have hb : b.toNat < 256 := b.toNat_lt
    have hdiv : (b.toNat + 256 * decode bytes) / 256 = decode bytes := by omega
    have hlow : UInt8.ofNat (b.toNat + 256 * decode bytes) = b := by
      apply UInt8.toNat_inj.1
      have h : (UInt8.ofNat (b.toNat + 256 * decode bytes)).toNat =
          (b.toNat + 256 * decode bytes) % 256 := UInt8.toNat_ofNat'
      omega
    simp only [List.length_cons, encode, decode, hdiv, hlow, ih]

end BoundedMerge.LittleEndian
