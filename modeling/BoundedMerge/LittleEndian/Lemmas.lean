import BoundedMerge.LittleEndian
import Mathlib.Algebra.Ring.Nat

/-! The range of the numbers that bytes stand for, and reading after writing. -/

namespace BoundedMerge.LittleEndian

theorem decode_lt (bytes : List UInt8) : decode bytes < 256 ^ bytes.length := by
  induction bytes with
  | nil => simp [decode]
  | cons b bytes ih =>
    have hb : b.toNat < 256 := b.toNat_lt
    simp only [decode, List.length_cons, Nat.pow_succ]
    omega

theorem decode_encode (n value : Nat) : decode (encode n value) = value % 256 ^ n := by
  induction n generalizing value with
  | zero => simp [encode, decode, Nat.mod_one]
  | succ n ih =>
    have hlow : (UInt8.ofNat value).toNat = value % 256 := UInt8.toNat_ofNat'
    rw [encode, decode, ih, hlow, Nat.pow_succ, Nat.mul_comm (256 ^ n) 256, Nat.mod_mul]

end BoundedMerge.LittleEndian
