import Mathlib.Algebra.Order.Ring.Nat
import Mathlib.Data.List.Basic
import Mathlib.Data.Nat.ModEq
import Mathlib.Tactic.Ring

/-!
# Little-endian numbers
-/

namespace LittleEndian

/-- The lowest `n` bytes of a number, the lowest first. -/
def encode : Nat → Nat → List UInt8
  | 0, _ => []
  | n + 1, v => UInt8.ofNat v :: encode n (v / 256)

def decode : List UInt8 → Nat
  | [] => 0
  | b :: bytes => b.toNat + 256 * decode bytes

@[simp] theorem length_encode (n v : Nat) : (encode n v).length = n := by
  induction n generalizing v with
  | zero => rfl
  | succ n ih => simp [encode, ih]

theorem decode_encode (n v : Nat) : decode (encode n v) = v % 256 ^ n := by
  induction n generalizing v with
  | zero => simp [encode, decode, Nat.mod_one]
  | succ n ih =>
      have hlow : (UInt8.ofNat v).toNat = v % 256 := rfl
      rw [encode, decode, ih, hlow, Nat.pow_succ, Nat.mul_comm (256 ^ n), Nat.mod_mul]

/-- A number that fits is read back. -/
theorem decode_encode_of_lt {n v : Nat} (h : v < 256 ^ n) : decode (encode n v) = v := by
  rw [decode_encode, Nat.mod_eq_of_lt h]

/-- The first bytes of an encoding are a shorter encoding. -/
theorem take_encode {k n : Nat} (h : k ≤ n) (v : Nat) : (encode n v).take k = encode k v := by
  induction k generalizing n v with
  | zero => rfl
  | succ k ih =>
      obtain ⟨n, rfl⟩ : ∃ m, n = m + 1 := ⟨n - 1, by omega⟩
      simp [encode, ih (Nat.le_of_succ_le_succ h)]

/-- Higher bytes of the number do not matter. -/
theorem encode_mod (n v : Nat) : encode n (v % 256 ^ n) = encode n v := by
  induction n generalizing v with
  | zero => rfl
  | succ n ih =>
      have hlow : UInt8.ofNat (v % 256 ^ (n + 1)) = UInt8.ofNat v := by
        apply UInt8.toNat_inj.mp
        change v % 256 ^ (n + 1) % 256 = v % 256
        rw [Nat.pow_succ, Nat.mod_mul_left_mod]
      have hhigh : v % 256 ^ (n + 1) / 256 = v / 256 % 256 ^ n := by
        rw [Nat.pow_succ, Nat.mul_comm, Nat.mod_mul_right_div_self]
      rw [encode, encode, hlow, hhigh, ih]

/-- A number is encoded part by part. -/
theorem encode_add (n k v : Nat) : encode (n + k) v = encode n v ++ encode k (v / 256 ^ n) := by
  induction n generalizing v with
  | zero => simp [encode]
  | succ n ih =>
      rw [Nat.succ_add, encode, ih, encode, Nat.pow_succ, Nat.mul_comm, Nat.div_div_eq_div_mul]
      rfl

/-- A high part and a low part that fits. -/
theorem encode_halves {n low : Nat} (h : low < 256 ^ n) (k high : Nat) :
    encode (n + k) (high * 256 ^ n + low) = encode n low ++ encode k high := by
  have hpos : 0 < 256 ^ n := Nat.pos_of_ne_zero (by simp)
  have hlow : (high * 256 ^ n + low) % 256 ^ n = low := by
    rw [Nat.mul_add_mod_of_lt h]
  have hhigh : (high * 256 ^ n + low) / 256 ^ n = high := by
    rw [Nat.mul_comm, Nat.mul_add_div hpos, Nat.div_eq_of_lt h, Nat.add_zero]
  rw [encode_add, hhigh, ← encode_mod n, hlow]

end LittleEndian
