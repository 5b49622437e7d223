import Mathlib.Tactic.Ring
import Mathlib.Data.List.Basic

/-!
# Little-endian bytes

A natural number written as `w` bytes, least significant byte first, and read back. Every fixed-width
field of a binary format is one of these.
-/

namespace LittleEndian

/-- The `w` least significant bytes of `n`, least significant first. -/
def toBytes : ℕ → ℕ → List UInt8
  | 0, _ => []
  | w + 1, n => UInt8.ofNat (n % 256) :: toBytes w (n / 256)

/-- The number written by a list of bytes, least significant first. -/
def ofBytes : List UInt8 → ℕ
  | [] => 0
  | b :: bs => b.toNat + 256 * ofBytes bs

@[simp] theorem length_toBytes (w n : ℕ) : (toBytes w n).length = w := by
  induction w generalizing n with
  | zero => rfl
  | succ w ih => simp [toBytes, ih]

theorem ofBytes_toBytes_mod (w n : ℕ) : ofBytes (toBytes w n) = n % 256 ^ w := by
  induction w generalizing n with
  | zero => simp [toBytes, ofBytes, Nat.mod_one]
  | succ w ih =>
    have hb : (UInt8.ofNat (n % 256)).toNat = n % 256 := by simp
    rw [toBytes, ofBytes, ih, hb, pow_succ', Nat.mod_mul]

/-- Reading back what was written, for a number that fits. -/
theorem ofBytes_toBytes {w n : ℕ} (h : n < 256 ^ w) : ofBytes (toBytes w n) = n := by
  rw [ofBytes_toBytes_mod, Nat.mod_eq_of_lt h]

/-- Only the low bytes are written. -/
theorem toBytes_mod (w n : ℕ) : toBytes w (n % 256 ^ w) = toBytes w n := by
  induction w generalizing n with
  | zero => rfl
  | succ w ih =>
    have hlow : n % 256 ^ (w + 1) % 256 = n % 256 := Nat.mod_mod_of_dvd n (Dvd.intro_left _ rfl)
    have hhigh : n % 256 ^ (w + 1) / 256 = n / 256 % 256 ^ w := by
      rw [pow_succ', Nat.mod_mul_right_div_self]
    rw [toBytes, toBytes, hlow, hhigh, ih]

end LittleEndian
