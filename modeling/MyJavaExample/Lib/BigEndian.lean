import Mathlib.Data.Nat.Basic
import Mathlib.Algebra.Order.Ring.Nat
import Mathlib.Tactic.Ring

/-!
# Big-endian numbers

A number written in `k` bytes, most significant first, and read back.  Reading
a number as signed subtracts the modulus from its upper half.
-/

namespace MyJavaExample.Lib

/-- The last `k` base-256 digits of `v`, most significant first. -/
def toBytes : ℕ → ℕ → List UInt8
  | 0, _ => []
  | k + 1, v => UInt8.ofNat (v / 256 ^ k) :: toBytes k v

/-- The number that a list of bytes spells. -/
def ofBytes : List UInt8 → ℕ
  | [] => 0
  | b :: bs => b.toNat * 256 ^ bs.length + ofBytes bs

@[simp] theorem toBytes_length (k v : ℕ) : (toBytes k v).length = k := by
  induction k with
  | zero => rfl
  | succ k ih => simp [toBytes, ih]

theorem ofBytes_toBytes_mod (k v : ℕ) : ofBytes (toBytes k v) = v % 256 ^ k := by
  induction k with
  | zero => simp [toBytes, ofBytes, Nat.mod_one]
  | succ k ih =>
      rw [toBytes, ofBytes, ih, toBytes_length, UInt8.toNat_ofNat']
      have h : v % 256 ^ (k + 1) = 256 ^ k * (v / 256 ^ k % 256) + v % 256 ^ k := by
        rw [pow_succ, Nat.mod_mul]
        ring
      rw [h]
      ring

/-- A number that fits in `k` bytes is read back. -/
theorem ofBytes_toBytes {k v : ℕ} (h : v < 256 ^ k) : ofBytes (toBytes k v) = v := by
  rw [ofBytes_toBytes_mod, Nat.mod_eq_of_lt h]

theorem ofBytes_lt (bs : List UInt8) : ofBytes bs < 256 ^ bs.length := by
  induction bs with
  | nil => exact Nat.one_pos
  | cons b bs ih =>
      have hb : b.toNat ≤ 255 := Nat.le_of_lt_succ b.toNat_lt
      have hmul := Nat.mul_le_mul_right (256 ^ bs.length) hb
      rw [ofBytes, List.length_cons, pow_succ]
      omega

/-- A `w`-bit number read as signed. -/
def toSigned (w n : ℕ) : ℤ := if n < 2 ^ (w - 1) then n else n - 2 ^ w

end MyJavaExample.Lib
