import Mathlib.Algebra.Ring.Nat
import Mathlib.Logic.Function.Basic

/-!
# Little-endian numbers in a memory of bytes

A number is put into `k` bytes, least significant first, and read back.  A write
is seen at its own bytes only.
-/

namespace MyJavaExample.Lib

/-- The number in the `k` bytes from `a` on. -/
def readLE : ℕ → (ℕ → UInt8) → ℕ → ℕ
  | 0, _, _ => 0
  | k + 1, m, a => (m a).toNat + 256 * readLE k m (a + 1)

/-- The memory with `v` in the `k` bytes from `a` on. -/
def writeLE : ℕ → (ℕ → UInt8) → ℕ → ℕ → ℕ → UInt8
  | 0, m, _, _ => m
  | k + 1, m, v, a => writeLE k (Function.update m a (UInt8.ofNat v)) (v / 256) (a + 1)

variable {m m' : ℕ → UInt8} {j k v a b : ℕ}

/-! ## What a write leaves -/

theorem writeLE_of_lt (h : b < a) : writeLE k m v a b = m b := by
  induction k generalizing m v a with
  | zero => rfl
  | succ k ih =>
      rw [writeLE, ih (Nat.lt_succ_of_lt h), Function.update_of_ne (Nat.ne_of_lt h)]

theorem writeLE_of_le (h : a + k ≤ b) : writeLE k m v a b = m b := by
  induction k generalizing m v a with
  | zero => rfl
  | succ k ih =>
      have hne : b ≠ a := by omega
      rw [writeLE, ih (by omega), Function.update_of_ne hne]

theorem readLE_congr (h : ∀ i < k, m (a + i) = m' (a + i)) : readLE k m a = readLE k m' a := by
  induction k generalizing a with
  | zero => rfl
  | succ k ih =>
      have hrest : ∀ i < k, m (a + 1 + i) = m' (a + 1 + i) := by
        intro i hi
        have := h (i + 1) (by omega)
        rwa [← Nat.add_assoc, Nat.add_right_comm] at this
      rw [readLE, readLE, ih hrest, ← Nat.add_zero a, h 0 (Nat.succ_pos k)]

/-! ## Reading back -/

theorem readLE_writeLE (h : v < 256 ^ k) : readLE k (writeLE k m v a) a = v := by
  induction k generalizing m v a with
  | zero =>
      rw [pow_zero] at h
      exact (Nat.lt_one_iff.mp h).symm
  | succ k ih =>
      have hrest : v / 256 < 256 ^ k := by
        rw [pow_succ] at h
        exact Nat.div_lt_of_lt_mul (by rwa [Nat.mul_comm])
      rw [writeLE, readLE, ih hrest, writeLE_of_lt (Nat.lt_succ_self a), Function.update_self,
        UInt8.toNat_ofNat']
      omega

theorem readLE_writeLE_of_disjoint (h : a + j ≤ b ∨ b + k ≤ a) :
    readLE j (writeLE k m v b) a = readLE j m a := by
  refine readLE_congr fun i hi => ?_
  rcases h with h | h
  · exact writeLE_of_lt (by omega)
  · exact writeLE_of_le (by omega)

/-! ## Bytes in a row -/

/-- The bytes `bs` lie from `a` on. -/
def HoldsAt (m : ℕ → UInt8) (a : ℕ) (bs : List UInt8) : Prop :=
  ∀ i b, bs[i]? = some b → m (a + i) = b

theorem HoldsAt.congr {bs : List UInt8} (h : HoldsAt m a bs) (hm : ∀ b, a ≤ b → m' b = m b) :
    HoldsAt m' a bs := by
  intro i b hi
  rw [hm _ (Nat.le_add_right a i)]
  exact h i b hi

theorem holdsAt_cons {b : UInt8} {bs : List UInt8} :
    HoldsAt m a (b :: bs) ↔ m a = b ∧ HoldsAt m (a + 1) bs := by
  constructor
  · intro h
    refine ⟨h 0 b rfl, fun i b' hi => ?_⟩
    rw [Nat.add_assoc, Nat.add_comm 1 i]
    exact h (i + 1) b' hi
  · rintro ⟨hb, hbs⟩ i b' hi
    cases i with
    | zero => exact hb.trans (Option.some.inj hi)
    | succ i =>
        rw [Nat.add_comm i 1, ← Nat.add_assoc]
        exact hbs i b' hi

theorem holdsAt_append {bs cs : List UInt8} :
    HoldsAt m a (bs ++ cs) ↔ HoldsAt m a bs ∧ HoldsAt m (a + bs.length) cs := by
  induction bs generalizing a with
  | nil => simp [HoldsAt]
  | cons b bs ih =>
      rw [List.cons_append, holdsAt_cons, holdsAt_cons, ih, List.length_cons, and_assoc,
        Nat.add_assoc, Nat.add_comm 1]

end MyJavaExample.Lib
