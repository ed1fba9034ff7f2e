import Mathlib.Algebra.Ring.Nat
import Mathlib.Data.List.Range

/-!
# Bitmaps in words

`n` words of `w` bits.  The bits are numbered through, from the lowest bit of
the first word on.
-/

namespace MyJavaExample.Lib

/-- A bitmap of `n` words of `w` bits. -/
abbrev Bitmap (n w : ℕ) := Fin n → BitVec w

namespace Bitmap

variable {n w : ℕ} {m m' : Bitmap n w} {i j : ℕ}

/-- The bit numbered `i`; past the last word there is none. -/
def bit (m : Bitmap n w) (i : ℕ) : Bool :=
  if h : i / w < n then (m ⟨i / w, h⟩).getLsbD (i % w) else false

def insert (m : Bitmap n w) (i : ℕ) : Bitmap n w := fun k =>
  if k.val = i / w then m k ||| BitVec.twoPow w (i % w) else m k

def erase (m : Bitmap n w) (i : ℕ) : Bitmap n w := fun k =>
  if k.val = i / w then m k &&& ~~~BitVec.twoPow w (i % w) else m k

theorem div_lt (h : i < n * w) : i / w < n :=
  Nat.div_lt_of_lt_mul (Nat.mul_comm n w ▸ h)

theorem pos_of_lt (h : i < n * w) : 0 < w :=
  Nat.pos_of_ne_zero fun hw => by simp [hw] at h

/-- Two numbers in one word are the same if their bits in it are. -/
theorem eq_iff_div_mod : i = j ↔ i / w = j / w ∧ i % w = j % w := by
  refine ⟨fun h => h ▸ ⟨rfl, rfl⟩, fun ⟨hd, hm⟩ => ?_⟩
  rw [← Nat.div_add_mod i w, ← Nat.div_add_mod j w, hd, hm]

theorem bit_insert (hi : i < n * w) : (m.insert i).bit j = (decide (j = i) || m.bit j) := by
  have hw : 0 < w := pos_of_lt hi
  unfold bit
  by_cases hj : j / w < n
  · simp only [hj, dite_true, insert]
    by_cases hk : j / w = i / w
    · have hlt : i % w < w := Nat.mod_lt i hw
      have heq : (j = i) ↔ i % w = j % w := by
        rw [eq_iff_div_mod (w := w)]
        exact ⟨fun h => h.2.symm, fun h => ⟨hk, h.symm⟩⟩
      simp only [hk, if_true, BitVec.getLsbD_or, BitVec.getLsbD_twoPow, hlt, decide_true,
        Bool.true_and, heq, Bool.or_comm]
    · have hne : j ≠ i := fun h => hk (h ▸ rfl)
      simp [hk, hne]
  · have hne : j ≠ i := fun h => hj (h ▸ div_lt hi)
    simp [hj, hne]

theorem bit_erase (hi : i < n * w) : (m.erase i).bit j = (decide (j ≠ i) && m.bit j) := by
  have hw : 0 < w := pos_of_lt hi
  unfold bit
  by_cases hj : j / w < n
  · simp only [hj, dite_true, erase]
    by_cases hk : j / w = i / w
    · have hlt : i % w < w := Nat.mod_lt i hw
      have hlt' : j % w < w := Nat.mod_lt j hw
      have heq : (j = i) ↔ i % w = j % w := by
        rw [eq_iff_div_mod (w := w)]
        exact ⟨fun h => h.2.symm, fun h => ⟨hk, h.symm⟩⟩
      simp only [hk, if_true, BitVec.getLsbD_and, BitVec.getLsbD_not, BitVec.getLsbD_twoPow, hlt,
        hlt', decide_true, Bool.true_and, ne_eq, heq, Bool.and_comm, decide_not]
    · have hne : j ≠ i := fun h => hk (h ▸ rfl)
      simp [hk, hne]
  · simp [hj]

theorem ext_bit (h : ∀ i < n * w, m.bit i = m'.bit i) : m = m' := by
  funext k
  refine BitVec.eq_of_getLsbD_eq fun b hb => ?_
  have hw : 0 < w := Nat.lt_of_le_of_lt (Nat.zero_le b) hb
  have hdiv : (k.val * w + b) / w = k.val := by
    rw [Nat.mul_comm, Nat.mul_add_div hw, Nat.div_eq_of_lt hb, Nat.add_zero]
  have hmod : (k.val * w + b) % w = b := by
    rw [Nat.mul_comm, Nat.mul_add_mod, Nat.mod_eq_of_lt hb]
  have hlt : k.val * w + b < n * w :=
    calc k.val * w + b < k.val * w + w := Nat.add_lt_add_left hb _
      _ = (k.val + 1) * w := (Nat.succ_mul _ _).symm
      _ ≤ n * w := Nat.mul_le_mul_right w k.isLt
  simpa [bit, hdiv, hmod] using h _ hlt

theorem erase_insert (hi : i < n * w) (h : m.bit i = false) : (m.insert i).erase i = m := by
  refine ext_bit fun j _ => ?_
  rw [bit_erase hi, bit_insert hi]
  by_cases hj : j = i
  · simp [hj, h]
  · simp [hj]

end Bitmap

end MyJavaExample.Lib
