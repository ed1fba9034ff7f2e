import Mathlib.Data.Nat.Notation
import Mathlib.Logic.Function.Basic

/-!
# Ring buffers

A sequence passes through `cap` cells, element `i` through cell `i % cap`.
`Holds` says that the cells have the elements from `lo` up to `hi`.  Storing the
next element keeps this as long as the cell it goes to is free.
-/

namespace MyJavaExample.Lib.Ring

variable {α : Type*} {cells : ℕ → α} {cap lo hi : ℕ} {xs : List α}

/-- The cells have the elements of `xs` from `lo` up to `hi`. -/
def Holds (cells : ℕ → α) (cap : ℕ) (xs : List α) (lo hi : ℕ) : Prop :=
  ∀ i, lo ≤ i → i < hi → xs[i]? = some (cells (i % cap))

theorem Holds.mono {lo' hi' : ℕ} (h : Holds cells cap xs lo hi) (hlo : lo ≤ lo') (hhi : hi' ≤ hi) :
    Holds cells cap xs lo' hi' :=
  fun i h₁ h₂ => h i (Nat.le_trans hlo h₁) (Nat.lt_of_lt_of_le h₂ hhi)

theorem Holds.append (h : Holds cells cap xs lo hi) (hhi : hi ≤ xs.length) (ys : List α) :
    Holds cells cap (xs ++ ys) lo hi := by
  intro i h₁ h₂
  rw [List.getElem?_append_left (by omega)]
  exact h i h₁ h₂

/-- The next element is stored in a cell that is free. -/
theorem Holds.store (h : Holds cells cap xs lo hi) {x : α} (hx : xs[hi]? = some x)
    (hlt : hi < lo + cap) : Holds (Function.update cells (hi % cap) x) cap xs lo (hi + 1) := by
  intro i h₁ h₂
  by_cases heq : i = hi
  · subst heq
    rw [Function.update_self, hx]
  · have hne : i % cap ≠ hi % cap := by
      intro hmod
      -- both are less than `cap` after `lo`
      have h₃ := Nat.div_add_mod i cap
      have h₄ := Nat.div_add_mod hi cap
      have hlt' : i < hi := by omega
      have hdiv : i / cap < hi / cap := by
        by_contra hno
        have := Nat.mul_le_mul_left cap (Nat.not_lt.1 hno)
        omega
      have := Nat.mul_le_mul_left cap hdiv
      rw [Nat.mul_succ] at this
      omega
    rw [Function.update_of_ne hne]
    exact h i h₁ (by omega)

end MyJavaExample.Lib.Ring
