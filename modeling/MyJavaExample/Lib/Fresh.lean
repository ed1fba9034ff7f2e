import Mathlib.Data.Finset.Card
import Mathlib.Logic.Function.Iterate

/-!
# The search for an unused value

`searchFrom next used fuel x` goes through the values after `x` and stops at the
first one that is not used.  A search whose first candidates are pairwise
distinct and more than the used values ends.
-/

namespace MyJavaExample.Lib

variable {α : Type*}

/-- The first unused value after `x`, if it is found within `fuel` steps. -/
def searchFrom (next : α → α) (used : α → Bool) : ℕ → α → Option α
  | 0, _ => none
  | fuel + 1, x => if used (next x) then searchFrom next used fuel (next x) else some (next x)

variable {next : α → α} {used : α → Bool} {fuel n : ℕ} {x y : α}

theorem searchFrom_unused (h : searchFrom next used fuel x = some y) : used y = false := by
  induction fuel generalizing x with
  | zero => cases h
  | succ fuel ih =>
      rw [searchFrom] at h
      cases hused : used (next x) with
      | true =>
          rw [hused, if_pos rfl] at h
          exact ih h
      | false =>
          rw [hused, if_neg Bool.false_ne_true] at h
          cases h
          exact hused

/-- What every candidate satisfies, the result satisfies. -/
theorem searchFrom_of_step {P : α → Prop} (hstep : ∀ x, P x → P (next x)) (hx : P x)
    (h : searchFrom next used fuel x = some y) : P y := by
  induction fuel generalizing x with
  | zero => cases h
  | succ fuel ih =>
      rw [searchFrom] at h
      split at h
      next => exact ih (hstep x hx) h
      next =>
        cases h
        exact hstep x hx

/-- More fuel gives the same result. -/
theorem searchFrom_of_le (hle : fuel ≤ n) (h : searchFrom next used fuel x = some y) :
    searchFrom next used n x = some y := by
  induction fuel generalizing n x with
  | zero => cases h
  | succ fuel ih =>
      obtain ⟨n, rfl⟩ := Nat.exists_eq_add_of_lt hle
      rw [searchFrom] at h
      rw [searchFrom]
      split at h
      next hused =>
        rw [if_pos hused]
        exact ih (by omega) h
      next hused =>
        rw [if_neg hused]
        exact h

theorem searchFrom_isSome (h : ∃ k < fuel, used (next^[k + 1] x) = false) :
    (searchFrom next used fuel x).isSome := by
  induction fuel generalizing x with
  | zero =>
      obtain ⟨k, hk, -⟩ := h
      exact absurd hk (Nat.not_lt_zero k)
  | succ fuel ih =>
      rw [searchFrom]
      cases hused : used (next x) with
      | false =>
          rw [if_neg Bool.false_ne_true]
          rfl
      | true =>
          rw [if_pos rfl]
          obtain ⟨k, hk, hfree⟩ := h
          cases k with
          | zero =>
              rw [Function.iterate_one, hused] at hfree
              cases hfree
          | succ k => exact ih ⟨k, Nat.lt_of_succ_lt_succ hk, hfree⟩

/-- Among more candidates than used values one is unused. -/
theorem exists_unused [DecidableEq α] {S : Finset α}
    (hdistinct : ∀ i < n, ∀ j < n, next^[i + 1] x = next^[j + 1] x → i = j)
    (hcard : S.card < n) : ∃ k < n, next^[k + 1] x ∉ S := by
  have hlt : S.card < ((Finset.range n).image fun k => next^[k + 1] x).card := by
    rwa [Finset.card_image_of_injOn, Finset.card_range]
    intro i hi j hj heq
    exact hdistinct i (Finset.mem_range.1 hi) j (Finset.mem_range.1 hj) heq
  obtain ⟨y, hy, hfree⟩ := Finset.exists_mem_notMem_of_card_lt_card hlt
  obtain ⟨k, hk, rfl⟩ := Finset.mem_image.1 hy
  exact ⟨k, Finset.mem_range.1 hk, hfree⟩

end MyJavaExample.Lib
