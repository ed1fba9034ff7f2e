import Mathlib.Data.Fintype.BigOperators
import Mathlib.Data.Fintype.Card
import Mathlib.Data.Fintype.Prod
import Mathlib.Data.Fintype.Sum

/-!
# Counting references

`f : ι → Option α` says what each of finitely many places refers to.  `refCount f
a` is the number of places that refer to `a`.  A counter that is kept along
with `f` is changed by what `refCount_update` says when one place changes.

Where a place has several references at once, `w` counts those in what it holds, and
the counter is a sum over the places.
-/

namespace MyJavaExample.Lib

variable {ι α : Type*} [Fintype ι] [DecidableEq α]

/-- The number of places that refer to `a`. -/
def refCount (f : ι → Option α) (a : α) : ℕ := (Finset.univ.filter fun r => f r = some a).card

variable {f : ι → Option α} {a : α} {r s : ι}

theorem refCount_pos (h : f r = some a) : 0 < refCount f a :=
  Finset.card_pos.2 ⟨r, Finset.mem_filter.2 ⟨Finset.mem_univ r, h⟩⟩

theorem ne_some_of_refCount_eq_zero (h : refCount f a = 0) (r : ι) : f r ≠ some a :=
  fun hr => (refCount_pos hr).ne' h

theorem refCount_eq_zero (h : ∀ r, f r ≠ some a) : refCount f a = 0 := by
  rw [refCount, Finset.card_eq_zero, Finset.filter_eq_empty_iff]
  exact fun r _ => h r

/-- The only place that refers to `a`. -/
theorem eq_of_refCount_le_one (h : refCount f a ≤ 1) (hr : f r = some a) (hs : f s = some a) :
    r = s :=
  Finset.card_le_one.1 h r (Finset.mem_filter.2 ⟨Finset.mem_univ r, hr⟩) s
    (Finset.mem_filter.2 ⟨Finset.mem_univ s, hs⟩)

/-- Another place refers to `a` too. -/
theorem two_le_refCount (hr : f r = some a) (hs : f s = some a) (hne : r ≠ s) :
    2 ≤ refCount f a := by
  by_contra hlt
  exact hne (eq_of_refCount_le_one (by omega) hr hs)

/-- The places that refer to `a` can be told apart by `g`. -/
theorem refCount_le_card {β : Type*} [Fintype β] (g : ι → β)
    (h : ∀ r s, f r = some a → f s = some a → g r = g s → r = s) :
    refCount f a ≤ Fintype.card β := by
  classical
  have hinj : Set.InjOn g (Finset.univ.filter fun r => f r = some a) := by
    intro r hr s hs hg
    exact h r s (by simpa using hr) (by simpa using hs) hg
  rw [refCount, ← Finset.card_image_of_injOn hinj]
  exact Finset.card_le_univ _

/-- Changing one place changes the count of what it referred to and of what it
refers to now. -/
theorem refCount_update [DecidableEq ι] (f : ι → Option α) (r : ι) (v : Option α) (a : α) :
    refCount (Function.update f r v) a + (if f r = some a then 1 else 0) =
      refCount f a + (if v = some a then 1 else 0) := by
  have hsplit : ∀ g : ι → Option α, refCount g a =
      (Finset.univ.filter fun s => s ≠ r ∧ g s = some a).card + (if g r = some a then 1 else 0) := by
    intro g
    by_cases hg : g r = some a
    · have hins : (Finset.univ.filter fun s => g s = some a) =
          insert r (Finset.univ.filter fun s => s ≠ r ∧ g s = some a) := by
        ext s
        by_cases hs : s = r <;> simp [hs, hg]
      rw [refCount, hins, Finset.card_insert_of_notMem (by simp), if_pos hg]
    · rw [refCount, if_neg hg, Nat.add_zero]
      congr 1
      ext s
      by_cases hs : s = r <;> simp [hs, hg]
  have hrest : (Finset.univ.filter fun s => s ≠ r ∧ Function.update f r v s = some a) =
      Finset.univ.filter fun s => s ≠ r ∧ f s = some a := by
    ext s
    by_cases hs : s = r <;> simp [hs]
  rw [hsplit (Function.update f r v), hsplit f, hrest, Function.update_self]
  omega

/-- References from two kinds of places. -/
theorem refCount_elim {κ : Type*} [Fintype κ] (f : ι → Option α) (g : κ → Option α) (a : α) :
    refCount (Sum.elim f g) a = refCount f a + refCount g a := by
  rw [refCount, refCount, refCount, Finset.card_filter, Fintype.sum_sum_type, Finset.card_filter,
    Finset.card_filter]
  rfl

/-! ## Places with several references -/

open Finset in
/-- Changing what one place holds changes the sum by the references in it. -/
theorem sum_update_add {σ : Type*} [DecidableEq ι] (w : σ → ℕ) (h : ι → σ) (r : ι) (v : σ) :
    ∑ i, w (Function.update h r v i) + w (h r) = ∑ i, w (h i) + w v := by
  have hnew := sum_erase_add univ (fun i => w (Function.update h r v i)) (mem_univ r)
  have hold := sum_erase_add univ (fun i => w (h i)) (mem_univ r)
  have hsame : ∑ i ∈ univ.erase r, w (Function.update h r v i) = ∑ i ∈ univ.erase r, w (h i) :=
    sum_congr rfl fun i hi => by rw [Function.update_of_ne (ne_of_mem_erase hi)]
  rw [Function.update_self] at hnew
  omega

end MyJavaExample.Lib
