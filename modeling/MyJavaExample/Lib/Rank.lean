import Mathlib.Algebra.BigOperators.Group.Finset.Basic
import Mathlib.Algebra.Ring.Nat
import MyJavaExample.Lib.Exec

/-!
# Executions that lower a rank

If every step lowers a rank, an execution is no longer than the rank at its
start.  The rank of a state with many parts is a sum over the parts, and a step
changes one of them.
-/

namespace MyJavaExample.Lib

theorem Exec.length_le_rank {σ ι : Type*} {step : σ → ι → σ → Prop} {I : σ → Prop} {r : σ → ℕ}
    {s t : σ} {as : List ι} (h : Exec step s as t) (hs : I s)
    (hstep : ∀ {s a t}, I s → step s a t → I t) (hrank : ∀ {s a t}, I s → step s a t → r t < r s) :
    as.length + r t ≤ r s := by
  induction h with
  | refl => simp
  | tail has ha ih =>
      have hlt := hrank (has.invariant hs hstep) ha
      rw [List.length_append, List.length_singleton]
      omega

/-- A sum over parts, one of which changes. -/
theorem sum_update {ι α : Type*} [DecidableEq ι] (parts : Finset ι) (g : ι → α) (f : α → ℕ) {i : ι}
    (hi : i ∈ parts) (a : α) :
    ∑ x ∈ parts, f (Function.update g i a x) + f (g i) = ∑ x ∈ parts, f (g x) + f a := by
  rw [← Finset.add_sum_erase parts _ hi, ← Finset.add_sum_erase parts (fun x => f (g x)) hi,
    Function.update_self]
  have hrest : ∑ x ∈ parts.erase i, f (Function.update g i a x) = ∑ x ∈ parts.erase i, f (g x) :=
    Finset.sum_congr rfl fun x hx => by rw [Function.update_of_ne (Finset.ne_of_mem_erase hx)]
  rw [hrest]
  omega

end MyJavaExample.Lib
