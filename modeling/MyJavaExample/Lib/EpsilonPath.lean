import Mathlib.Computability.EpsilonNFA

/-!
# Paths of automata with empty moves

How the paths of an `εNFA` behave under a map of the states, under a property
that every step keeps, and where they leave a region.
-/

namespace MyJavaExample.Lib

variable {α σ τ : Type*} {M : εNFA α σ} {N : εNFA α τ} {s t : σ} {x : List (Option α)}

/-- A property that every step keeps holds at the end of a path. -/
theorem isPath_keeps {P : σ → Prop} (hstep : ∀ s a t, P s → t ∈ M.step s a → P t)
    (h : M.IsPath s t x) (hs : P s) : P t := by
  induction h with
  | nil s => exact hs
  | cons t s u a x hst _ ih => exact ih (hstep s a t hs hst)

/-- A map that carries the steps from the states with `P` carries their paths. -/
theorem isPath_map {P : σ → Prop} {f : σ → τ} (hP : ∀ s a t, P s → t ∈ M.step s a → P t)
    (hf : ∀ s a t, P s → t ∈ M.step s a → f t ∈ N.step (f s) a) (h : M.IsPath s t x) (hs : P s) :
    N.IsPath (f s) (f t) x := by
  induction h with
  | nil s => exact .nil _
  | cons t s u a x hst _ ih => exact .cons _ _ _ _ _ (hf s a t hs hst) (ih (hP s a t hs hst))

/-- The words of an automaton with one start and one accepting state. -/
theorem mem_accepts_iff {s₀ s₁ : σ} (hstart : M.start = {s₀}) (haccept : M.accept = {s₁})
    {w : List α} : w ∈ M.accepts ↔ ∃ x, x.reduceOption = w ∧ M.IsPath s₀ s₁ x := by
  rw [εNFA.mem_accepts_iff_exists_path]
  constructor
  · rintro ⟨s, t, x, hs, ht, hx, h⟩
    rw [hstart, Set.mem_singleton_iff] at hs
    rw [haccept, Set.mem_singleton_iff] at ht
    subst hs ht
    exact ⟨x, hx, h⟩
  · rintro ⟨x, hx, h⟩
    exact ⟨s₀, s₁, x, by simp [hstart], by simp [haccept], hx, h⟩

end MyJavaExample.Lib
