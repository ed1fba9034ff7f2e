import Mathlib.Logic.Basic

/-!
# Locks and their owners

`Owned owns lock` says that each locked thing has exactly one owner, and an
unlocked one none.  A lock is taken by one who is then the owner, given back by
its owner, or handed over to another.
-/

namespace MyJavaExample.Lib

variable {O B : Type*} {owns owns' : O → B → Prop} {lock lock' : B → Bool} {o p : O} {b : B}

structure Owned (owns : O → B → Prop) (lock : B → Bool) : Prop where
  lock_iff : ∀ b, lock b = true ↔ ∃ o, owns o b
  unique : ∀ b o o', owns o b → owns o' b → o = o'

namespace Owned

theorem locked (h : Owned owns lock) (ho : owns o b) : lock b = true := (h.lock_iff b).2 ⟨o, ho⟩

theorem not_owns (h : Owned owns lock) (hb : lock b = false) (o : O) : ¬owns o b := by
  intro ho
  rw [h.locked ho] at hb
  cases hb

theorem congr (h : Owned owns lock) (howns : ∀ o b, owns' o b ↔ owns o b)
    (hlock : ∀ b, lock' b = lock b) : Owned owns' lock' where
  lock_iff b := by
    rw [hlock, h.lock_iff]
    exact exists_congr fun o => (howns o b).symm
  unique b o o' ho ho' := h.unique b o o' ((howns o b).1 ho) ((howns o' b).1 ho')

/-- Somebody takes a lock that is free. -/
theorem take (h : Owned owns lock) (hb : lock b = false)
    (howns : ∀ o' b', owns' o' b' ↔ owns o' b' ∨ o' = o ∧ b' = b)
    (hlock : lock' b = true) (hne : ∀ b' ≠ b, lock' b' = lock b') : Owned owns' lock' where
  lock_iff b' := by
    by_cases hb' : b' = b
    · subst hb'
      exact iff_of_true hlock ⟨o, (howns o b').2 (.inr ⟨rfl, rfl⟩)⟩
    · rw [hne b' hb', h.lock_iff]
      refine exists_congr fun o' => ?_
      rw [howns, or_iff_left fun hno => hb' hno.2]
  unique b' o₁ o₂ h₁ h₂ := by
    rcases (howns o₁ b').1 h₁ with h₁ | ⟨rfl, rfl⟩ <;> rcases (howns o₂ b').1 h₂ with h₂ | ⟨rfl, hb'⟩
    · exact h.unique b' o₁ o₂ h₁ h₂
    · exact absurd (hb' ▸ h₁) (h.not_owns hb o₁)
    · exact absurd h₂ (h.not_owns hb o₂)
    · rfl

/-- The owner of a lock gives it back. -/
theorem release (h : Owned owns lock) (ho : owns o b)
    (howns : ∀ o' b', owns' o' b' ↔ owns o' b' ∧ o' ≠ o) (honly : ∀ b', owns o b' → b' = b)
    (hlock : lock' b = false) (hne : ∀ b' ≠ b, lock' b' = lock b') : Owned owns' lock' where
  lock_iff b' := by
    by_cases hb' : b' = b
    · subst hb'
      rw [hlock]
      refine iff_of_false Bool.false_ne_true ?_
      rintro ⟨o', ho'⟩
      obtain ⟨ho', hno⟩ := (howns o' b').1 ho'
      exact hno (h.unique b' o' o ho' ho)
    · rw [hne b' hb', h.lock_iff]
      refine exists_congr fun o' => ?_
      rw [howns, and_iff_left_of_imp]
      rintro ho' rfl
      exact hb' (honly b' ho')
  unique b' o₁ o₂ h₁ h₂ := h.unique b' o₁ o₂ ((howns o₁ b').1 h₁).1 ((howns o₂ b').1 h₂).1

/-- The owner of a lock hands it over. -/
theorem handOver (h : Owned owns lock) (ho : owns o b)
    (howns : ∀ o' b', owns' o' b' ↔ owns o' b' ∧ o' ≠ o ∨ o' = p ∧ b' = b)
    (honly : ∀ b', owns o b' → b' = b) (hlock : ∀ b', lock' b' = lock b') :
    Owned owns' lock' where
  lock_iff b' := by
    rw [hlock, h.lock_iff]
    constructor
    · rintro ⟨o', ho'⟩
      by_cases hoo : o' = o
      · subst hoo
        exact ⟨p, (howns p b').2 (.inr ⟨rfl, honly b' ho'⟩)⟩
      · exact ⟨o', (howns o' b').2 (.inl ⟨ho', hoo⟩)⟩
    · rintro ⟨o', ho'⟩
      rcases (howns o' b').1 ho' with ⟨ho', -⟩ | ⟨rfl, rfl⟩
      · exact ⟨o', ho'⟩
      · exact ⟨o, ho⟩
  unique b' o₁ o₂ h₁ h₂ := by
    rcases (howns o₁ b').1 h₁ with ⟨h₁, hne₁⟩ | ⟨rfl, rfl⟩ <;>
      rcases (howns o₂ b').1 h₂ with ⟨h₂, hne₂⟩ | ⟨rfl, hb'⟩
    · exact h.unique b' o₁ o₂ h₁ h₂
    · exact absurd (h.unique b o₁ o (hb' ▸ h₁) ho) hne₁
    · exact absurd (h.unique _ o₂ o h₂ ho) hne₂
    · rfl

end Owned

end MyJavaExample.Lib
