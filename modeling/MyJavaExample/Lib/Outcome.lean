import Mathlib.Logic.Basic

/-!
# What a computation ends with

`Ends P E r` says that the result of `r` satisfies `P` or that its error
satisfies `E`.  A computation is judged piece by piece: `Ends.bind` carries what
is known of the first piece to the second.  `Agree R r s` compares two computations.
-/

namespace MyJavaExample.Lib

universe u v

variable {ε : Type u} {α β : Type v}

/-- The result satisfies `P`, or the error `E`. -/
def Ends (P : α → Prop) (E : ε → Prop) : Except ε α → Prop
  | .ok a => P a
  | .error e => E e

/-- What was returned came out of the two parts. -/
theorem bind_eq_ok {r : Except ε α} {f : α → Except ε β} {b : β} (h : r >>= f = .ok b) :
    ∃ a, r = .ok a ∧ f a = .ok b := by
  cases r with
  | error e => cases h
  | ok a => exact ⟨a, rfl, h⟩

theorem toOption_eq_some {r : Except ε α} {a : α} : r.toOption = some a ↔ r = .ok a := by
  cases r with
  | error e => constructor <;> intro h <;> cases h
  | ok b => constructor <;> intro h <;> cases h <;> rfl

namespace Ends

variable {P P' : α → Prop} {Q : β → Prop} {E E' : ε → Prop} {r : Except ε α} {f : α → Except ε β}
  {a : α} {e : ε}

theorem pure (h : P a) : Ends P E (pure a : Except ε α) := h

theorem throw (h : E e) : Ends P E (throw e : Except ε α) := h

theorem mono (h : Ends P E r) (hP : ∀ a, P a → P' a) (hE : ∀ e, E e → E' e) : Ends P' E' r := by
  cases r with
  | ok a => exact hP a h
  | error e => exact hE e h

theorem imp (h : Ends P E r) (hP : ∀ a, P a → P' a) : Ends P' E r := h.mono hP fun _ => id

theorem bind (h : Ends P E r) (hf : ∀ a, P a → Ends Q E (f a)) : Ends Q E (r >>= f) := by
  cases r with
  | ok a => exact hf a h
  | error e => exact h

theorem ite {p : Prop} [Decidable p] {s : Except ε α} (hr : p → Ends P E r)
    (hs : ¬p → Ends P E s) : Ends P E (if p then r else s) := by
  by_cases hp : p
  · rw [if_pos hp]
    exact hr hp
  · rw [if_neg hp]
    exact hs hp

theorem and (h : Ends P E r) (h' : Ends P' E r) : Ends (fun a => P a ∧ P' a) E r := by
  cases r with
  | ok a => exact ⟨h, h'⟩
  | error e => exact h

/-- A loop keeps an invariant that knows the part of the list that is done.  A step
is asked for with the list split at its element. -/
theorem foldlM {γ : Type v} {l : List γ} {g : β → γ → Except ε β} {I : List γ → β → Prop} {b : β}
    (step : ∀ done x rest b, l = done ++ x :: rest → I done b → Ends (I (done ++ [x])) E (g b x))
    (start : I [] b) : Ends (I l) E (l.foldlM g b) := by
  induction l generalizing I b with
  | nil => exact start
  | cons x l ih =>
      rw [List.foldlM_cons]
      refine (step [] x l b rfl start).bind fun b' hb => ?_
      refine ih (I := fun done => I (x :: done)) (fun done y rest b hl hI => ?_) hb
      exact step (x :: done) y rest b (by rw [hl]; rfl) hI

end Ends

/-- Both fail with the same error, or their results are related. -/
def Agree (R : α → β → Prop) : Except ε α → Except ε β → Prop
  | .ok a, .ok b => R a b
  | .error e, .error e' => e = e'
  | _, _ => False

namespace Agree

variable {R : α → β → Prop} {r r' : Except ε α} {s s' : Except ε β} {a : α} {b : β}

theorem pure (h : R a b) : Agree R (pure a : Except ε α) (pure b) := h

theorem throw (e : ε) : Agree R (throw e : Except ε α) (throw e) := Eq.refl e

theorem ite {p q : Prop} [Decidable p] [Decidable q] (hpq : p ↔ q) (h : p → Agree R r s)
    (h' : ¬p → Agree R r' s') : Agree R (if p then r else r') (if q then s else s') := by
  by_cases hp : p
  · rw [if_pos hp, if_pos (hpq.1 hp)]
    exact h hp
  · rw [if_neg hp, if_neg (mt hpq.2 hp)]
    exact h' hp

end Agree

end MyJavaExample.Lib
