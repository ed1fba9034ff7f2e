import Mathlib.Data.List.Basic
import Mathlib.Logic.Function.Basic

/-!
# Stores that each belong to one agent

An agent `a` has a value at the address `x`, or none yet.  What a step does to
the stores is an effect: it belongs to one agent and leaves the others alone.
Whatever the other agents do, an agent finds at an address what it wrote there
last, or what was there before (`Effects.kept`).
-/

namespace MyJavaExample.Lib

variable {A X V : Type*}

inductive Effect (A X V : Type*) where
  | quiet
  /-- Values may appear, and none changes. -/
  | load (a : A)
  /-- One value is written, and others may appear. -/
  | write (a : A) (x : X) (v : V)
  /-- The store of `b` becomes a copy of that of `a`. -/
  | clone (a b : A)
  | clear (a : A)

namespace Effect

/-- Values may appear in the store of `a`, except at the addresses of `p`. -/
def Grows (a : A) (p : X → Prop) (v v' : A → X → Option V) : Prop :=
  (∀ b, b ≠ a → v' b = v b) ∧ ∀ x y, ¬p x → v a x = some y → v' a x = some y

def Step [DecidableEq A] : Effect A X V → (A → X → Option V) → (A → X → Option V) → Prop
  | quiet, v, v' => v' = v
  | load a, v, v' => Grows a (fun _ => False) v v'
  | write a x y, v, v' => v' a x = some y ∧ Grows a (· = x) v v'
  | clone a b, v, v' => v' = Function.update v b (v a)
  | clear a, v, v' => v' = Function.update v a fun _ => none

/-- The agent starts anew. -/
def renews (a : A) : Effect A X V → Prop
  | clone _ b => b = a
  | clear b => b = a
  | _ => False

/-- What the agent wrote at the address, `r` if it did not. -/
def written [DecidableEq A] [DecidableEq X] (a : A) (x : X) (r : Option V) :
    Effect A X V → Option V
  | write b z y => if b = a ∧ z = x then some y else r
  | _ => r

variable [DecidableEq A] {e : Effect A X V} {v v' : A → X → Option V} {a : A} {x : X} {y : V}

theorem Grows.keep {b : A} {p : X → Prop} (h : Grows b p v v') (hx : b = a → ¬p x)
    (hv : v a x = some y) : v' a x = some y := by
  by_cases heq : a = b
  · subst heq
    exact h.2 x y (hx rfl) hv
  · rw [h.1 a heq, hv]

/-- The step lemma: an agent that does not start anew finds what it wrote. -/
theorem Step.kept [DecidableEq X] (h : e.Step v v') (hno : ¬e.renews a)
    (hy : e.written a x (v a x) = some y) : v' a x = some y := by
  cases e with
  | quiet =>
      rw [show v' = v from h]
      exact hy
  | load b => exact Grows.keep h (fun _ => id) hy
  | write b z w =>
      rw [written] at hy
      split at hy
      next heq =>
        obtain ⟨rfl, rfl⟩ := heq
        exact h.1.trans hy
      next hne => exact h.2.keep (fun heq hz => hne ⟨heq, hz.symm⟩) hy
  | clone b c =>
      rw [show v' = _ from h, Function.update_of_ne fun heq => hno heq.symm]
      exact hy
  | clear b =>
      rw [show v' = _ from h, Function.update_of_ne fun heq => hno heq.symm]
      exact hy

end Effect

/-! ## Effects in turn -/

/-- The effects, one after the other, lead from the stores `v` to `v'`. -/
inductive Effects [DecidableEq A] :
    (A → X → Option V) → List (Effect A X V) → (A → X → Option V) → Prop where
  | nil {v} : Effects v [] v
  | cons {v v₁ v' e es} : Effect.Step e v v₁ → Effects v₁ es v' → Effects v (e :: es) v'

/-- The last value the agent wrote at the address, `r` if there is none. -/
def lastWritten [DecidableEq A] [DecidableEq X] (a : A) (x : X) (es : List (Effect A X V))
    (r : Option V) : Option V :=
  es.foldl (Effect.written a x) r

section InTurn

variable [DecidableEq A] [DecidableEq X] {es : List (Effect A X V)} {v v' : A → X → Option V}
variable {a : A} {x : X} {y : V}

/-- A later write does not depend on what was there. -/
theorem lastWritten_of_some {r : Option V} (h : lastWritten a x es none = some y) :
    lastWritten a x es r = some y := by
  induction es generalizing r with
  | nil => cases h
  | cons e es ih =>
      rw [lastWritten, List.foldl_cons] at h ⊢
      cases e with
      | write b z w =>
          rw [Effect.written] at h ⊢
          split at h
          next heq =>
            rw [if_pos heq]
            exact h
          next hne =>
            rw [if_neg hne]
            exact ih h
      | quiet => exact ih h
      | load b => exact ih h
      | clone b c => exact ih h
      | clear b => exact ih h

/-- The run lemma: an agent that does not start anew finds what it wrote last,
or what was there. -/
theorem Effects.kept (h : Effects v es v') (hno : ∀ e ∈ es, ¬e.renews a)
    (hy : lastWritten a x es (v a x) = some y) : v' a x = some y := by
  induction h with
  | nil => exact hy
  | @cons v v₁ v' e es hstep hrest ih =>
      refine ih (fun e he => hno e (List.mem_cons_of_mem _ he)) ?_
      rw [lastWritten, List.foldl_cons] at hy
      cases hw : e.written a x (v a x) with
      | some w =>
          rw [hw] at hy
          rw [hstep.kept (hno e List.mem_cons_self) hw]
          exact hy
      | none =>
          rw [hw] at hy
          exact lastWritten_of_some hy

end InTurn

end MyJavaExample.Lib
