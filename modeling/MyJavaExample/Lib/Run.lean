import Mathlib.Logic.Basic

/-!
# Runs of a deterministic system

`next s a` is the state after action `a`.  A run is a list of actions.
`Always` says that a property holds in every state of a run, the first and the
last included; `EachStep` that every action meets a condition on the state
before it.

`always_iff` is the rule for a condition that is exact: under it an invariant is
kept, and the first action that violates it breaks the property.
-/

namespace MyJavaExample.Lib

variable {σ ι : Type*} (next : σ → ι → σ)

/-- `P` holds in every state of the run. -/
def Always (P : σ → Prop) : σ → List ι → Prop
  | s, [] => P s
  | s, a :: as => P s ∧ Always P (next s a) as

/-- Every action of the run meets `ok` in the state before it. -/
def EachStep (ok : σ → ι → Prop) : σ → List ι → Prop
  | _, [] => True
  | s, a :: as => ok s a ∧ EachStep ok (next s a) as

instance (ok : σ → ι → Prop) [∀ s a, Decidable (ok s a)] :
    ∀ s as, Decidable (EachStep next ok s as)
  | _, [] => inferInstanceAs (Decidable True)
  | s, a :: as =>
      have := instDecidableEachStep ok (next s a) as
      inferInstanceAs (Decidable (ok s a ∧ EachStep next ok (next s a) as))

variable {next} {P I : σ → Prop} {ok valid : σ → ι → Prop} {s : σ} {as : List ι}

theorem Always.start (h : Always next P s as) : P s := by
  cases as with
  | nil => exact h
  | cons a as => exact h.1

theorem Always.last (h : Always next P s as) : P (as.foldl next s) := by
  induction as generalizing s with
  | nil => exact h
  | cons a as ih => exact ih h.2

/-- An invariant that every step keeps holds all along. -/
theorem Always.of_invariant (hI : ∀ s, I s → P s) (hstep : ∀ s a, I s → I (next s a)) (hs : I s) :
    Always next P s as := by
  induction as generalizing s with
  | nil => exact hI s hs
  | cons a as ih => exact ⟨hI s hs, ih (hstep s a hs)⟩

/-- An invariant that allowed steps keep holds all along. -/
theorem EachStep.always (hI : ∀ s, I s → P s) (hstep : ∀ s a, I s → ok s a → I (next s a))
    (hs : I s) (h : EachStep next ok s as) : Always next P s as := by
  induction as generalizing s with
  | nil => exact hI s hs
  | cons a as ih => exact ⟨hI s hs, ih (hstep s a hs h.1) h.2⟩

theorem EachStep.of_forall (h : ∀ s a, ok s a) : EachStep next ok s as := by
  induction as generalizing s with
  | nil => trivial
  | cons a as ih => exact ⟨h s a, ih⟩

theorem EachStep.of_forall_mem (h : ∀ a ∈ as, ∀ s, ok s a) : EachStep next ok s as := by
  induction as generalizing s with
  | nil => trivial
  | cons a as ih =>
      exact ⟨h a List.mem_cons_self s, ih fun b hb => h b (List.mem_cons_of_mem a hb)⟩

/-- What an invariant gives for each allowed step. -/
theorem EachStep.of_invariant {meets : σ → ι → Prop} (h : ∀ s a, I s → ok s a → meets s a)
    (hstep : ∀ s a, I s → ok s a → I (next s a)) (hs : I s) (hok : EachStep next ok s as) :
    EachStep next meets s as := by
  induction as generalizing s with
  | nil => trivial
  | cons a as ih => exact ⟨h s a hs hok.1, ih (hstep s a hs hok.1) hok.2⟩

/-- If the first step that is not allowed breaks the property, every step of a
run in which the property holds is allowed. -/
theorem EachStep.of_always (hstep : ∀ s a, I s → valid s a → ok s a → I (next s a))
    (hbreak : ∀ s a, I s → valid s a → ¬ok s a → ¬P (next s a)) (hs : I s)
    (hvalid : EachStep next valid s as) (h : Always next P s as) : EachStep next ok s as := by
  induction as generalizing s with
  | nil => trivial
  | cons a as ih =>
      have hok : ok s a := Classical.not_not.1 fun hok => hbreak s a hs hvalid.1 hok h.2.start
      exact ⟨hok, ih (hstep s a hs hvalid.1 hok) hvalid.2 h.2⟩

/-- The steps of a run in two parts. -/
theorem EachStep.append {bs : List ι} (h : EachStep next ok s (as ++ bs)) :
    EachStep next ok s as ∧ EachStep next ok (as.foldl next s) bs := by
  induction as generalizing s with
  | nil => exact ⟨trivial, h⟩
  | cons a as ih => exact ⟨⟨h.1, (ih h.2).1⟩, (ih h.2).2⟩

theorem EachStep.and (h₁ : EachStep next valid s as) (h₂ : EachStep next ok s as) :
    EachStep next (fun s a => valid s a ∧ ok s a) s as := by
  induction as generalizing s with
  | nil => trivial
  | cons a as ih => exact ⟨⟨h₁.1, h₂.1⟩, ih h₁.2 h₂.2⟩

/-- A condition under which an invariant is kept and without which the property
breaks at once is exact. -/
theorem always_iff (hI : ∀ s, I s → P s) (hstep : ∀ s a, I s → valid s a → ok s a → I (next s a))
    (hbreak : ∀ s a, I s → valid s a → ¬ok s a → ¬P (next s a)) (hs : I s)
    (hvalid : EachStep next valid s as) : Always next P s as ↔ EachStep next ok s as :=
  ⟨EachStep.of_always hstep hbreak hs hvalid, fun hok =>
    (hvalid.and hok).always hI (fun s a hs h => hstep s a hs h.1 h.2) hs⟩

end MyJavaExample.Lib
