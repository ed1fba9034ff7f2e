import Mathlib.Data.List.Induction

/-!
# Executions of labelled transition systems

A system is a relation `step s a t`: in state `s` the action `a` leads to `t`.
`Exec step s as t` says that the actions `as`, taken in this order, lead from
`s` to `t`.  A property of every reachable state is proved by `Exec.invariant`:
it holds at the start and every step keeps it.

Some properties hold only of the runs whose steps meet a condition on the state
before the step.  `guarded ok step` is the system restricted to these steps, so
the same rule applies.
-/

namespace MyJavaExample.Lib

variable {σ ι : Type*} {step : σ → ι → σ → Prop}

/-- The actions `as`, taken in order, lead from `s` to `t`. -/
inductive Exec (step : σ → ι → σ → Prop) (s : σ) : List ι → σ → Prop where
  | refl : Exec step s [] s
  | tail {as : List ι} {t u : σ} {a : ι} :
      Exec step s as t → step t a u → Exec step s (as ++ [a]) u

/-- The steps of `step` whose state before and action satisfy `ok`. -/
def guarded (ok : σ → ι → Prop) (step : σ → ι → σ → Prop) : σ → ι → σ → Prop :=
  fun s a t => ok s a ∧ step s a t

/-- What holds at the start and is kept by every step holds at the end. -/
theorem Exec.invariant {I : σ → Prop} {s t : σ} {as : List ι} (h : Exec step s as t)
    (hs : I s) (hstep : ∀ {s a t}, I s → step s a t → I t) : I t := by
  induction h with
  | refl => exact hs
  | tail _ ha ih => exact hstep ih ha

/-- A run whose actions all meet a condition on the action alone. -/
theorem Exec.guarded_of_forall {ok : ι → Prop} {s t : σ} {as : List ι} (h : Exec step s as t)
    (hok : ∀ a ∈ as, ok a) : Exec (guarded (fun _ => ok) step) s as t := by
  induction h with
  | refl => exact .refl
  | tail _ ha ih =>
      exact .tail (ih fun a h => hok a (List.mem_append_left _ h)) ⟨hok _ (by simp), ha⟩

theorem Exec.eq_of_nil {s t : σ} (h : Exec step s [] t) : t = s := by
  generalize hnil : ([] : List ι) = as at h
  cases h with
  | refl => rfl
  | tail _ _ => simp at hnil

theorem Exec.cons {s t u : σ} {a : ι} {as : List ι} (ha : step s a t) (h : Exec step t as u) :
    Exec step s (a :: as) u := by
  induction h with
  | refl => exact .tail .refl ha
  | tail _ hb ih => exact .tail ih hb

/-- The runs of a partial step function are its folds. -/
theorem Exec.of_foldlM {next : σ → ι → Option σ} {t : σ} :
    ∀ {s : σ} {as : List ι}, as.foldlM next s = some t →
      Exec (fun s a t => next s a = some t) s as t
  | s, [], h => by
      cases h
      exact .refl
  | s, a :: as, h => by
      rw [List.foldlM_cons] at h
      obtain ⟨s', ha, has⟩ := Option.bind_eq_some_iff.1 h
      exact .cons ha (Exec.of_foldlM has)

/-- A run splits at every point of its action list. -/
theorem Exec.split {s u : σ} {as bs : List ι} (h : Exec step s (as ++ bs) u) :
    ∃ t, Exec step s as t ∧ Exec step t bs u := by
  induction bs using List.reverseRecOn generalizing u with
  | nil => exact ⟨u, by simpa using h, .refl⟩
  | append_singleton bs b ih =>
      rw [← List.append_assoc] at h
      generalize hcs : as ++ bs ++ [b] = cs at h
      cases h with
      | refl => simp at hcs
      | tail hr hb =>
          obtain ⟨rfl, hlast⟩ := List.append_inj' hcs rfl
          cases hlast
          obtain ⟨t, hst, htu⟩ := ih hr
          exact ⟨t, hst, .tail htu hb⟩

/-- The action after a prefix of a run is a step from the state the prefix
reaches. -/
theorem Exec.step_at {s u : σ} {as bs : List ι} {a : ι} (h : Exec step s (as ++ a :: bs) u) :
    ∃ t t', Exec step s as t ∧ step t a t' := by
  rw [List.append_cons] at h
  obtain ⟨t', h, -⟩ := h.split
  generalize hcs : as ++ [a] = cs at h
  cases h with
  | refl => simp at hcs
  | tail hr ha =>
      obtain ⟨rfl, hlast⟩ := List.append_inj' hcs rfl
      cases hlast
      exact ⟨_, _, hr, ha⟩

end MyJavaExample.Lib
