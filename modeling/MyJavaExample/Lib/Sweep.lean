import Mathlib.Data.List.Basic
import Mathlib.Order.Basic
import Mathlib.Order.Lattice

/-!
# Two sweeps

An elevator serves the requests of the current sweep in ascending order and then
those of the next one: a queue is two ascending runs.  `insertSweep` puts an
element after the first, into the run where it fits.
-/

namespace MyJavaExample.Lib

variable {α κ : Type*} [LinearOrder κ] {key : α → κ} {r t n : α} {l : List α}

/-- The keys are strictly increasing. -/
def Ascending (key : α → κ) (l : List α) : Prop := l.Pairwise fun a b => key a < key b

/-- At most two strictly increasing runs. -/
def TwoRuns (key : α → κ) (l : List α) : Prop :=
  ∃ a b, l = a ++ b ∧ Ascending key a ∧ Ascending key b

/-- Insert `r` into the list `t :: l`, after the first element `x` with successor
`y` where `r` is between the two, or where a new run begins and `r` is below it. -/
def insertSweep (key : α → κ) (r : α) : α → List α → List α
  | t, [] => [t, r]
  | t, n :: l =>
      if (key t < key r ∨ ¬key t < key n) ∧ key r < key n then t :: r :: n :: l
      else t :: insertSweep key r n l

theorem insertSweep_eq_cons (r t : α) (l : List α) :
    ∃ l', insertSweep key r t l = t :: l' := by
  cases l with
  | nil => exact ⟨[r], rfl⟩
  | cons n l =>
      rw [insertSweep]
      split
      · exact ⟨_, rfl⟩
      · exact ⟨_, rfl⟩

theorem perm_insertSweep (r t : α) (l : List α) : (insertSweep key r t l).Perm (r :: t :: l) := by
  induction l generalizing t with
  | nil => exact List.Perm.swap r t []
  | cons n l ih =>
      rw [insertSweep]
      split
      next => exact List.Perm.swap r t _
      next => exact ((ih n).cons t).trans (List.Perm.swap r t _)

theorem Ascending.tail (h : Ascending key (t :: l)) : Ascending key l :=
  (List.pairwise_cons.1 h).2

/-- A smaller element goes before an ascending list. -/
theorem Ascending.cons (h : Ascending key (n :: l)) (hlt : key t < key n) :
    Ascending key (t :: n :: l) := by
  refine List.pairwise_cons.2 ⟨fun x hx => ?_, h⟩
  rcases List.mem_cons.1 hx with rfl | hx
  · exact hlt
  · exact hlt.trans ((List.pairwise_cons.1 h).1 x hx)

theorem Ascending.twoRuns (h : Ascending key l) : TwoRuns key l :=
  ⟨l, [], (List.append_nil l).symm, h, List.Pairwise.nil⟩

/-- An element above the first of an ascending list is sorted in. -/
theorem Ascending.insertSweep_of_lt (h : Ascending key (t :: l)) (hlt : key t < key r)
    (hr : ∀ x ∈ l, key x ≠ key r) : Ascending key (insertSweep key r t l) := by
  induction l generalizing t with
  | nil => exact List.pairwise_pair.2 hlt
  | cons n l ih =>
      have htn : key t < key n := (List.pairwise_cons.1 h).1 n List.mem_cons_self
      rw [insertSweep]
      split
      next hc => exact (h.tail.cons hc.2).cons hlt
      next hc =>
        have hnr : key n < key r :=
          lt_of_le_of_ne (not_lt.1 fun hrn => hc ⟨Or.inl hlt, hrn⟩) (hr n List.mem_cons_self)
        have ih' := ih h.tail hnr fun x hx => hr x (List.mem_cons_of_mem n hx)
        obtain ⟨l', hl'⟩ := @insertSweep_eq_cons _ _ _ key r n l
        rw [hl'] at ih' ⊢
        exact ih'.cons htn

/-- An element below an ascending list goes to its end. -/
theorem Ascending.insertSweep_of_gt (h : Ascending key (t :: l)) (hlt : key r < key t) :
    insertSweep key r t l = t :: l ++ [r] := by
  induction l generalizing t with
  | nil => rfl
  | cons n l ih =>
      have htn : key t < key n := (List.pairwise_cons.1 h).1 n List.mem_cons_self
      rw [insertSweep, if_neg, ih h.tail (hlt.trans htn)]
      · rfl
      · rintro ⟨htr | hno, -⟩
        · exact lt_asymm hlt htr
        · exact hno htn

theorem Ascending.twoRuns_insertSweep (h : Ascending key (t :: l))
    (hr : ∀ x ∈ t :: l, key x ≠ key r) : TwoRuns key (insertSweep key r t l) := by
  rcases lt_or_gt_of_ne (hr t List.mem_cons_self) with hlt | hgt
  · exact (h.insertSweep_of_lt hlt fun x hx => hr x (List.mem_cons_of_mem t hx)).twoRuns
  · rw [h.insertSweep_of_gt hgt]
    exact ⟨_, [r], rfl, h, List.pairwise_singleton _ _⟩

/-- An element in front of two runs, smaller than the first of them. -/
theorem TwoRuns.cons (h : TwoRuns key (n :: l)) (hlt : key t < key n) :
    TwoRuns key (t :: n :: l) := by
  obtain ⟨a, b, hab, ha, hb⟩ := h
  cases a with
  | nil =>
      rw [List.nil_append] at hab
      subst hab
      exact (hb.cons hlt).twoRuns
  | cons x a =>
      obtain ⟨rfl, hl⟩ := List.cons.inj hab
      exact ⟨t :: n :: a, b, by rw [hl]; rfl, ha.cons hlt, hb⟩

/-- Two runs stay two runs. -/
theorem TwoRuns.insertSweep (h : TwoRuns key (t :: l)) (hr : ∀ x ∈ t :: l, key x ≠ key r) :
    TwoRuns key (insertSweep key r t l) := by
  obtain ⟨a, b, hab, ha, hb⟩ := h
  -- the induction is on the first run, up to where the second begins
  induction a generalizing t l with
  | nil =>
      rw [List.nil_append] at hab
      exact (hab ▸ hb : Ascending key (t :: l)).twoRuns_insertSweep hr
  | cons x a ih =>
      obtain ⟨rfl, hl⟩ := List.cons.inj hab
      cases l with
      | nil => exact ⟨[t], [r], rfl, List.pairwise_singleton _ _, List.pairwise_singleton _ _⟩
      | cons n l =>
          have hr' : ∀ x ∈ n :: l, key x ≠ key r := fun x hx => hr x (List.mem_cons_of_mem t hx)
          have htwo : TwoRuns key (n :: l) := ⟨a, b, hl, ha.tail, hb⟩
          by_cases htn : key t < key n
          · rw [Lib.insertSweep]
            split
            next hc => exact (htwo.cons hc.2).cons (hc.1.resolve_right (not_not_intro htn))
            next =>
              have ih' := ih hr' hl ha.tail
              obtain ⟨l', hl'⟩ := @insertSweep_eq_cons _ _ _ key r n l
              rw [hl'] at ih' ⊢
              exact ih'.cons htn
          · -- the second run begins at `n`
            obtain rfl : a = [] := by
              cases a with
              | nil => rfl
              | cons y a =>
                  obtain ⟨rfl, -⟩ := List.cons.inj hl
                  exact absurd ((List.pairwise_cons.1 ha).1 n List.mem_cons_self) htn
            obtain rfl : n :: l = b := hl
            rw [Lib.insertSweep]
            split
            next hc => exact ⟨[t], r :: n :: l, rfl, List.pairwise_singleton _ _, hb.cons hc.2⟩
            next hc =>
              have hnr : key n < key r := lt_of_le_of_ne
                (not_lt.1 fun hrn => hc ⟨Or.inr htn, hrn⟩) (hr' n List.mem_cons_self)
              exact ⟨[t], _, rfl, List.pairwise_singleton _ _,
                hb.insertSweep_of_lt hnr fun x hx => hr' x (List.mem_cons_of_mem n hx)⟩

/-- Only the keys of the elements matter. -/
theorem TwoRuns.congr {key' : α → κ} (h : TwoRuns key l) (heq : ∀ x ∈ l, key' x = key x) :
    TwoRuns key' l := by
  obtain ⟨a, b, rfl, ha, hb⟩ := h
  refine ⟨a, b, rfl, List.Pairwise.imp_of_mem ?_ ha, List.Pairwise.imp_of_mem ?_ hb⟩
  · intro x y hx hy hlt
    rwa [heq x (List.mem_append_left b hx), heq y (List.mem_append_left b hy)]
  · intro x y hx hy hlt
    rwa [heq x (List.mem_append_right a hx), heq y (List.mem_append_right a hy)]

/-- The first element is served. -/
theorem TwoRuns.tail (h : TwoRuns key (t :: l)) : TwoRuns key l := by
  obtain ⟨a, b, hab, ha, hb⟩ := h
  cases a with
  | nil =>
      rw [List.nil_append] at hab
      exact (hab ▸ hb : Ascending key (t :: l)).tail.twoRuns
  | cons x a => exact ⟨a, b, (List.cons.inj hab).2, ha.tail, hb⟩

end MyJavaExample.Lib
