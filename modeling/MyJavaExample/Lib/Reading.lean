import Mathlib.Data.List.Basic
import Mathlib.Data.Nat.Notation

/-!
# Programs that read a stream

A program gets one value after the other from a source that it does not see.  It
has ended, or it waits for the next value; what it would leave if it never got
that value is part of the program.

A property of the values that were read and of what the program has done so far
(`Along`) is carried through a run together with an invariant of the source.
-/

namespace MyJavaExample.Lib

inductive Reading (ε κ β : Type) where
  | ended (e : ε) (left : κ)
  | get (left : κ) (next : β → Reading ε κ β)

namespace Reading

variable {ε κ β σ : Type}

/-- What a run leaves of the program and of its source. -/
structure Result (ε κ σ : Type) where
  how : ε
  left : κ
  source : σ

/-- A run with the values from index `i` on.  When the source fails, the program
ends where it is. -/
def run (fetch : ℕ → σ → Except (ε × σ) (β × σ)) : Reading ε κ β → ℕ → σ → Result ε κ σ
  | .ended e left, _, s => ⟨e, left, s⟩
  | .get left next, i, s =>
      match fetch i s with
      | .error (e, s) => ⟨e, left, s⟩
      | .ok (b, s) => run fetch (next b) (i + 1) s

/-- `n` values into `store`, then `next`. -/
def chars (store : List β → κ) (next : κ → Reading ε κ β) : ℕ → List β → Reading ε κ β
  | 0, bs => next (store bs)
  | n + 1, bs => .get (store bs) fun b => chars store next n (bs ++ [b])

/-- Wherever the program is, `P` holds of the values it has read and of what it
would leave. -/
def Along (P : List β → κ → Prop) : List β → Reading ε κ β → Prop
  | bs, .ended _ left => P bs left
  | bs, .get left next => P bs left ∧ ∀ b, Along P (bs ++ [b]) (next b)

variable {P : List β → κ → Prop} {bs : List β}

theorem Along.head {r : Reading ε κ β} (h : r.Along P bs) : ∃ left, P bs left := by
  cases r with
  | ended e left => exact ⟨left, h⟩
  | get left next => exact ⟨left, h.1⟩

theorem Along.imp {Q : List β → κ → Prop} {r : Reading ε κ β} (h : r.Along P bs)
    (hpq : ∀ bs left, P bs left → Q bs left) : r.Along Q bs := by
  induction r generalizing bs with
  | ended e left => exact hpq bs left h
  | get left next ih => exact ⟨hpq bs left h.1, fun b => ih b (h.2 b)⟩

theorem along_charsFrom {store : List β → κ} {next : κ → Reading ε κ β} {n : ℕ} {cs : List β}
    (hstore : ∀ ds, ds.length < cs.length + n → P (bs ++ ds) (store ds))
    (hnext : ∀ ds, ds.length = cs.length + n → Along P (bs ++ ds) (next (store ds))) :
    Along P (bs ++ cs) (chars store next n cs) := by
  induction n generalizing cs with
  | zero => exact hnext cs rfl
  | succ n ih =>
      refine ⟨hstore cs (by omega), fun b => ?_⟩
      have hlength : (cs ++ [b]).length + n = cs.length + (n + 1) := by
        rw [List.length_append, List.length_singleton]
        omega
      rw [List.append_assoc]
      exact ih (fun ds hds => hstore ds (hlength ▸ hds)) fun ds hds => hnext ds (hlength ▸ hds)

theorem along_chars {store : List β → κ} {next : κ → Reading ε κ β} {n : ℕ}
    (hstore : ∀ ds, ds.length < n → P (bs ++ ds) (store ds))
    (hnext : ∀ ds, ds.length = n → Along P (bs ++ ds) (next (store ds))) :
    Along P bs (chars store next n []) := by
  have h : Along P (bs ++ []) (chars store next n []) :=
    along_charsFrom (fun ds hds => hstore ds (by simpa using hds))
      fun ds hds => hnext ds (by simpa using hds)
  rwa [List.append_nil] at h

/-- A source that always gives its value: a round is over at once. -/
theorem run_chars {fetch : ℕ → σ → Except (ε × σ) (β × σ)} {value : ℕ → β}
    (hfetch : ∀ i s, fetch i s = .ok (value i, s)) {store : List β → κ}
    {next : κ → Reading ε κ β} {n i : ℕ} {s : σ} : run fetch (chars store next n bs) i s =
      run fetch (next (store (bs ++ (List.range' i n).map value))) (i + n) s := by
  induction n generalizing i bs with
  | zero => rw [chars, List.range'_zero, List.map_nil, List.append_nil, Nat.add_zero]
  | succ n ih =>
      rw [chars, run, hfetch]
      dsimp only
      rw [ih, List.range'_succ, List.map_cons, List.append_assoc, Nat.add_right_comm]
      rfl

/-- What holds of a run.  `R` is the invariant of the source while it gives
values, and `Q` what is left of it when it fails or when the program ends. -/
theorem run_along {fetch : ℕ → σ → Except (ε × σ) (β × σ)} {R Q : List β → σ → Prop}
    (hok : ∀ bs s b s', R bs s → (∀ b, ∃ left, P (bs ++ [b]) left) →
      fetch bs.length s = .ok (b, s') → R (bs ++ [b]) s')
    (herror : ∀ bs s e s', R bs s → (∀ b, ∃ left, P (bs ++ [b]) left) →
      fetch bs.length s = .error (e, s') → Q bs s')
    (hended : ∀ bs s, R bs s → Q bs s) {r : Reading ε κ β} (hr : r.Along P bs) {s : σ}
    (hs : R bs s) :
    ∃ bs', P bs' (run fetch r bs.length s).left ∧ Q bs' (run fetch r bs.length s).source := by
  induction r generalizing bs s with
  | ended e left => exact ⟨bs, hr, hended bs s hs⟩
  | get left next ih =>
      obtain ⟨hleft, hnext⟩ := hr
      have hheads : ∀ b, ∃ left, P (bs ++ [b]) left := fun b => (hnext b).head
      rw [run]
      split
      next e s' hfetch => exact ⟨bs, hleft, herror bs s e s' hs hheads hfetch⟩
      next b s' hfetch =>
        have hrest := ih b (hnext b) (hok bs s b s' hs hheads hfetch)
        rwa [List.length_append, List.length_singleton] at hrest

end Reading

end MyJavaExample.Lib
