import Mathlib.Data.List.Nodup
import Mathlib.Logic.Function.Basic

/-!
# Singly linked lists in a heap

Nodes are addresses and `next` gives the pointer of each.  `Seg next p l q` says
that from the pointer `p` the nodes `l` are passed, in this order, and the
pointer after them is `q`.  A list that ends is a segment to `none`.
-/

namespace MyJavaExample.Lib

variable {next next' : ℕ → Option ℕ} {p q r : Option ℕ} {a b : ℕ} {l l₁ l₂ : List ℕ}

/-- From `p` the nodes `l` lead to `q`. -/
def Seg (next : ℕ → Option ℕ) : Option ℕ → List ℕ → Option ℕ → Prop
  | p, [], q => p = q
  | p, a :: l, q => p = some a ∧ Seg next (next a) l q

namespace Seg

theorem append_iff : Seg next p (l₁ ++ l₂) r ↔ ∃ q, Seg next p l₁ q ∧ Seg next q l₂ r := by
  induction l₁ generalizing p with
  | nil => simp [Seg]
  | cons a l₁ ih =>
      rw [List.cons_append]
      simp only [Seg, ih]
      constructor
      · rintro ⟨rfl, q, h₁, h₂⟩
        exact ⟨q, ⟨rfl, h₁⟩, h₂⟩
      · rintro ⟨q, ⟨rfl, h₁⟩, h₂⟩
        exact ⟨rfl, q, h₁, h₂⟩

theorem append (h₁ : Seg next p l₁ q) (h₂ : Seg next q l₂ r) : Seg next p (l₁ ++ l₂) r :=
  append_iff.2 ⟨q, h₁, h₂⟩

/-- The nodes of a list are determined by its head. -/
theorem unique (h₁ : Seg next p l₁ none) (h₂ : Seg next p l₂ none) : l₁ = l₂ := by
  induction l₁ generalizing p l₂ with
  | nil =>
      cases l₂ with
      | nil => rfl
      | cons b l₂ => cases h₁.symm.trans h₂.1
  | cons a l₁ ih =>
      cases l₂ with
      | nil => cases h₁.1.symm.trans h₂
      | cons b l₂ =>
          obtain rfl : a = b := Option.some.inj (h₁.1.symm.trans h₂.1)
          rw [ih h₁.2 h₂.2]

/-- A list that ends passes no node twice. -/
theorem nodup (h : Seg next p l none) : l.Nodup := by
  induction l generalizing p with
  | nil => exact List.nodup_nil
  | cons a l ih =>
      refine List.nodup_cons.2 ⟨fun ha => ?_, ih h.2⟩
      obtain ⟨l₁, l₂, rfl⟩ := List.append_of_mem ha
      obtain ⟨q, -, hq⟩ := append_iff.1 h.2
      have hlen := congrArg List.length (unique h.2 hq.2)
      simp only [List.length_append, List.length_cons] at hlen
      omega

/-- Only the pointers of the nodes passed matter. -/
theorem congr (h : Seg next p l q) (hl : ∀ a ∈ l, next' a = next a) : Seg next' p l q := by
  induction l generalizing p with
  | nil => exact h
  | cons a l ih =>
      refine ⟨h.1, ?_⟩
      rw [hl a List.mem_cons_self]
      exact ih h.2 fun b hb => hl b (List.mem_cons_of_mem a hb)

/-- The pointer of a node outside the segment may change. -/
theorem update (h : Seg next p l q) (ha : a ∉ l) (x : Option ℕ) :
    Seg (Function.update next a x) p l q :=
  h.congr fun _ hb => Function.update_of_ne (ne_of_mem_of_not_mem hb ha) x next

/-- A new node is put before the first one. -/
theorem push (h : Seg next p l q) (ha : a ∉ l) :
    Seg (Function.update next a p) (some a) (a :: l) q := by
  refine ⟨rfl, ?_⟩
  rw [Function.update_self]
  exact h.update ha p

/-- A new node is hung onto the last one. -/
theorem snoc (h : Seg next p (l ++ [b]) none) (hb : b ∉ l) (hab : a ≠ b) (ha : next a = none) :
    Seg (Function.update next b (some a)) p (l ++ [b] ++ [a]) none := by
  obtain ⟨q, hl, hq⟩ := append_iff.1 h
  refine ((hl.update hb _).append ?_).append (q := some a) ⟨rfl, ?_⟩
  · exact ⟨hq.1, Function.update_self ..⟩
  · rw [Function.update_of_ne hab]
    exact ha

/-- The node after `b` is taken out. -/
theorem remove (h : Seg next p (l₁ ++ b :: a :: l₂) none) (hb : b ∉ l₁) (hb' : b ∉ l₂) :
    Seg (Function.update next b (next a)) p (l₁ ++ b :: l₂) none := by
  obtain ⟨q, h₁, hq, ha, h₂⟩ := append_iff.1 h
  refine (h₁.update hb _).append ⟨hq, ?_⟩
  rw [Function.update_self]
  exact h₂.update hb' _

end Seg

/-! ## Nodes at equal distances -/

/-- `n` addresses from `a` on, each `d` after the one before. -/
def strided (d : ℕ) : ℕ → ℕ → List ℕ
  | 0, _ => []
  | n + 1, a => a :: strided d n (a + d)

/-- Each of the `n` nodes before the last gets a pointer to the next one.  The
last node is returned too. -/
def linkRun (d : ℕ) : ℕ → (ℕ → Option ℕ) → ℕ → (ℕ → Option ℕ) × ℕ
  | 0, next, a => (next, a)
  | n + 1, next, a => linkRun d n (Function.update next a (some (a + d))) (a + d)

theorem mem_strided {d n a x : ℕ} : x ∈ strided d n a ↔ ∃ k < n, x = a + k * d := by
  induction n generalizing a with
  | zero => simp [strided]
  | succ n ih =>
      rw [strided, List.mem_cons, ih]
      constructor
      · rintro (rfl | ⟨k, hk, rfl⟩)
        · exact ⟨0, Nat.succ_pos n, by simp⟩
        · exact ⟨k + 1, Nat.succ_lt_succ hk, by rw [Nat.succ_mul]; omega⟩
      · rintro ⟨k, hk, rfl⟩
        cases k with
        | zero => simp
        | succ k =>
            exact Or.inr ⟨k, Nat.lt_of_succ_lt_succ hk, by rw [Nat.succ_mul]; omega⟩

theorem length_strided (d n a : ℕ) : (strided d n a).length = n := by
  induction n generalizing a with
  | zero => rfl
  | succ n ih => rw [strided, List.length_cons, ih]

theorem linkRun_last (d n : ℕ) (next : ℕ → Option ℕ) (a : ℕ) :
    (linkRun d n next a).2 = a + n * d := by
  induction n generalizing next a with
  | zero => simp [linkRun]
  | succ n ih => rw [linkRun, ih, Nat.succ_mul]; omega

/-- Only nodes of the run get new pointers. -/
theorem linkRun_of_notMem {d n x : ℕ} (hx : x ∉ strided d n a) :
    (linkRun d n next a).1 x = next x := by
  induction n generalizing next a with
  | zero => rfl
  | succ n ih =>
      rw [strided, List.mem_cons, not_or] at hx
      rw [linkRun, ih hx.2, Function.update_of_ne hx.1]

/-- With a last pointer to `q` the nodes are a segment to `q`. -/
theorem Seg.of_linkRun {d : ℕ} (hd : 0 < d) (n : ℕ) (next : ℕ → Option ℕ) (a : ℕ) (q : Option ℕ) :
    Seg (Function.update (linkRun d n next a).1 (linkRun d n next a).2 q) (some a)
      (strided d (n + 1) a) q := by
  induction n generalizing next a with
  | zero => exact ⟨rfl, Function.update_self ..⟩
  | succ n ih =>
      refine ⟨rfl, ?_⟩
      have hfirst : a ∉ strided d n (a + d) := by
        rintro h
        obtain ⟨k, -, hk⟩ := mem_strided.1 h
        omega
      have hlast : a ≠ (linkRun d (n + 1) next a).2 := by
        rw [linkRun_last, Nat.succ_mul]
        omega
      rw [Function.update_of_ne hlast, linkRun, linkRun_of_notMem hfirst, Function.update_self]
      exact ih _ _

/-- Nodes that are not of the run keep their pointers. -/
theorem update_linkRun_of_notMem {d n x : ℕ} {q : Option ℕ} (hx : x ∉ strided d (n + 1) a) :
    Function.update (linkRun d n next a).1 (linkRun d n next a).2 q x = next x := by
  have hlast : x ≠ (linkRun d n next a).2 := by
    rintro rfl
    exact hx (mem_strided.2 ⟨n, Nat.lt_succ_self n, linkRun_last d n next a⟩)
  have hrun : x ∉ strided d n a := fun h => by
    obtain ⟨k, hk, rfl⟩ := mem_strided.1 h
    exact hx (mem_strided.2 ⟨k, Nat.lt_succ_of_lt hk, rfl⟩)
  rw [Function.update_of_ne hlast, linkRun_of_notMem hrun]

end MyJavaExample.Lib
