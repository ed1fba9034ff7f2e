import Mathlib.Algebra.Group.Fin.Basic
import Mathlib.Algebra.Ring.Nat
import Mathlib.Data.List.Range
import Mathlib.Logic.Function.Basic

/-!
# Queues in a ring

Two indices into `n` cells.  The queue is what stands from `tail` up to `head`,
and holds at most `n - 1` elements.  `contents` is the queue as a list, oldest
element first; each operation is one list operation on it.
-/

namespace MyJavaExample.Lib

structure RingQueue (α : Type*) (n : ℕ) where
  head : Fin n
  tail : Fin n
  buf : Fin n → α

namespace RingQueue

variable {α : Type*} {n : ℕ} [NeZero n] (q : RingQueue α n)

def empty : Bool := q.head == q.tail

/-- The number of elements. -/
def chars : Fin n := q.head - q.tail

/-- The number of elements that there is still room for. -/
def left : Fin n := q.tail - q.head - 1

def full : Bool := q.left == 0

/-- The element that was put last. -/
def last : α := q.buf (q.head - 1)

def put (x : α) : RingQueue α n where
  head := q.head + 1
  tail := q.tail
  buf := Function.update q.buf q.head x

def get : α × RingQueue α n := (q.buf q.tail, { q with tail := q.tail + 1 })

/-- The element that was put last is taken back. -/
def unput : RingQueue α n := { q with head := q.head - 1 }

def flush : RingQueue α n := { q with head := q.tail }

/-- `k` cells from index `i` on. -/
def window (buf : Fin n → α) (i k : ℕ) : List α :=
  (List.range k).map fun j => buf (Fin.ofNat n (i + j))

def contents : List α := window q.buf q.tail q.chars

variable {q} {i k : ℕ} {buf : Fin n → α}

/-! ## Indices -/

omit [NeZero n] in
theorem val_sub_cases (a b : Fin n) :
    b.val ≤ a.val ∧ (a - b).val = a.val - b.val ∨ a.val < b.val ∧ (a - b).val = n + a.val - b.val := by
  have ha := a.isLt
  have hb := b.isLt
  by_cases h : b.val ≤ a.val
  · exact .inl ⟨h, Fin.sub_val_of_le h⟩
  · refine .inr ⟨Nat.lt_of_not_le h, ?_⟩
    rw [Fin.sub_def]
    show (n - b.val + a.val) % n = _
    rw [Nat.mod_eq_of_lt (by omega)]
    omega

theorem val_add_one (a : Fin n) : (a + 1).val = (a.val + 1) % n :=
  Nat.add_mod_mod a.val 1 n

theorem val_add_one_cases (a : Fin n) :
    a.val + 1 < n ∧ (a + 1).val = a.val + 1 ∨ a.val + 1 = n ∧ (a + 1).val = 0 := by
  have ha := a.isLt
  have hval : (a + 1).val = (a.val + 1) % n := val_add_one a
  rcases Nat.lt_or_eq_of_le ha with h | h
  · exact .inl ⟨h, by rw [hval, Nat.mod_eq_of_lt h]⟩
  · refine .inr ⟨h, ?_⟩
    rw [hval, show a.val + 1 = n from h, Nat.mod_self]

/-- `head` is `chars` after `tail`. -/
theorem ofNat_tail_add_chars : Fin.ofNat n (q.tail + q.chars) = q.head := by
  have h := q.head.isLt
  apply Fin.ext
  show (q.tail.val + (q.head - q.tail).val) % n = q.head.val
  rcases val_sub_cases q.head q.tail with ⟨hle, hval⟩ | ⟨hlt, hval⟩
  · rw [hval, Nat.add_sub_cancel' hle, Nat.mod_eq_of_lt h]
  · rw [hval, show q.tail.val + (n + q.head.val - q.tail.val) = q.head.val + n by omega,
      Nat.add_mod_right, Nat.mod_eq_of_lt h]

omit [NeZero n] in
theorem empty_iff : q.empty = true ↔ q.chars.val = 0 := by
  have h := q.head.isLt
  have ht := q.tail.isLt
  simp only [empty, beq_iff_eq, Fin.ext_iff]
  unfold chars
  rcases val_sub_cases q.head q.tail with ⟨hle, hval⟩ | ⟨hlt, hval⟩ <;> rw [hval] <;> omega

/-- What is there and what there is room for make up all cells but one. -/
theorem chars_add_left : q.chars.val + q.left.val + 1 = n := by
  have h := q.head.isLt
  have ht := q.tail.isLt
  unfold chars left
  have hlast := val_add_one_cases (q.tail - q.head - 1)
  rw [sub_add_cancel] at hlast
  rcases val_sub_cases q.head q.tail with ⟨hle, hval⟩ | ⟨hlt, hval⟩ <;>
    rcases val_sub_cases q.tail q.head with ⟨hle', hval'⟩ | ⟨hlt', hval'⟩ <;>
    rcases hlast with ⟨h₁, h₂⟩ | ⟨h₁, h₂⟩ <;> omega

theorem full_iff : q.full = true ↔ q.chars.val + 1 = n := by
  have h := q.chars_add_left
  simp only [full, beq_iff_eq, Fin.ext_iff, Fin.val_zero]
  omega

theorem chars_put (h : q.full = false) (x : α) : (q.put x).chars.val = q.chars.val + 1 := by
  have hlt := q.chars.isLt
  have hfull : q.chars.val + 1 ≠ n := fun hc => by simp [full_iff.2 hc] at h
  have hval : (q.put x).chars = q.chars + 1 := by
    show q.head + 1 - q.tail = q.head - q.tail + 1
    rw [add_sub_right_comm]
  rw [hval]
  rcases val_add_one_cases q.chars with ⟨-, h₁⟩ | ⟨h₁, -⟩ <;> omega

theorem chars_get (h : q.empty = false) : q.get.2.chars.val + 1 = q.chars.val := by
  have hne : q.chars.val ≠ 0 := fun hc => by simp [empty_iff.2 hc] at h
  have hval : q.get.2.chars + 1 = q.chars := by
    show q.head - (q.tail + 1) + 1 = q.head - q.tail
    rw [sub_add_eq_sub_sub, sub_add_cancel]
  rw [← hval] at hne ⊢
  rcases val_add_one_cases q.get.2.chars with ⟨-, h₁⟩ | ⟨-, h₁⟩ <;> omega

theorem chars_unput (h : q.empty = false) : q.unput.chars.val + 1 = q.chars.val := by
  have hne : q.chars.val ≠ 0 := fun hc => by simp [empty_iff.2 hc] at h
  have hval : q.unput.chars + 1 = q.chars := by
    show q.head - 1 - q.tail + 1 = q.head - q.tail
    rw [sub_right_comm, sub_add_cancel]
  rw [← hval] at hne ⊢
  rcases val_add_one_cases q.unput.chars with ⟨-, h₁⟩ | ⟨-, h₁⟩ <;> omega

/-! ## Contents -/

theorem window_succ : window buf i (k + 1) = window buf i k ++ [buf (Fin.ofNat n (i + k))] := by
  simp [window, List.range_succ]

theorem window_succ_left (a : Fin n) :
    window buf a (k + 1) = buf a :: window buf (a + 1 : Fin n) k := by
  have hfirst : Fin.ofNat n (a.val + 0) = a := Fin.ext (Nat.mod_eq_of_lt a.isLt)
  have hrest : ∀ j, Fin.ofNat n (a.val + (j + 1)) = Fin.ofNat n ((a + 1).val + j) := by
    intro j
    apply Fin.ext
    show (a.val + (j + 1)) % n = ((a + 1).val + j) % n
    rw [val_add_one, Nat.mod_add_mod, Nat.add_assoc, Nat.add_comm 1 j]
  simp only [window, List.range_succ_eq_map, List.map_cons, List.map_map, hfirst]
  congr 1
  refine List.map_congr_left fun j _ => ?_
  exact congrArg buf (hrest j)

/-- The cell behind the last one of the window is not in it. -/
theorem window_update {x : α} (hk : i + k < i + n) (hi : i < n) :
    window (Function.update buf (Fin.ofNat n (i + k)) x) i k = window buf i k := by
  refine List.map_congr_left fun j hj => Function.update_of_ne ?_ _ _
  have hj := List.mem_range.1 hj
  intro heq
  have heq : (i + j) % n = (i + k) % n := congrArg Fin.val heq
  rcases Nat.lt_or_ge (i + j) n with h₁ | h₁ <;> rcases Nat.lt_or_ge (i + k) n with h₂ | h₂
  · rw [Nat.mod_eq_of_lt h₁, Nat.mod_eq_of_lt h₂] at heq
    omega
  · rw [Nat.mod_eq_of_lt h₁, Nat.mod_eq_sub_mod h₂, Nat.mod_eq_of_lt (by omega)] at heq
    omega
  · omega
  · rw [Nat.mod_eq_sub_mod h₁, Nat.mod_eq_of_lt (by omega), Nat.mod_eq_sub_mod h₂,
      Nat.mod_eq_of_lt (by omega)] at heq
    omega

theorem length_contents : q.contents.length = q.chars.val := by
  simp [contents, window]

theorem contents_put (h : q.full = false) (x : α) : (q.put x).contents = q.contents ++ [x] := by
  have hlt := q.chars.isLt
  unfold contents
  rw [chars_put h, window_succ]
  have htail : (q.put x).tail = q.tail := rfl
  have hbuf : (q.put x).buf = Function.update q.buf (Fin.ofNat n (q.tail + q.chars)) x := by
    rw [ofNat_tail_add_chars]
    rfl
  rw [htail, hbuf, window_update (by omega) q.tail.isLt, Function.update_self]

theorem contents_get (h : q.empty = false) : q.contents = q.get.1 :: q.get.2.contents := by
  unfold contents
  rw [← chars_get h, window_succ_left]
  rfl

theorem contents_unput (h : q.empty = false) : q.contents = q.unput.contents ++ [q.last] := by
  have hhead := @ofNat_tail_add_chars _ _ _ q.unput
  unfold contents
  rw [← chars_unput h, window_succ]
  have hlast : q.last = q.buf (Fin.ofNat n (q.tail + q.unput.chars)) := by
    show q.buf (q.head - 1) = _
    exact congrArg q.buf hhead.symm
  rw [hlast]
  rfl

end RingQueue

end MyJavaExample.Lib
