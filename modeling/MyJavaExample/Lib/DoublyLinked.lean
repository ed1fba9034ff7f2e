import Mathlib.Data.List.Nodup
import Mathlib.Logic.Function.Basic

/-!
# Doubly linked lists

Every node has a pointer to the next node and one to the previous node, and
`none` is the null pointer.  `Linked next prev l` says that neighbours in `l`
point to each other.  The elements of `l` are pointers, so that a list that ends
(`Chain`) and a list that closes (`Ring`) are both of this form: the nodes
between two null pointers, or the nodes with the first one once more at the end.

A node is taken out by `Linked.unlink` and put in by `Linked.link`, whatever its
neighbours are.
-/

namespace MyJavaExample.Lib

variable {α : Type*}

/-- Neighbours in the list point to each other. -/
def Linked (next prev : α → Option α) : List (Option α) → Prop
  | x :: y :: l => (∀ a ∈ x, next a = y) ∧ (∀ b ∈ y, prev b = x) ∧ Linked next prev (y :: l)
  | _ => True

/-- The nodes between two null pointers. -/
def Chain (next prev : α → Option α) (l : List α) : Prop :=
  Linked next prev (none :: (l.map some ++ [none]))

/-- The nodes `a :: l` in a circle. -/
def Ring (next prev : α → Option α) : List α → Prop
  | [] => True
  | a :: l => Linked next prev ((a :: l).map some ++ [some a])

/-- Write a pointer of a node, if there is one. -/
def setAt [DecidableEq α] (f : α → Option α) (p v : Option α) : α → Option α :=
  match p with
  | none => f
  | some a => Function.update f a v

variable {next prev next' prev' : α → Option α} {x y z : Option α} {l l₁ l₂ : List (Option α)}
  {a b : α}

namespace Linked

theorem append_iff : Linked next prev (l₁ ++ x :: l₂) ↔
    Linked next prev (l₁ ++ [x]) ∧ Linked next prev (x :: l₂) := by
  induction l₁ with
  | nil => simp [Linked]
  | cons y l₁ ih =>
      cases l₁ with
      | nil => simp only [List.cons_append, List.nil_append, Linked, and_true, and_assoc]
      | cons w l₁ =>
          simp only [List.cons_append, Linked] at ih ⊢
          rw [ih, and_assoc, and_assoc]

/-- Only the next pointers of the nodes before the last one matter, and the
previous pointers of those after the first one. -/
theorem congr (h : Linked next prev l) (hn : ∀ a, some a ∈ l.dropLast → next' a = next a)
    (hp : ∀ b, some b ∈ l.tail → prev' b = prev b) : Linked next' prev' l := by
  induction l with
  | nil => trivial
  | cons x l ih =>
      cases l with
      | nil => trivial
      | cons y l =>
          obtain ⟨h₁, h₂, h₃⟩ := h
          refine ⟨fun a ha => ?_, fun b hb => ?_, ih h₃ (fun a ha => ?_) fun b hb => ?_⟩
          · rw [hn a (by simp [Option.mem_def.1 ha])]
            exact h₁ a ha
          · rw [hp b (by simp [Option.mem_def.1 hb])]
            exact h₂ b hb
          · exact hn a (by simp [ha])
          · exact hp b (by simpa using Or.inr hb)

theorem of_getElem (h : ∀ i (hi : i + 1 < l.length),
    (∀ a ∈ l[i], next a = l[i + 1]) ∧ ∀ b ∈ l[i + 1], prev b = l[i]) : Linked next prev l := by
  induction l with
  | nil => trivial
  | cons x l ih =>
      cases l with
      | nil => trivial
      | cons y l =>
          obtain ⟨hnext, hprev⟩ := h 0 (by simp)
          exact ⟨hnext, hprev, ih fun i hi => h (i + 1) (by simpa using hi)⟩

theorem setAt_self [DecidableEq α] (f : α → Option α) (ha : a ∈ x) (v : Option α) :
    setAt f x v a = v := by
  cases ha
  exact Function.update_self ..

theorem setAt_of_ne [DecidableEq α] (f : α → Option α) (ha : some a ≠ x) (v : Option α) :
    setAt f x v a = f a := by
  cases x with
  | none => rfl
  | some b => exact Function.update_of_ne (fun h => ha (congrArg some h)) ..

/-- A pointer that is written over with its own value. -/
theorem setAt_apply [DecidableEq α] (f : α → Option α) (p : Option α) (a : α) :
    setAt f p (f a) a = f a := by
  by_cases ha : some a = p
  · exact setAt_self f ha.symm _
  · exact setAt_of_ne f ha _

/-- The node `y` between `x` and `z` is taken out. -/
theorem unlink [DecidableEq α] (h : Linked next prev (l₁ ++ x :: y :: z :: l₂))
    (hx : ∀ a ∈ x, some a ∉ l₁ ∧ some a ∉ (z :: l₂).dropLast)
    (hz : ∀ b ∈ z, some b ∉ (l₁ ++ [x]).tail ∧ some b ∉ l₂) :
    Linked (setAt next x z) (setAt prev z x) (l₁ ++ x :: z :: l₂) := by
  rw [append_iff] at h ⊢
  obtain ⟨h₁, -, -, -, -, h₂⟩ := h
  refine ⟨h₁.congr (fun a ha => ?_) fun b hb => ?_, fun a ha => setAt_self _ ha _,
    fun b hb => setAt_self _ hb _, h₂.congr (fun a ha => ?_) fun b hb => ?_⟩
  · exact setAt_of_ne _ (fun hax => (hx a hax.symm).1 (by simpa using ha)) _
  · exact setAt_of_ne _ (fun hbz => (hz b hbz.symm).1 hb) _
  · exact setAt_of_ne _ (fun hax => (hx a hax.symm).2 ha) _
  · exact setAt_of_ne _ (fun hbz => (hz b hbz.symm).2 hb) _

/-- The node `b` is put between `x` and `z`. -/
theorem link [DecidableEq α] (h : Linked next prev (l₁ ++ x :: z :: l₂))
    (hx : ∀ a ∈ x, some a ∉ l₁ ∧ some a ∉ (z :: l₂).dropLast)
    (hz : ∀ c ∈ z, some c ∉ (l₁ ++ [x]).tail ∧ some c ∉ l₂)
    (hb : some b ∉ l₁ ++ x :: z :: l₂) :
    Linked (setAt (Function.update next b z) x (some b))
      (setAt (Function.update prev b x) z (some b)) (l₁ ++ x :: some b :: z :: l₂) := by
  have hbx : some b ≠ x := fun h => hb (by simp [h])
  have hbz : some b ≠ z := fun h => hb (by simp [h])
  have hb₁ : ∀ a, some a ∈ l₁ ++ x :: z :: l₂ → a ≠ b := by
    rintro a ha rfl
    exact hb ha
  rw [append_iff] at h ⊢
  obtain ⟨h₁, -, -, h₂⟩ := h
  refine ⟨h₁.congr (fun a ha => ?_) fun c hc => ?_, fun a ha => setAt_self _ ha _, ?_, ?_,
    fun c hc => setAt_self _ hc _, h₂.congr (fun a ha => ?_) fun c hc => ?_⟩
  · have hmem : some a ∈ l₁ := by simpa using ha
    rw [setAt_of_ne _ (fun hax => (hx a hax.symm).1 hmem), Function.update_of_ne]
    exact hb₁ a (by simp [hmem])
  · rw [setAt_of_ne _ (fun hcz => (hz c hcz.symm).1 hc), Function.update_of_ne]
    refine hb₁ c ?_
    rw [List.append_cons]
    exact List.mem_append_left _ (List.mem_of_mem_tail hc)
  · intro c hc
    cases hc
    rw [setAt_of_ne _ hbz, Function.update_self]
  · intro c hc
    cases hc
    rw [setAt_of_ne _ hbx, Function.update_self]
  · rw [setAt_of_ne _ (fun hax => (hx a hax.symm).2 ha), Function.update_of_ne]
    have hmem := List.dropLast_subset _ ha
    exact hb₁ a (List.mem_append_right _ (List.mem_cons_of_mem x hmem))
  · rw [setAt_of_ne _ (fun hcz => (hz c hcz.symm).2 hc), Function.update_of_ne]
    exact hb₁ c (by simp only [List.tail_cons] at hc; simp [hc])

end Linked

/-! ## Rings -/

namespace Ring

variable {m m₁ m₂ : List α}

/-- A circle has no first node. -/
theorem rotate (h : Ring next prev (m₁ ++ m₂)) : Ring next prev (m₂ ++ m₁) := by
  cases m₁ with
  | nil => simpa using h
  | cons a m₁ =>
      cases m₂ with
      | nil => simpa using h
      | cons b m₂ =>
          simp only [Ring, List.cons_append, List.map_append, List.map_cons,
            List.append_assoc] at h ⊢
          have h : Linked next prev (some a :: m₁.map some ++ [some b]) ∧
              Linked next prev (some b :: (m₂.map some ++ [some a])) := Linked.append_iff.1 h
          have h' : Linked next prev (some b :: m₂.map some ++ some a :: (m₁.map some ++ [some b])) :=
            Linked.append_iff.2 ⟨h.2, h.1⟩
          simpa using h'

/-- The node before the first one is the last one. -/
theorem prev_head (h : Ring next prev m) : m.head?.bind prev = m.getLast? := by
  rcases List.eq_nil_or_concat m with rfl | ⟨m', b, hm⟩
  · rfl
  rw [List.concat_eq_append] at hm
  subst hm
  cases m' with
  | nil => exact h.2.1 b rfl
  | cons a m' =>
      simp only [Ring, List.cons_append, List.map_append, List.map_cons, List.map_nil,
        List.append_assoc] at h
      have h : Linked next prev (some a :: m'.map some ++ [some b]) ∧
          Linked next prev [some b, some a] := Linked.append_iff.1 h
      have hprev := h.2.2.1 a rfl
      rw [List.getLast?_concat]
      exact hprev

/-- The last node is taken out. -/
theorem unlink_last [DecidableEq α] (h : Ring next prev (m ++ [b])) (hm : m ≠ []) (hnodup : m.Nodup) :
    next b = m.head? ∧ prev b = m.getLast? ∧
      Ring (setAt next (prev b) (next b)) (setAt prev (next b) (prev b)) m := by
  obtain ⟨m', d, rfl⟩ : ∃ m' d, m = m' ++ [d] := ⟨_, _, (List.dropLast_concat_getLast hm).symm⟩
  obtain ⟨c, m'', hc⟩ : ∃ c m'', m' ++ [d] = c :: m'' := List.exists_cons_of_ne_nil hm
  have hlinked : Linked next prev (m'.map some ++ some d :: some b :: some c :: []) := by
    have h' : Ring next prev (c :: (m'' ++ [b])) := by rwa [← List.cons_append, ← hc]
    have hmap := congrArg (List.map some) hc
    simp only [Ring, ← List.cons_append, ← hc] at h'
    simpa using h'
  obtain ⟨hdb, hbd, hbc, -⟩ := (Linked.append_iff.1 hlinked).2
  have hnext : next b = some c := hbc b rfl
  have hprev : prev b = some d := hbd b rfl
  refine ⟨by rw [hnext, hc]; rfl, by rw [hprev]; simp, ?_⟩
  rw [hnext, hprev]
  have hd : d ∉ m' := fun hd => (List.nodup_append.1 hnodup).2.2 d hd d (by simp) rfl
  have hctail : c ∉ m'' := by
    rw [hc] at hnodup
    exact (List.nodup_cons.1 hnodup).1
  have hres := hlinked.unlink (fun a ha => ?_) fun a ha => ?_
  · rw [hc]
    simp only [Ring, ← hc]
    simpa using hres
  · cases ha
    simpa using hd
  · cases ha
    have htail : (m'.map some ++ [some d]).tail = m''.map some := by
      have := congrArg (List.map some) hc
      simp only [List.map_append, List.map_cons, List.map_nil] at this
      rw [this]
      rfl
    rw [htail]
    simpa using hctail

/-- A node is taken out. -/
theorem unlink [DecidableEq α] (h : Ring next prev (m₁ ++ b :: m₂)) (hm : m₂ ++ m₁ ≠ [])
    (hnodup : (m₁ ++ b :: m₂).Nodup) : next b = (m₂ ++ m₁).head? ∧ prev b = (m₂ ++ m₁).getLast? ∧
      Ring (setAt next (prev b) (next b)) (setAt prev (next b) (prev b)) (m₁ ++ m₂) := by
  have hlast : Ring next prev (m₂ ++ m₁ ++ [b]) := by
    have h' : Ring next prev (m₂ ++ (m₁ ++ [b])) := Ring.rotate (by simpa using h)
    simpa using h'
  have hnodup' : (m₂ ++ m₁).Nodup := by
    have hperm : (b :: (m₁ ++ m₂)).Nodup := List.nodup_middle.1 hnodup
    exact List.nodup_append_comm.1 (List.nodup_cons.1 hperm).2
  obtain ⟨hnext, hprev, hring⟩ := hlast.unlink_last hm hnodup'
  exact ⟨hnext, hprev, hring.rotate⟩

/-- A node is put at the end. -/
theorem snoc [DecidableEq α] (h : Ring next prev m) (hm : m ≠ []) (hnodup : (m ++ [b]).Nodup) :
    Ring (setAt (Function.update next b m.head?) m.getLast? (some b))
      (setAt (Function.update prev b m.getLast?) m.head? (some b)) (m ++ [b]) := by
  obtain ⟨m', d, rfl⟩ : ∃ m' d, m = m' ++ [d] := ⟨_, _, (List.dropLast_concat_getLast hm).symm⟩
  obtain ⟨c, m'', hc⟩ : ∃ c m'', m' ++ [d] = c :: m'' := List.exists_cons_of_ne_nil hm
  obtain ⟨hnodup, -, hb⟩ := List.nodup_append.1 hnodup
  have hlinked : Linked next prev (m'.map some ++ some d :: some c :: []) := by
    rw [hc] at h
    simp only [Ring, ← hc] at h
    simpa using h
  have hd : d ∉ m' := fun hd => (List.nodup_append.1 hnodup).2.2 d hd d (by simp) rfl
  have hctail : c ∉ m'' := by
    rw [hc] at hnodup
    exact (List.nodup_cons.1 hnodup).1
  have hbm : b ∉ m' ++ [d] := fun hmem => hb b hmem b (by simp) rfl
  have hres := hlinked.link (b := b) (fun a ha => ?_) (fun a ha => ?_) ?_
  · have hhead : (m' ++ [d]).head? = some c := by rw [hc]; rfl
    have hlist : (c :: (m'' ++ [b])).map some ++ [some c] =
        m'.map some ++ some d :: some b :: some c :: [] := by
      rw [← List.cons_append, ← hc]
      simp
    rw [hhead, List.getLast?_concat, hc]
    show Linked _ _ ((c :: (m'' ++ [b])).map some ++ [some c])
    rw [hlist]
    exact hres
  · cases ha
    simpa using hd
  · cases ha
    have htail : (m'.map some ++ [some d]).tail = m''.map some := by
      have := congrArg (List.map some) hc
      simp only [List.map_append, List.map_cons, List.map_nil] at this
      rw [this]
      rfl
    rw [htail]
    simpa using hctail
  · have hbc : b ≠ c := by
      rintro rfl
      exact hbm (by rw [hc]; exact List.mem_cons_self)
    simp only [List.mem_append, List.mem_singleton, not_or] at hbm
    simp [hbm.1, hbm.2, hbc]

end Ring

/-! ## Chains -/

namespace Chain

variable {m m₁ m₂ : List α}

/-- The last pointer before a place in the chain. -/
theorem exists_left (m : List α) : ∃ l, none :: m.map some = l ++ [m.getLast?] ∧
    (m.Nodup → ∀ a ∈ m.getLast?, some a ∉ l) := by
  rcases List.eq_nil_or_concat m with rfl | ⟨m', d, hm⟩
  · exact ⟨[], rfl, by simp⟩
  · rw [List.concat_eq_append] at hm
    subst hm
    refine ⟨none :: m'.map some, by simp, fun hnodup a ha => ?_⟩
    obtain rfl : d = a := by simpa using ha
    have hd : d ∉ m' := fun hd => (List.nodup_append.1 hnodup).2.2 d hd d (by simp) rfl
    simpa using hd

/-- The first pointer after a place in the chain. -/
theorem exists_right (m : List α) : ∃ l, m.map some ++ [none] = m.head? :: l ∧
    (m.Nodup → ∀ a ∈ m.head?, some a ∉ l) := by
  cases m with
  | nil => exact ⟨[], rfl, by simp⟩
  | cons d m =>
      refine ⟨m.map some ++ [none], rfl, fun hnodup a ha => ?_⟩
      obtain rfl : d = a := by simpa using ha
      simpa using (List.nodup_cons.1 hnodup).1

/-- A node is taken out. -/
theorem unlink [DecidableEq α] (h : Chain next prev (m₁ ++ b :: m₂))
    (hnodup : (m₁ ++ b :: m₂).Nodup) : next b = m₂.head? ∧ prev b = m₁.getLast? ∧
      Chain (setAt next (prev b) (next b)) (setAt prev (next b) (prev b)) (m₁ ++ m₂) := by
  obtain ⟨l₁, hleft, hl₁⟩ := exists_left m₁
  obtain ⟨l₂, hright, hl₂⟩ := exists_right m₂
  obtain ⟨hn₁, hn₂, hdisj⟩ := List.nodup_append.1 hnodup
  have hn₂' := (List.nodup_cons.1 hn₂).2
  have hlist : none :: ((m₁ ++ b :: m₂).map some ++ [none]) =
      l₁ ++ m₁.getLast? :: some b :: m₂.head? :: l₂ := by
    calc none :: ((m₁ ++ b :: m₂).map some ++ [none])
        = (none :: m₁.map some) ++ some b :: (m₂.map some ++ [none]) := by simp
      _ = l₁ ++ m₁.getLast? :: some b :: m₂.head? :: l₂ := by rw [hleft, hright]; simp
  have hlist' : none :: ((m₁ ++ m₂).map some ++ [none]) =
      l₁ ++ m₁.getLast? :: m₂.head? :: l₂ := by
    calc none :: ((m₁ ++ m₂).map some ++ [none])
        = (none :: m₁.map some) ++ (m₂.map some ++ [none]) := by simp
      _ = l₁ ++ m₁.getLast? :: m₂.head? :: l₂ := by rw [hleft, hright]; simp
  unfold Chain at h ⊢
  rw [hlist] at h
  rw [hlist']
  obtain ⟨-, hprev, hnext, -⟩ := (Linked.append_iff.1 h).2
  rw [hnext b rfl, hprev b rfl]
  refine ⟨rfl, rfl, h.unlink (fun a ha => ⟨hl₁ hn₁ a ha, ?_⟩) fun a ha => ⟨?_, hl₂ hn₂' a ha⟩⟩
  · have hmem : a ∈ m₁ := List.mem_of_getLast? ha
    rw [← hright]
    simpa using fun h₂ => hdisj a hmem a (List.mem_cons_of_mem b h₂) rfl
  · have hmem : a ∈ m₂ := List.mem_of_head? ha
    rw [← hleft]
    simpa using fun h₁ => hdisj a h₁ a (List.mem_cons_of_mem b hmem) rfl

/-- A node is put before the first one. -/
theorem push [DecidableEq α] (h : Chain next prev m) (hnodup : m.Nodup) (hb : b ∉ m) :
    Chain (Function.update next b m.head?) (setAt (Function.update prev b none) m.head? (some b))
      (b :: m) := by
  obtain ⟨l, hright, hl⟩ := exists_right m
  unfold Chain at h ⊢
  rw [List.map_cons, List.cons_append, hright]
  rw [hright] at h
  have hnot : some b ∉ none :: m.head? :: l := by
    rw [← hright]
    simpa using hb
  exact Linked.link (show Linked next prev ([] ++ none :: m.head? :: l) from h) (by simp)
    (fun a ha => ⟨by simp, hl hnodup a ha⟩) hnot

/-- The chain depends on the pointers of its nodes only. -/
theorem congr (h : Chain next prev m) (hn : ∀ a ∈ m, next' a = next a)
    (hp : ∀ a ∈ m, prev' a = prev a) : Chain next' prev' m :=
  Linked.congr h (fun a ha => hn a (by simpa using List.dropLast_subset _ ha))
    fun a ha => hp a (by simpa using ha)

end Chain

end MyJavaExample.Lib
