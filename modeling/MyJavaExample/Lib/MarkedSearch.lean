import Mathlib.Data.List.Induction
import Mathlib.Data.List.Lex
import Mathlib.Data.Prod.Lex
import Mathlib.Data.Finset.Card

/-!
# Breadth-first search that marks a node when it is polled

The search starts with one value.  Every value has a list of labelled children.  A
turn polls the first node of the queue, marks its value, and offers the children
whose values are not marked.  A value that waits in the queue is not marked yet, so
it may be offered again and be polled more than once.

All children together, marked or not, span a tree whose nodes are paths of
indices.  The search polls paths of this tree in breadth-first order (`rank`).  A
path it leaves out ends in a value that came earlier, and so do the paths below it.
So the values marked when a path is polled are those that occur in the tree up to
that path (`Inv.polled_iff`), whatever the search has left out.

If finitely many values can be reached, the search ends (`exists_finished`).
-/

namespace MyJavaExample.Lib.MarkedSearch

variable {A X : Type*}

/-! ## The order of the paths -/

/-- Shorter paths first, then by the first index that differs. -/
def rank (p : List ℕ) : ℕ ×ₗ List ℕ := toLex (p.length, p)

theorem rank_lt_iff {p q : List ℕ} :
    rank p < rank q ↔ p.length < q.length ∨ p.length = q.length ∧ p < q :=
  Prod.Lex.toLex_lt_toLex

theorem rank_injective : Function.Injective rank := fun _ _ h => congrArg (fun x => (ofLex x).2) h

theorem rank_lt_concat (p : List ℕ) (i : ℕ) : rank p < rank (p ++ [i]) :=
  rank_lt_iff.2 (Or.inl (by simp))

theorem concat_lt_concat {p q : List ℕ} (hlen : p.length = q.length) (h : p < q) (i j : ℕ) :
    p ++ [i] < q ++ [j] := by
  induction p generalizing q with
  | nil =>
      obtain rfl : q = [] := List.length_eq_zero_iff.1 hlen.symm
      exact absurd h (lt_irrefl _)
  | cons a p ih =>
      cases q with
      | nil => cases hlen
      | cons b q =>
          rw [List.cons_append, List.cons_append, List.cons_lt_cons_iff]
          rcases List.cons_lt_cons_iff.1 h with hlt | ⟨rfl, hlt⟩
          · exact Or.inl hlt
          · exact Or.inr ⟨rfl, ih (Nat.succ.inj hlen) hlt⟩

/-- The children of an earlier path come before those of a later one. -/
theorem rank_concat_lt {p q : List ℕ} (h : rank p < rank q) (i j : ℕ) :
    rank (p ++ [i]) < rank (q ++ [j]) := by
  rw [rank_lt_iff] at h ⊢
  rw [List.length_append, List.length_append]
  rcases h with hlen | ⟨hlen, hlt⟩
  · exact Or.inl (Nat.add_lt_add_right hlen _)
  · exact Or.inr ⟨congrArg (· + 1) hlen, concat_lt_concat hlen hlt i j⟩

theorem rank_concat_le {p q : List ℕ} (h : rank p ≤ rank q) (i : ℕ) :
    rank (p ++ [i]) ≤ rank (q ++ [i]) := by
  rcases h.eq_or_lt with heq | hlt
  · rw [rank_injective heq]
  · exact (rank_concat_lt hlt i i).le

theorem rank_concat_lt_of_lt (p : List ℕ) {i j : ℕ} (h : i < j) :
    rank (p ++ [i]) < rank (p ++ [j]) := by
  refine rank_lt_iff.2 (Or.inr ⟨by simp, ?_⟩)
  induction p with
  | nil => exact List.cons_lt_cons_iff.2 (Or.inl h)
  | cons a p ih => exact List.cons_lt_cons_iff.2 (Or.inr ⟨rfl, ih⟩)

theorem rank_nil_le (p : List ℕ) : rank [] ≤ rank p := by
  cases p with
  | nil => exact le_rfl
  | cons i p => exact (rank_lt_iff.2 (Or.inl (by simp))).le

/-! ## The tree -/

variable (children : A → List (X × A))

/-- The value at the end of a path from `start`. -/
def follow (start : A) (p : List ℕ) : Option A :=
  p.foldl (fun o i => o.bind fun a => (children a)[i]?.map Prod.snd) (some start)

theorem follow_concat (start : A) (p : List ℕ) (i : ℕ) : follow children start (p ++ [i]) =
    (follow children start p).bind fun a => (children a)[i]?.map Prod.snd :=
  List.foldl_append

/-- Child `i` of `b` is the last one with label `x` whose value is not old. -/
structure LastFresh (old : A → Prop) (b : A) (x : X) (i : ℕ) (a : A) : Prop where
  child : (children b)[i]? = some (x, a)
  fresh : ¬old a
  last : ∀ j > i, ∀ a', (children b)[j]? = some (x, a') → old a'

/-- The value occurs in the tree up to the path. -/
def Occurs (start : A) (p : List ℕ) (a : A) : Prop :=
  ∃ q, rank q ≤ rank p ∧ follow children start q = some a

/-! ## The search -/

/-- A path that was offered, and the value at its end. -/
structure Node (A : Type*) where
  path : List ℕ
  value : A

structure Search (A : Type*) where
  /-- The nodes polled so far, in order. -/
  done : List (Node A)
  queue : List (Node A)

def begin (start : A) : Search A := ⟨[], [⟨[], start⟩]⟩

variable {children} {start : A} {s : Search A}

/-! ## What a search keeps -/

/-- All nodes in the order in which they were offered. -/
def Search.nodes (s : Search A) : List (Node A) := s.done ++ s.queue

/-- A node with this value was polled, at the path or before. -/
def Polled (s : Search A) (p : List ℕ) (a : A) : Prop :=
  ∃ m ∈ s.done, rank m.path ≤ rank p ∧ m.value = a

variable (children start) in
structure Inv (s : Search A) : Prop where
  valid : ∀ n ∈ s.nodes, follow children start n.path = some n.value
  sorted : s.nodes.Pairwise fun m n => rank m.path < rank n.path
  root : ⟨[], start⟩ ∈ s.nodes
  /-- A node was offered by its parent. -/
  parent : ∀ n ∈ s.nodes, n.path = [] ∨ ∃ m ∈ s.done, ∃ i, n.path = m.path ++ [i]
  /-- When a node was offered, its value was not marked. -/
  fresh : ∀ p i a, ⟨p ++ [i], a⟩ ∈ s.nodes → ∀ m ∈ s.done, rank m.path ≤ rank p → m.value ≠ a
  /-- A child was offered unless its value was marked. -/
  covered : ∀ n ∈ s.done, ∀ i x a, (children n.value)[i]? = some (x, a) →
    Polled s n.path a ∨ ⟨n.path ++ [i], a⟩ ∈ s.nodes

theorem Inv.begin (children : A → List (X × A)) (start : A) : Inv children start (begin start) where
  valid n hn := by
    obtain rfl := List.mem_singleton.1 hn
    rfl
  sorted := List.pairwise_singleton _ _
  root := List.mem_singleton_self _
  parent n hn := by
    obtain rfl := List.mem_singleton.1 hn
    exact Or.inl rfl
  fresh p i a _ m hm := by cases hm
  covered n hn := by cases hn

section Polled

variable {n : Node A} {queue : List (Node A)}

theorem Inv.done_lt (hinv : Inv children start s) (h : s.queue = n :: queue) {m : Node A}
    (hm : m ∈ s.done) : rank m.path < rank n.path := by
  have hsorted := hinv.sorted
  rw [Search.nodes, h] at hsorted
  exact (List.pairwise_append.1 hsorted).2.2 m hm n List.mem_cons_self

theorem Inv.done_le (hinv : Inv children start s) (h : s.queue = n :: queue) {m : Node A}
    (hm : m ∈ s.done ++ [n]) : rank m.path ≤ rank n.path := by
  rcases List.mem_append.1 hm with hm | hm
  · exact (hinv.done_lt h hm).le
  · rw [List.mem_singleton.1 hm]

/-- The children of the polled node come after every node offered before. -/
theorem Inv.nodes_lt (hinv : Inv children start s) (h : s.queue = n :: queue) {m : Node A}
    (hm : m ∈ s.nodes) (i : ℕ) : rank m.path < rank (n.path ++ [i]) := by
  rcases hinv.parent m hm with hroot | ⟨k, hk, j, hpath⟩
  · rw [hroot]
    exact (rank_nil_le n.path).trans_lt (rank_lt_concat n.path i)
  · rw [hpath]
    exact rank_concat_lt (hinv.done_lt h hk) j i

end Polled

theorem Inv.index_unique (hinv : Inv children start s) {j k : ℕ} {m n : Node A}
    (hm : s.nodes[j]? = some m) (hn : s.nodes[k]? = some n) (hpath : m.path = n.path) : j = k := by
  obtain ⟨hj, rfl⟩ := List.getElem?_eq_some_iff.1 hm
  obtain ⟨hk, rfl⟩ := List.getElem?_eq_some_iff.1 hn
  rcases Nat.lt_trichotomy j k with hlt | rfl | hgt
  · have hrank := List.pairwise_iff_getElem.1 hinv.sorted j k hj hk hlt
    exact absurd (hpath ▸ hrank) (lt_irrefl _)
  · rfl
  · have hrank := List.pairwise_iff_getElem.1 hinv.sorted k j hk hj hgt
    exact absurd (hpath ▸ hrank) (lt_irrefl _)

/-- The start is the first node. -/
theorem Inv.getElem?_root (hinv : Inv children start s) : s.nodes[0]? = some ⟨[], start⟩ := by
  obtain ⟨k, hk⟩ := List.mem_iff_getElem?.1 hinv.root
  obtain ⟨hlt, heq⟩ := List.getElem?_eq_some_iff.1 hk
  cases k with
  | zero => exact hk
  | succ k =>
      have hrank := List.pairwise_iff_getElem.1 hinv.sorted 0 (k + 1) (by omega) hlt (by omega)
      rw [heq] at hrank
      exact absurd (rank_nil_le _) hrank.not_ge

/-! ## A search that has ended -/

section Finished

theorem Search.nodes_eq_done (hend : s.queue = []) : s.nodes = s.done := by
  rw [Search.nodes, hend, List.append_nil]

variable (hinv : Inv children start s) (hend : s.queue = [])

include hinv hend

/-- Every value of the tree was polled, at its path or before. -/
theorem Inv.polled {q : List ℕ} {a : A} (hq : follow children start q = some a) :
    Polled s q a := by
  have hnodes := Search.nodes_eq_done hend
  induction q using List.reverseRecOn generalizing a with
  | nil =>
      cases hq
      exact ⟨_, hnodes ▸ hinv.root, le_rfl, rfl⟩
  | append_singleton q i ih =>
      rw [follow_concat, Option.bind_eq_some_iff] at hq
      obtain ⟨b, hb, hchild⟩ := hq
      obtain ⟨⟨x, a'⟩, hi, rfl⟩ := Option.map_eq_some_iff.1 hchild
      obtain ⟨m, hm, hle, rfl⟩ := ih hb
      rcases hinv.covered m hm i x a' hi with ⟨k, hk, hkm, rfl⟩ | hnode
      · exact ⟨k, hk, (hkm.trans hle).trans (rank_lt_concat q i).le, rfl⟩
      · exact ⟨_, hnodes ▸ hnode, rank_concat_le hle i, rfl⟩

/-- The values marked when a node is polled are those that occur in the tree up to
its path. -/
theorem Inv.polled_iff {p : List ℕ} {a : A} : Polled s p a ↔ Occurs children start p a := by
  constructor
  · rintro ⟨m, hm, hle, rfl⟩
    exact ⟨m.path, hle, hinv.valid m (Search.nodes_eq_done hend ▸ hm)⟩
  · rintro ⟨q, hle, hq⟩
    obtain ⟨m, hm, hmq, rfl⟩ := hinv.polled hend hq
    exact ⟨m, hm, hmq.trans hle, rfl⟩

/-- The children of a polled node that were polled are those whose values do not
occur up to it. -/
theorem Inv.child_polled_iff {n : Node A} (hn : n ∈ s.done) {i : ℕ} {x : X} {a : A}
    (hi : (children n.value)[i]? = some (x, a)) :
    ⟨n.path ++ [i], a⟩ ∈ s.done ↔ ¬Occurs children start n.path a := by
  rw [← hinv.polled_iff hend]
  constructor
  · rintro hchild ⟨m, hm, hle, hvalue⟩
    rw [← Search.nodes_eq_done hend] at hchild
    exact hinv.fresh n.path i a hchild m hm hle hvalue
  · intro hfresh
    rw [← Search.nodes_eq_done hend]
    exact (hinv.covered n hn i x a hi).resolve_left hfresh

end Finished

/-! ## A turn -/

variable [DecidableEq A]

variable (children) in
/-- The children whose values are not marked, with their indices. -/
def kept (marks : List A) (a : A) : List ((X × A) × ℕ) :=
  (children a).zipIdx.filter fun c => c.1.2 ∉ marks

variable (children) in
/-- The children of a node that are offered. -/
def offered (marks : List A) (n : Node A) : List (Node A) :=
  (kept children marks n.value).map fun c => ⟨n.path ++ [c.2], c.1.2⟩

variable (children) in
def turn (s : Search A) : Search A :=
  match s.queue with
  | [] => s
  | n :: queue =>
      let done := s.done ++ [n]
      ⟨done, queue ++ offered children (done.map Node.value) n⟩

theorem mem_kept {marks : List A} {b : A} {x : X} {a : A} {i : ℕ} :
    ((x, a), i) ∈ kept children marks b ↔ (children b)[i]? = some (x, a) ∧ a ∉ marks := by
  rw [kept, List.mem_filter, List.mem_zipIdx_iff_getElem?, decide_eq_true_eq]

theorem kept_sorted (marks : List A) (b : A) :
    (kept children marks b).Pairwise fun c d => c.2 < d.2 := by
  have hidx : (children b).zipIdx.Pairwise fun c d => c.2 < d.2 := by
    rw [← List.pairwise_map (f := Prod.snd) (R := (· < ·)), List.zipIdx_map_snd]
    exact List.pairwise_lt_range'
  exact hidx.filter _

theorem kept_lt {marks : List A} {b : A} {r r' : ℕ} {c c' : (X × A) × ℕ}
    (hc : (kept children marks b)[r]? = some c) (hc' : (kept children marks b)[r']? = some c')
    (h : r < r') : c.2 < c'.2 := by
  obtain ⟨hr, rfl⟩ := List.getElem?_eq_some_iff.1 hc
  obtain ⟨hr', rfl⟩ := List.getElem?_eq_some_iff.1 hc'
  exact List.pairwise_iff_getElem.1 (kept_sorted marks b) r r' hr hr' h

theorem mem_offered {marks : List A} {n m : Node A} : m ∈ offered children marks n ↔
    ∃ i x, (children n.value)[i]? = some (x, m.value) ∧ m.path = n.path ++ [i] ∧
      m.value ∉ marks := by
  obtain ⟨p, a⟩ := m
  simp only [offered, List.mem_map, Prod.exists, mem_kept, Node.mk.injEq]
  constructor
  · rintro ⟨x, _, i, ⟨hi, hmark⟩, rfl, rfl⟩
    exact ⟨i, x, hi, rfl, hmark⟩
  · rintro ⟨i, x, hi, rfl, hmark⟩
    exact ⟨x, a, i, ⟨hi, hmark⟩, rfl, rfl⟩

theorem offered_sorted (marks : List A) (n : Node A) :
    (offered children marks n).Pairwise fun m k => rank m.path < rank k.path :=
  List.pairwise_map.2 ((kept_sorted marks n.value).imp (rank_concat_lt_of_lt n.path))

section Turn

variable {n : Node A} {queue : List (Node A)}

/-- A turn keeps the nodes and adds those it offers. -/
theorem turn_nodes (h : s.queue = n :: queue) : (turn children s).nodes =
    s.nodes ++ offered children ((s.done ++ [n]).map Node.value) n := by
  simp [turn, h, Search.nodes]

theorem turn_done (h : s.queue = n :: queue) : (turn children s).done = s.done ++ [n] := by
  simp [turn, h]

/-- What was polled up to an old node does not change. -/
theorem Inv.polled_turn (hinv : Inv children start s) {m : Node A} (hm : m ∈ s.done) {a : A} :
    Polled (turn children s) m.path a ↔ Polled s m.path a := by
  cases h : s.queue with
  | nil => rw [turn, h]
  | cons n queue =>
      unfold Polled
      rw [turn_done h]
      constructor
      · rintro ⟨k, hk, hle, rfl⟩
        rcases List.mem_append.1 hk with hk | hk
        · exact ⟨k, hk, hle, rfl⟩
        · obtain rfl := List.mem_singleton.1 hk
          exact absurd (hinv.done_lt h hm) hle.not_gt
      · rintro ⟨k, hk, hle, rfl⟩
        exact ⟨k, List.mem_append_left _ hk, hle, rfl⟩

/-- Up to the node that a turn polls, everything polled counts. -/
theorem Inv.polled_turn_self (hinv : Inv children start s)
    (h : s.queue = n :: queue) {a : A} :
    Polled (turn children s) n.path a ↔ a ∈ (s.done ++ [n]).map Node.value := by
  unfold Polled
  rw [turn_done h, List.mem_map]
  constructor
  · rintro ⟨m, hm, -, rfl⟩
    exact ⟨m, hm, rfl⟩
  · rintro ⟨m, hm, rfl⟩
    exact ⟨m, hm, hinv.done_le h hm, rfl⟩

theorem Inv.turn_cons (hinv : Inv children start s) (h : s.queue = n :: queue) :
    Inv children start (turn children s) := by
  have hn : n ∈ s.nodes := by
    rw [Search.nodes, h]
    exact List.mem_append_right _ List.mem_cons_self
  have hdone : ∀ {m}, m ∈ s.done → m ∈ s.done ++ [n] := List.mem_append_left _
  have hself : n ∈ s.done ++ [n] := List.mem_append_right _ (List.mem_singleton_self n)
  constructor <;> simp only [turn_nodes h, turn_done h]
  · intro m hm
    rcases List.mem_append.1 hm with hm | hm
    · exact hinv.valid m hm
    · obtain ⟨i, x, hi, hpath, -⟩ := mem_offered.1 hm
      rw [hpath, follow_concat, hinv.valid n hn, Option.bind_some, hi]
      rfl
  · refine List.pairwise_append.2 ⟨hinv.sorted, offered_sorted _ n, fun m hm k hk => ?_⟩
    obtain ⟨i, x, -, hpath, -⟩ := mem_offered.1 hk
    rw [hpath]
    exact hinv.nodes_lt h hm i
  · exact List.mem_append_left _ hinv.root
  · intro m hm
    rcases List.mem_append.1 hm with hm | hm
    · exact (hinv.parent m hm).imp_right fun ⟨k, hk, hpath⟩ => ⟨k, hdone hk, hpath⟩
    · obtain ⟨i, x, -, hpath, -⟩ := mem_offered.1 hm
      exact Or.inr ⟨n, hself, i, hpath⟩
  · intro p i a hm k hk hle
    rcases List.mem_append.1 hm with hold | hnew
    · rcases List.mem_append.1 hk with hk | hk
      · exact hinv.fresh p i a hold k hk hle
      · -- the parent of the node was polled before
        obtain rfl := List.mem_singleton.1 hk
        obtain ⟨m, hmdone, j, hpath⟩ := (hinv.parent _ hold).resolve_left (by simp)
        obtain ⟨rfl, -⟩ := List.append_inj' hpath rfl
        exact absurd (hinv.done_lt h hmdone) hle.not_gt
    · obtain ⟨j, x, -, -, hmark⟩ := mem_offered.1 hnew
      intro hvalue
      have hmem : k.value ∈ (s.done ++ [n]).map Node.value := List.mem_map_of_mem hk
      rw [hvalue] at hmem
      exact hmark hmem
  · intro m hm i x a hi
    rcases List.mem_append.1 hm with hm | hm
    · rcases hinv.covered m hm i x a hi with hpolled | hnode
      · exact Or.inl ((hinv.polled_turn hm).2 hpolled)
      · exact Or.inr (List.mem_append_left _ hnode)
    · obtain rfl := List.mem_singleton.1 hm
      by_cases hmark : a ∈ (s.done ++ [m]).map Node.value
      · exact Or.inl ((hinv.polled_turn_self h).2 hmark)
      · exact Or.inr (List.mem_append_right _ (mem_offered.2 ⟨i, x, hi, rfl, hmark⟩))

end Turn

theorem Inv.turn (hinv : Inv children start s) : Inv children start (turn children s) := by
  cases h : s.queue with
  | nil => rwa [MarkedSearch.turn, h]
  | cons n queue => exact hinv.turn_cons h

theorem Inv.iterate (hinv : Inv children start s) (k : ℕ) :
    Inv children start ((MarkedSearch.turn children)^[k] s) := by
  induction k with
  | zero => exact hinv
  | succ k ih =>
      rw [Function.iterate_succ_apply']
      exact ih.turn

/-! ## The search ends -/

section Ends

/-- The value of the node is marked. -/
def Marked (s : Search A) (a : A) : Prop := a ∈ s.done.map Node.value

instance (s : Search A) (a : A) : Decidable (Marked s a) :=
  inferInstanceAs (Decidable (a ∈ s.done.map Node.value))

variable (children) in
def Ends (s : Search A) : Prop := ∃ k, ((turn children)^[k] s).queue = []

theorem Ends.of_turn (h : Ends children (turn children s)) : Ends children s := by
  obtain ⟨k, hk⟩ := h
  exact ⟨k + 1, hk⟩

/-- The values that are still to be marked. -/
def toMark (U : Finset A) (s : Search A) : Finset A := U.filter fun a => ¬Marked s a

variable {U : Finset A} {n : Node A} {queue : List (Node A)}

theorem marked_turn (h : s.queue = n :: queue) {a : A} :
    Marked (turn children s) a ↔ Marked s a ∨ a = n.value := by
  simp [Marked, turn_done h]

theorem queue_turn (h : s.queue = n :: queue) : (turn children s).queue =
    queue ++ offered children ((s.done ++ [n]).map Node.value) n := by
  simp [turn, h]

/-- A turn that polls a marked value leaves the same values to be marked. -/
theorem toMark_turn (h : s.queue = n :: queue) (hn : Marked s n.value) :
    toMark U (turn children s) = toMark U s := by
  refine Finset.filter_congr fun a _ => ?_
  rw [marked_turn h]
  refine not_congr ⟨?_, Or.inl⟩
  rintro (ha | rfl)
  · exact ha
  · exact hn

/-- A turn that polls a value that is not marked marks it. -/
theorem card_toMark_turn (h : s.queue = n :: queue) (hn : ¬Marked s n.value) (hU : n.value ∈ U) :
    (toMark U (turn children s)).card < (toMark U s).card := by
  refine Finset.card_lt_card (Finset.ssubset_iff_subset_ne.2 ⟨fun a ha => ?_, fun heq => ?_⟩)
  · rw [toMark, Finset.mem_filter, marked_turn h] at ha
    exact Finset.mem_filter.2 ⟨ha.1, fun hmark => ha.2 (Or.inl hmark)⟩
  · have hmem : n.value ∈ toMark U s := Finset.mem_filter.2 ⟨hU, hn⟩
    rw [← heq, toMark, Finset.mem_filter, marked_turn h] at hmem
    exact hmem.2 (Or.inr rfl)

/-- The values of the queue are in `U`. -/
def Within (U : Finset A) (s : Search A) : Prop := ∀ n ∈ s.queue, n.value ∈ U

variable (hclosed : ∀ a ∈ U, ∀ c ∈ children a, c.2 ∈ U)

include hclosed

theorem Within.turn (hs : Within U s) : Within U (turn children s) := by
  cases h : s.queue with
  | nil => rwa [MarkedSearch.turn, h]
  | cons n queue =>
      intro m hm
      rw [queue_turn h] at hm
      rw [Within, h] at hs
      rcases List.mem_append.1 hm with hm | hm
      · exact hs m (List.mem_cons_of_mem n hm)
      · obtain ⟨i, x, hi, -, -⟩ := mem_offered.1 hm
        exact hclosed n.value (hs n List.mem_cons_self) (x, m.value) (List.mem_of_getElem? hi)

/-- A search whose queue holds a value to be marked gets there, and has less to mark
afterwards. -/
theorem ends_of_unmarked {c : ℕ}
    (ih : ∀ t, (toMark U t).card < c → Within U t → Ends children t) (hcard : (toMark U s).card = c)
    (hs : Within U s) {l r : List (Node A)} (hqueue : s.queue = l ++ n :: r)
    (hl : ∀ m ∈ l, Marked s m.value) (hn : ¬Marked s n.value) : Ends children s := by
  refine Ends.of_turn ?_
  induction l generalizing s r with
  | nil =>
      have hU : n.value ∈ U := hs n (by rw [hqueue]; exact List.mem_cons_self)
      exact ih _ (hcard ▸ card_toMark_turn hqueue hn hU) (hs.turn hclosed)
  | cons m l ihl =>
      have hm := hl m List.mem_cons_self
      rw [List.cons_append] at hqueue
      have hqueue' : (turn children s).queue =
          l ++ n :: (r ++ offered children ((s.done ++ [m]).map Node.value) m) := by
        rw [queue_turn hqueue, List.append_assoc, List.cons_append]
      refine Ends.of_turn (ihl ?_ (hs.turn hclosed) hqueue' ?_ ?_)
      · rw [toMark_turn hqueue hm, hcard]
      · intro k hk
        exact (marked_turn hqueue).2 (Or.inl (hl k (List.mem_cons_of_mem m hk)))
      · rw [marked_turn hqueue]
        rintro (hmark | heq)
        · exact hn hmark
        · exact hn (heq ▸ hm)

theorem ends_of_exists_unmarked {c : ℕ}
    (ih : ∀ t, (toMark U t).card < c → Within U t → Ends children t) (hcard : (toMark U s).card = c)
    (hs : Within U s) (h : ∃ n ∈ s.queue, ¬Marked s n.value) : Ends children s := by
  obtain ⟨n, hn, hmark⟩ := h
  obtain ⟨m, hm⟩ : ∃ m, s.queue.find? (fun n => ¬Marked s n.value) = some m :=
    Option.isSome_iff_exists.1 (List.find?_isSome.2 ⟨n, hn, decide_eq_true hmark⟩)
  obtain ⟨hmark', l, r, hqueue, hl⟩ := List.find?_eq_some_iff_append.1 hm
  refine ends_of_unmarked hclosed ih hcard hs hqueue (fun k hk => ?_) (of_decide_eq_true hmark')
  simpa using hl k hk

/-- If every value of the queue is marked, a turn offers a value to be marked, or the
queue gets shorter. -/
theorem ends_of_marked {c : ℕ}
    (ih : ∀ t, (toMark U t).card < c → Within U t → Ends children t) (hcard : (toMark U s).card = c)
    (hs : Within U s) (h : ∀ n ∈ s.queue, Marked s n.value) : Ends children s := by
  generalize hlen : s.queue.length = len
  induction len generalizing s with
  | zero => exact ⟨0, List.length_eq_zero_iff.1 hlen⟩
  | succ len ihlen =>
      obtain ⟨n, queue, hqueue⟩ := List.exists_cons_of_length_eq_add_one hlen
      have hn := h n (by rw [hqueue]; exact List.mem_cons_self)
      have hcard' : (toMark U (turn children s)).card = c := by
        rw [toMark_turn hqueue hn, hcard]
      refine Ends.of_turn ?_
      by_cases hunmarked : ∃ m ∈ (turn children s).queue, ¬Marked (turn children s) m.value
      · exact ends_of_exists_unmarked hclosed ih hcard' (hs.turn hclosed) hunmarked
      · push Not at hunmarked
        have hnone : offered children ((s.done ++ [n]).map Node.value) n = [] := by
          refine List.eq_nil_iff_forall_not_mem.2 fun m hm => ?_
          obtain ⟨-, -, -, -, hmark⟩ := mem_offered.1 hm
          refine hmark ?_
          rw [← turn_done hqueue]
          exact hunmarked m (by rw [queue_turn hqueue]; exact List.mem_append_right _ hm)
        refine ihlen hcard' (hs.turn hclosed) hunmarked ?_
        rw [queue_turn hqueue, hnone, List.append_nil]
        rw [hqueue] at hlen
        exact Nat.succ.inj hlen

theorem ends_of_within (hs : Within U s) : Ends children s := by
  generalize hc : (toMark U s).card = c
  induction c using Nat.strong_induction_on generalizing s with
  | _ c ih =>
      have ih' : ∀ t, (toMark U t).card < c → Within U t → Ends children t :=
        fun t ht hwithin => ih _ ht hwithin rfl
      by_cases hunmarked : ∃ n ∈ s.queue, ¬Marked s n.value
      · exact ends_of_exists_unmarked hclosed ih' hc hs hunmarked
      · push Not at hunmarked
        exact ends_of_marked hclosed ih' hc hs hunmarked

/-- If finitely many values can be reached, the search ends. -/
theorem exists_finished (hstart : start ∈ U) :
    ∃ k, ((turn children)^[k] (begin start)).queue = [] := by
  refine ends_of_within hclosed fun n hn => ?_
  rw [List.mem_singleton.1 hn]
  exact hstart

end Ends

end MyJavaExample.Lib.MarkedSearch
