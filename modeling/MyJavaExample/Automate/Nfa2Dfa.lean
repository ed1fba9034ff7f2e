import MyJavaExample.Automate.Moves
import MyJavaExample.Lib.MarkedSearch

/-!
# From sets of states to a deterministic automaton: `NFA2DFA` and `DFA`

`nfa2Dfa` explores sets of states breadth-first.  The methods `getEmptyClosure` and
`moveToNextStateSet` of `NFA` are stubs, so they are parameters here, and `Completes`
says what they are to return.  The entries of the map and the states of its values
are listed in the order in which the loops go through them.

The numbers that `++state` gives are those of the sets in the order in which they
are offered to the queue, which is the order in which they are polled.  So state `k`
of the result stands for the set that was polled as number `k`, kept in `markSet`.

The loop treats the targets of an input one by one and makes no entry for a target
whose closure is marked.  The entry that remains is that of the last target whose
closure was not marked yet.  `nfa2Dfa_language_iff` says when this is enough: the
closure of that target must hold all targets of the input.  So in particular no set
may come back, as it does in every automaton with a loop.
-/

namespace MyJavaExample.Automate

open Lib Lib.MarkedSearch

/-! ## The class `DFA` -/

abbrev DfaTable : Type := AList fun _ : Str => ℕ

structure DFA where
  stateList : List DfaTable
deriving DecidableEq

namespace DFA

/-- The entry of state `k` for an input. -/
def move (d : DFA) (k : ℕ) (x : Str) : Option ℕ := d.stateList[k]?.bind fun m => m.lookup x

/-- The state after a word, from state 0. -/
def run (d : DFA) (w : List Str) : Option ℕ := w.foldl (fun o x => o.bind fun k => d.move k x) (some 0)

theorem run_concat (d : DFA) (w : List Str) (x : Str) :
    d.run (w ++ [x]) = (d.run w).bind fun k => d.move k x :=
  List.foldl_append

end DFA

/-! ## `nfa2Dfa` -/

/-- The variables of the outer loop.  What was added to `markSet` is kept in order. -/
structure Worklist where
  result : List DfaTable
  markSet : List (Finset ℤ)
  queue : List (Finset ℤ)
  state : ℕ

namespace Worklist

/-- What the inner loops change.  `moveTable` is the last table of the result. -/
structure Offers where
  moveTable : DfaTable
  queue : List (Finset ℤ)
  state : ℕ

variable (getEmptyClosure : ℤ → Finset ℤ) (moveToNextStateSet : Finset ℤ → List (Str × List ℤ))

/-- The body of the inner loops for a closure. -/
def offer (markSet : List (Finset ℤ)) (input : Str) (emptyClosure : Finset ℤ) (o : Offers) :
    Offers :=
  if emptyClosure ∈ markSet then o
  else
    { moveTable := o.moveTable.insert input (o.state + 1)
      queue := o.queue ++ [emptyClosure]
      state := o.state + 1 }

/-- The body of the outer loop. -/
def turn (w : Worklist) : Worklist :=
  match w.queue with
  | [] => w
  | currentSet :: queue =>
      let markSet := w.markSet ++ [currentSet]
      let o := (moveToNextStateSet currentSet).foldl (fun o entry =>
        entry.2.foldl (fun o nextState => offer markSet entry.1 (getEmptyClosure nextState) o) o)
        ⟨∅, queue, w.state⟩
      { result := w.result ++ [o.moveTable], markSet, queue := o.queue, state := o.state }

/-- The outer loop, for at most `fuel` turns. -/
def loop : ℕ → Worklist → Option Worklist
  | 0, w => if w.queue = [] then some w else none
  | fuel + 1, w => if w.queue = [] then some w
      else loop fuel (turn getEmptyClosure moveToNextStateSet w)

def begin : Worklist := ⟨[], [], [getEmptyClosure 0], 0⟩

end Worklist

def nfa2Dfa (getEmptyClosure : ℤ → Finset ℤ)
    (moveToNextStateSet : Finset ℤ → List (Str × List ℤ)) (fuel : ℕ) : Option DFA :=
  (Worklist.loop getEmptyClosure moveToNextStateSet fuel (.begin getEmptyClosure)).map fun w =>
    ⟨w.result⟩

/-! ## The loop as a search -/

/-- The targets of a set, each with its input and as its closure. -/
def targets (getEmptyClosure : ℤ → Finset ℤ) (moveToNextStateSet : Finset ℤ → List (Str × List ℤ))
    (S : Finset ℤ) : List (Str × Finset ℤ) :=
  (moveToNextStateSet S).flatMap fun e => e.2.map fun t => (e.1, getEmptyClosure t)

namespace Worklist

variable {getEmptyClosure : ℤ → Finset ℤ} {moveToNextStateSet : Finset ℤ → List (Str × List ℤ)}

/-- The two inner loops go through the targets. -/
theorem foldl_entries (markSet : List (Finset ℤ)) (es : List (Str × List ℤ)) (o : Offers) :
    es.foldl (fun o entry => entry.2.foldl (fun o nextState =>
      offer markSet entry.1 (getEmptyClosure nextState) o) o) o =
    (es.flatMap fun e => e.2.map fun t => (e.1, getEmptyClosure t)).foldl
      (fun o c => offer markSet c.1 c.2 o) o := by
  induction es generalizing o with
  | nil => rfl
  | cons e es ih =>
      rw [List.foldl_cons, ih, List.flatMap_cons, List.foldl_append, List.foldl_map]

/-- An offer without the test. -/
def add (o : Offers) (c : (Str × Finset ℤ) × ℕ) : Offers :=
  { moveTable := o.moveTable.insert c.1.1 (o.state + 1)
    queue := o.queue ++ [c.1.2]
    state := o.state + 1 }

/-- Only the targets that are not marked are added. -/
theorem foldl_offer (markSet : List (Finset ℤ)) (cs : List (Str × Finset ℤ)) (o : Offers) (k : ℕ) :
    cs.foldl (fun o c => offer markSet c.1 c.2 o) o =
      ((cs.zipIdx k).filter fun c => c.1.2 ∉ markSet).foldl add o := by
  induction cs generalizing o k with
  | nil => rfl
  | cons c cs ih =>
      rw [List.foldl_cons, ih _ (k + 1), List.zipIdx_cons, List.filter_cons]
      by_cases hmark : c.2 ∈ markSet
      · simp [offer, hmark]
      · simp [offer, hmark, add]

/-- What the additions leave. -/
theorem foldl_add (cs : List ((Str × Finset ℤ) × ℕ)) (o : Offers) :
    (cs.foldl add o).queue = o.queue ++ cs.map (fun c => c.1.2) ∧
      (cs.foldl add o).state = o.state + cs.length := by
  induction cs generalizing o with
  | nil => simp
  | cons c cs ih =>
      obtain ⟨hqueue, hstate⟩ := ih (add o c)
      rw [List.foldl_cons, hqueue, hstate]
      simp [add]
      omega

/-- The entry for an input is the number of the last addition for it. -/
theorem lookup_foldl_add {cs : List ((Str × Finset ℤ) × ℕ)} {queue : List (Finset ℤ)} {state : ℕ}
    {x : Str} {k : ℕ} : (cs.foldl add ⟨∅, queue, state⟩).moveTable.lookup x = some k ↔
      ∃ r c, k = state + 1 + r ∧ cs[r]? = some c ∧ c.1.1 = x ∧
        ∀ r' > r, ∀ c', cs[r']? = some c' → c'.1.1 ≠ x := by
  induction cs using List.reverseRecOn generalizing k with
  | nil => simp
  | append_singleton cs d ih =>
      have hstate := (foldl_add cs ⟨∅, queue, state⟩).2
      rw [List.foldl_append, List.foldl_cons, List.foldl_nil]
      by_cases hd : d.1.1 = x
      · subst hd
        have hlookup : (add (cs.foldl add ⟨∅, queue, state⟩) d).moveTable.lookup d.1.1 =
            some (state + 1 + cs.length) := by
          simp only [add, AList.lookup_insert, hstate]
          congr 1
          omega
        rw [hlookup, Option.some_inj]
        constructor
        · rintro rfl
          refine ⟨cs.length, d, rfl, by simp, rfl, fun r' hr' c' hc' => ?_⟩
          rw [List.getElem?_eq_none (by simp; omega)] at hc'
          cases hc'
        · rintro ⟨r, c, rfl, hc, -, hlast⟩
          have hr : r < cs.length + 1 := by
            simpa using (List.getElem?_eq_some_iff.1 hc).1
          rcases Nat.lt_or_ge r cs.length with hlt | hge
          · exact absurd rfl (hlast cs.length hlt d (by simp))
          · omega
      · have hlookup : (add (cs.foldl add ⟨∅, queue, state⟩) d).moveTable.lookup x =
            (cs.foldl add ⟨∅, queue, state⟩).moveTable.lookup x :=
          AList.lookup_insert_ne (Ne.symm hd)
        rw [hlookup, ih]
        constructor
        · rintro ⟨r, c, rfl, hc, hx, hlast⟩
          have hr := (List.getElem?_eq_some_iff.1 hc).1
          refine ⟨r, c, rfl, by rwa [List.getElem?_append_left hr], hx, fun r' hr' c' hc' => ?_⟩
          rcases Nat.lt_or_ge r' cs.length with hlt | hge
          · rw [List.getElem?_append_left hlt] at hc'
            exact hlast r' hr' c' hc'
          · obtain ⟨hr'', rfl⟩ := List.getElem?_eq_some_iff.1 hc'
            rw [List.getElem_append_right hge]
            simpa using hd
        · rintro ⟨r, c, rfl, hc, hx, hlast⟩
          rcases Nat.lt_or_ge r cs.length with hlt | hge
          · rw [List.getElem?_append_left hlt] at hc
            refine ⟨r, c, rfl, hc, hx, fun r' hr' c' hc' => ?_⟩
            have hr'' := (List.getElem?_eq_some_iff.1 hc').1
            exact hlast r' hr' c' (by rwa [List.getElem?_append_left hr''])
          · obtain ⟨hr, rfl⟩ := List.getElem?_eq_some_iff.1 hc
            rw [List.getElem_append_right hge] at hx
            exact absurd (by simpa using hx) hd

variable (getEmptyClosure moveToNextStateSet) in
/-- The variables of the loop are those of the search.  A table has for each input
the number of the last child with this input that was offered. -/
structure Refines (w : Worklist) (s : Search (Finset ℤ)) : Prop where
  markSet : w.markSet = s.done.map Node.value
  queue : w.queue = s.queue.map Node.value
  state : w.state + 1 = s.nodes.length
  length : w.result.length = s.done.length
  table : ∀ (j : ℕ) (n : Node (Finset ℤ)) (m : DfaTable), s.done[j]? = some n →
    w.result[j]? = some m → ∀ x k, m.lookup x = some k ↔ ∃ i a,
      LastFresh (targets getEmptyClosure moveToNextStateSet) (Polled s n.path) n.value x i a ∧
        s.nodes[k]? = some ⟨n.path ++ [i], a⟩

theorem Refines.begin : Refines getEmptyClosure moveToNextStateSet (begin getEmptyClosure)
    (MarkedSearch.begin (getEmptyClosure 0)) where
  markSet := rfl
  queue := rfl
  state := rfl
  length := rfl
  table j n m hn := by simp [MarkedSearch.begin] at hn

section Turn

variable {w : Worklist} {s : Search (Finset ℤ)} {n : Node (Finset ℤ)}
  {queue : List (Node (Finset ℤ))}

variable (getEmptyClosure moveToNextStateSet) in
/-- The targets of the polled set that are added. -/
def added (s : Search (Finset ℤ)) (n : Node (Finset ℤ)) : List ((Str × Finset ℤ) × ℕ) :=
  kept (targets getEmptyClosure moveToNextStateSet) ((s.done ++ [n]).map Node.value) n.value

theorem Refines.turn_eq (hr : Refines getEmptyClosure moveToNextStateSet w s)
    (h : s.queue = n :: queue) : turn getEmptyClosure moveToNextStateSet w =
      { result := w.result ++ [((added getEmptyClosure moveToNextStateSet s n).foldl add
          ⟨∅, queue.map Node.value, w.state⟩).moveTable]
        markSet := (s.done ++ [n]).map Node.value
        queue := queue.map Node.value ++
          (added getEmptyClosure moveToNextStateSet s n).map fun c => c.1.2
        state := w.state + (added getEmptyClosure moveToNextStateSet s n).length } := by
  have hqueue : w.queue = n.value :: queue.map Node.value := by
    rw [hr.queue, h, List.map_cons]
  have hmarks : w.markSet ++ [n.value] = (s.done ++ [n]).map Node.value := by
    rw [hr.markSet, List.map_append]
    rfl
  have hfold := foldl_add (added getEmptyClosure moveToNextStateSet s n)
    ⟨∅, queue.map Node.value, w.state⟩
  have hkept : (moveToNextStateSet n.value).foldl (fun o entry => entry.2.foldl
      (fun o nextState => offer ((s.done ++ [n]).map Node.value) entry.1
        (getEmptyClosure nextState) o) o) ⟨∅, queue.map Node.value, w.state⟩ =
      (added getEmptyClosure moveToNextStateSet s n).foldl add
        ⟨∅, queue.map Node.value, w.state⟩ := by
    rw [foldl_entries, foldl_offer _ _ _ 0]
    rfl
  simp only [turn, hqueue, hmarks, hkept, hfold]

/-- The nodes a turn offers. -/
theorem offered_eq : offered (targets getEmptyClosure moveToNextStateSet)
    ((s.done ++ [n]).map Node.value) n =
      (added getEmptyClosure moveToNextStateSet s n).map fun c => ⟨n.path ++ [c.2], c.1.2⟩ := rfl

variable (hinv : Inv (targets getEmptyClosure moveToNextStateSet) (getEmptyClosure 0) s)

include hinv

/-- The table of the polled set. -/
theorem lookup_added (h : s.queue = n :: queue) {state : ℕ} (hstate : state + 1 = s.nodes.length)
    {x : Str} {k : ℕ} :
    ((added getEmptyClosure moveToNextStateSet s n).foldl add
        ⟨∅, queue.map Node.value, state⟩).moveTable.lookup x = some k ↔
      ∃ i a, LastFresh (targets getEmptyClosure moveToNextStateSet)
          (Polled (MarkedSearch.turn (targets getEmptyClosure moveToNextStateSet) s) n.path)
          n.value x i a ∧
        (MarkedSearch.turn (targets getEmptyClosure moveToNextStateSet) s).nodes[k]? =
          some ⟨n.path ++ [i], a⟩ := by
  have hmem : ∀ {r : ℕ} {x : Str} {a : Finset ℤ} {i : ℕ},
      (added getEmptyClosure moveToNextStateSet s n)[r]? = some ((x, a), i) →
      (targets getEmptyClosure moveToNextStateSet n.value)[i]? = some (x, a) ∧
        a ∉ (s.done ++ [n]).map Node.value :=
    fun hr => mem_kept.1 (List.mem_of_getElem? hr)
  rw [lookup_foldl_add, turn_nodes h, offered_eq]
  constructor
  · rintro ⟨r, ⟨⟨_, a⟩, i⟩, rfl, hc, rfl, hlast⟩
    obtain ⟨hchild, hmark⟩ := hmem hc
    refine ⟨i, a, ⟨hchild, fun hp => hmark ((hinv.polled_turn_self h).1 hp), fun j hj a' hj' => ?_⟩,
      ?_⟩
    · rw [hinv.polled_turn_self h]
      by_contra hmark'
      obtain ⟨r', hc'⟩ := List.mem_iff_getElem?.1 (mem_kept.2 ⟨hj', hmark'⟩)
      rcases Nat.lt_trichotomy r r' with hlt | rfl | hgt
      · exact hlast r' hlt _ hc' rfl
      · cases hc.symm.trans hc'
        exact lt_irrefl _ hj
      · exact absurd (kept_lt hc' hc hgt) (Nat.lt_asymm hj)
    · rw [hstate, List.getElem?_append_right (Nat.le_add_right _ _), Nat.add_sub_cancel_left,
        List.getElem?_map, hc]
      rfl
  · rintro ⟨i, a, hlast, hk⟩
    rcases Nat.lt_or_ge k s.nodes.length with hlt | hge
    · -- no child of the polled node was there before
      rw [List.getElem?_append_left hlt] at hk
      exact absurd (hinv.nodes_lt h (List.mem_of_getElem? hk) i) (lt_irrefl _)
    · rw [List.getElem?_append_right hge, List.getElem?_map, Option.map_eq_some_iff] at hk
      obtain ⟨⟨⟨y, b⟩, j⟩, hc, heq⟩ := hk
      obtain ⟨hpath, rfl⟩ := Node.mk.inj heq
      obtain rfl : j = i := by simpa using hpath
      obtain ⟨hchild, -⟩ := hmem hc
      rw [hlast.child] at hchild
      cases hchild
      refine ⟨k - s.nodes.length, _, by omega, hc, rfl, fun r' hr' c' hc' hx => ?_⟩
      obtain ⟨⟨y, b'⟩, j'⟩ := c'
      obtain rfl : y = x := hx
      obtain ⟨hchild', hmark'⟩ := hmem hc'
      exact hmark' ((hinv.polled_turn_self h).1 (hlast.last j' (kept_lt hc hc' hr') b' hchild'))

/-- The nodes below an old node are not among the offers of a turn. -/
theorem getElem?_turn_nodes (h : s.queue = n :: queue) {m : Node (Finset ℤ)} (hm : m ∈ s.done)
    {i k : ℕ} {a : Finset ℤ} :
    (MarkedSearch.turn (targets getEmptyClosure moveToNextStateSet) s).nodes[k]? =
        some ⟨m.path ++ [i], a⟩ ↔ s.nodes[k]? = some ⟨m.path ++ [i], a⟩ := by
  rw [turn_nodes h]
  constructor
  · intro hk
    rcases Nat.lt_or_ge k s.nodes.length with hlt | hge
    · rwa [List.getElem?_append_left hlt] at hk
    · rw [List.getElem?_append_right hge] at hk
      obtain ⟨j, x, -, hpath, -⟩ := mem_offered.1 (List.mem_of_getElem? hk)
      obtain ⟨hpath', -⟩ := List.append_inj' hpath rfl
      exact absurd (hinv.done_lt h hm) (hpath' ▸ lt_irrefl _)
  · intro hk
    have hlt := (List.getElem?_eq_some_iff.1 hk).1
    rwa [List.getElem?_append_left hlt]

theorem Refines.turn (hr : Refines getEmptyClosure moveToNextStateSet w s) :
    Refines getEmptyClosure moveToNextStateSet (turn getEmptyClosure moveToNextStateSet w)
      (MarkedSearch.turn (targets getEmptyClosure moveToNextStateSet) s) := by
  cases h : s.queue with
  | nil =>
      have hqueue : w.queue = [] := by rw [hr.queue, h, List.map_nil]
      rwa [Worklist.turn, hqueue, MarkedSearch.turn, h]
  | cons n queue =>
      rw [hr.turn_eq h]
      refine ⟨?_, ?_, ?_, ?_, fun j m t hm ht x k => ?_⟩
      · rw [turn_done h]
      · rw [queue_turn h, offered_eq]
        simp only [List.map_append, List.map_map, Function.comp_def]
      · have hstate := hr.state
        rw [turn_nodes h, offered_eq, List.length_append, List.length_map]
        simp only
        omega
      · rw [turn_done h, List.length_append, List.length_append, hr.length]
        rfl
      · rw [turn_done h] at hm
        rcases Nat.lt_or_ge j s.done.length with hlt | hge
        · -- a table made before
          rw [List.getElem?_append_left hlt] at hm
          rw [List.getElem?_append_left (by rwa [hr.length])] at ht
          have hmem := List.mem_of_getElem? hm
          have hpolled : Polled (MarkedSearch.turn (targets getEmptyClosure moveToNextStateSet) s)
              m.path = Polled s m.path := funext fun a => propext (hinv.polled_turn hmem)
          rw [hr.table j m t hm ht, hpolled]
          simp only [getElem?_turn_nodes hinv h hmem]
        · -- the table of this turn
          have hj : j = s.done.length := by
            have hlt := (List.getElem?_eq_some_iff.1 hm).1
            rw [List.length_append, List.length_singleton] at hlt
            omega
          have hj' : j = w.result.length := by rw [hj, hr.length]
          rw [hj, List.getElem?_concat_length] at hm
          rw [hj', List.getElem?_concat_length] at ht
          cases hm
          cases ht
          exact lookup_added hinv h hr.state

end Turn

/-- The loop follows the search. -/
theorem Refines.loop {w : Worklist} {s : Search (Finset ℤ)} {k : ℕ}
    (hinv : Inv (targets getEmptyClosure moveToNextStateSet) (getEmptyClosure 0) s)
    (hr : Refines getEmptyClosure moveToNextStateSet w s)
    (hend : ((MarkedSearch.turn (targets getEmptyClosure moveToNextStateSet))^[k] s).queue = []) :
    ∃ w', loop getEmptyClosure moveToNextStateSet k w = some w' ∧
      Refines getEmptyClosure moveToNextStateSet w'
        ((MarkedSearch.turn (targets getEmptyClosure moveToNextStateSet))^[k] s) := by
  induction k generalizing w s with
  | zero =>
      have hqueue : w.queue = [] := by rw [hr.queue, show s.queue = [] from hend, List.map_nil]
      exact ⟨w, if_pos hqueue, hr⟩
  | succ k ih =>
      rw [Worklist.loop]
      by_cases hqueue : s.queue = []
      · have hqueue' : w.queue = [] := by rw [hr.queue, hqueue, List.map_nil]
        have hturn : MarkedSearch.turn (targets getEmptyClosure moveToNextStateSet) s = s := by
          rw [MarkedSearch.turn, hqueue]
        rw [if_pos hqueue', Function.iterate_fixed hturn]
        exact ⟨w, rfl, hr⟩
      · have hqueue' : w.queue ≠ [] := by
          rw [hr.queue]
          simpa using hqueue
        rw [if_neg hqueue']
        exact ih hinv.turn (hr.turn hinv) hend

end Worklist

/-! ## Words -/

namespace NFA

/-- The automaton in which every input but the empty one is a letter. -/
def inputs (n : NFA) : εNFA Str ℤ where
  step q
    | none => { t | n.Move q EMPTY_INPUT t }
    | some x => { t | x ≠ EMPTY_INPUT ∧ n.Move q x t }
  start := {0}
  accept := {n.getStateCount - 2}

/-- The targets of all tables. -/
def allTargets (n : NFA) : Finset ℤ :=
  (n.stateList.flatMap fun m => m.entries.flatMap fun e => e.2).toFinset

theorem Move.mem_allTargets {n : NFA} {q t : ℤ} {x : Str} (h : n.Move q x t) : t ∈ n.allTargets := by
  obtain ⟨m, hm, ht⟩ := h
  obtain ⟨-, hq⟩ := getMoveTable_eq_ok.1 hm
  obtain ⟨e, he, -, hte⟩ := mem_targets_iff.1 ht
  rw [allTargets, List.mem_toFinset, List.mem_flatMap]
  exact ⟨m, List.mem_of_getElem? hq, List.mem_flatMap.2 ⟨e, he, hte⟩⟩

end NFA

section Words

variable (n : NFA) (getEmptyClosure : ℤ → Finset ℤ)
  (moveToNextStateSet : Finset ℤ → List (Str × List ℤ))

/-- What the stubs of `NFA` are to return: the states reachable by empty moves, and
for each input the states reachable on it. -/
structure Completes : Prop where
  closure : ∀ q, (getEmptyClosure q : Set ℤ) = n.inputs.εClosure {q}
  moves : ∀ S x t, (∃ ts, (x, ts) ∈ moveToNextStateSet S ∧ t ∈ ts) ↔
    ∃ q ∈ S, t ∈ n.inputs.step q (some x)

/-- The path of a word in the tree of the targets: from each set to the last target
of the input whose closure has not occurred yet. -/
inductive PathOf : List Str → List ℕ → Prop
  | nil : PathOf [] []
  | concat {w : List Str} {p : List ℕ} {S : Finset ℤ} {x : Str} {i : ℕ} {C : Finset ℤ} :
      PathOf w p → follow (targets getEmptyClosure moveToNextStateSet) (getEmptyClosure 0) p = some S →
      LastFresh (targets getEmptyClosure moveToNextStateSet)
        (Occurs (targets getEmptyClosure moveToNextStateSet) (getEmptyClosure 0) p) S x i C →
      PathOf (w ++ [x]) (p ++ [i])

/-- Of the targets of an input, the last one whose closure has not occurred up to the
path of the word has all of them in its closure. -/
def Gathers : Prop :=
  ∀ w p S x, PathOf getEmptyClosure moveToNextStateSet w p →
    follow (targets getEmptyClosure moveToNextStateSet) (getEmptyClosure 0) p = some S →
    (∃ q ∈ S, ∃ t, t ∈ n.inputs.step q (some x)) →
    ∃ i C, LastFresh (targets getEmptyClosure moveToNextStateSet)
        (Occurs (targets getEmptyClosure moveToNextStateSet) (getEmptyClosure 0) p) S x i C ∧
      (C : Set ℤ) = n.inputs.stepSet S x

/-- The result can read the word just if the automaton can, and ends in a state that
stands for the set of states reachable on it. -/
def Describes (r : Worklist) (w : List Str) : Prop :=
  ((DFA.mk r.result).run w = none ↔ n.inputs.eval w = ∅) ∧
    ∀ k, (DFA.mk r.result).run w = some k →
      ∃ S, r.markSet[k]? = some S ∧ (S : Set ℤ) = n.inputs.eval w

variable {n getEmptyClosure moveToNextStateSet}

theorem pathOf_concat_iff {w : List Str} {x : Str} {q : List ℕ} :
    PathOf getEmptyClosure moveToNextStateSet (w ++ [x]) q ↔
      ∃ p S i C, q = p ++ [i] ∧ PathOf getEmptyClosure moveToNextStateSet w p ∧
        follow (targets getEmptyClosure moveToNextStateSet) (getEmptyClosure 0) p = some S ∧
        LastFresh (targets getEmptyClosure moveToNextStateSet)
          (Occurs (targets getEmptyClosure moveToNextStateSet) (getEmptyClosure 0) p) S x i C := by
  constructor
  · intro h
    generalize hu : w ++ [x] = u at h
    cases h with
    | nil => simp at hu
    | concat hpath hS hlast =>
        obtain ⟨rfl, hx⟩ := List.append_inj' hu rfl
        cases hx
        exact ⟨_, _, _, _, rfl, hpath, hS, hlast⟩
  · rintro ⟨p, S, i, C, rfl, hpath, hS, hlast⟩
    exact .concat hpath hS hlast

section Finished

variable {r : Worklist} {s : Search (Finset ℤ)}
  (hinv : Inv (targets getEmptyClosure moveToNextStateSet) (getEmptyClosure 0) s)
  (hr : r.Refines getEmptyClosure moveToNextStateSet s) (hend : s.queue = [])

include hinv hr hend

/-- An entry of the result leads to the last target whose closure has not occurred. -/
theorem move_eq_some_iff {j k : ℕ} {m : Node (Finset ℤ)} (hm : s.done[j]? = some m) {x : Str} :
    (DFA.mk r.result).move j x = some k ↔ ∃ i C,
      LastFresh (targets getEmptyClosure moveToNextStateSet)
        (Occurs (targets getEmptyClosure moveToNextStateSet) (getEmptyClosure 0) m.path)
        m.value x i C ∧ s.done[k]? = some ⟨m.path ++ [i], C⟩ := by
  have hj : j < r.result.length := by
    rw [hr.length]
    exact (List.getElem?_eq_some_iff.1 hm).1
  have htable := List.getElem?_eq_getElem hj
  have hpolled : Polled s m.path =
      Occurs (targets getEmptyClosure moveToNextStateSet) (getEmptyClosure 0) m.path :=
    funext fun C => propext (hinv.polled_iff hend)
  rw [DFA.move, htable, Option.bind_some, hr.table j m _ hm htable, hpolled,
    Search.nodes_eq_done hend]

/-- The state after a word is the node at its path. -/
theorem run_eq_some_iff {w : List Str} {k : ℕ} : (DFA.mk r.result).run w = some k ↔
    ∃ m, s.done[k]? = some m ∧ PathOf getEmptyClosure moveToNextStateSet w m.path := by
  have hnodes := Search.nodes_eq_done hend
  have hroot := hinv.getElem?_root
  rw [hnodes] at hroot
  induction w using List.reverseRecOn generalizing k with
  | nil =>
      constructor
      · rintro ⟨⟩
        exact ⟨_, hroot, .nil⟩
      · rintro ⟨⟨p, S⟩, hm, hpath⟩
        obtain rfl : p = [] := by
          generalize hu : ([] : List Str) = u at hpath
          cases hpath with
          | nil => rfl
          | concat => simp at hu
        have hm' : s.nodes[k]? = some ⟨[], S⟩ := by rwa [hnodes]
        exact congrArg some (hinv.index_unique hinv.getElem?_root hm' rfl)
  | append_singleton w x ih =>
      rw [DFA.run_concat, Option.bind_eq_some_iff]
      constructor
      · rintro ⟨j, hj, hmove⟩
        obtain ⟨m, hm, hpath⟩ := ih.1 hj
        obtain ⟨i, C, hlast, hk⟩ := (move_eq_some_iff hinv hr hend hm).1 hmove
        have hS := hinv.valid m (hnodes ▸ List.mem_of_getElem? hm)
        exact ⟨_, hk, .concat hpath hS hlast⟩
      · rintro ⟨⟨q, D⟩, hk, hpath⟩
        obtain ⟨p, S, i, C, hq, hpath', hS, hlast⟩ := pathOf_concat_iff.1 hpath
        obtain rfl : q = p ++ [i] := hq
        have hmem : ⟨p ++ [i], D⟩ ∈ s.nodes := hnodes ▸ List.mem_of_getElem? hk
        obtain ⟨m, hm, i', hp⟩ := (hinv.parent _ hmem).resolve_left (by simp)
        obtain ⟨hp', -⟩ := List.append_inj' hp rfl
        obtain ⟨p', S'⟩ := m
        obtain rfl : p = p' := hp'
        obtain ⟨j, hj⟩ := List.mem_iff_getElem?.1 hm
        have hS' := hinv.valid _ (hnodes ▸ hm)
        obtain rfl : S = S' := Option.some.inj (hS.symm.trans hS')
        have hD := hinv.valid _ hmem
        rw [follow_concat, hS, Option.bind_some, hlast.child] at hD
        cases hD
        exact ⟨j, ih.2 ⟨_, hj, hpath'⟩, (move_eq_some_iff hinv hr hend hj).2 ⟨i, _, hlast, hk⟩⟩

end Finished

section Complete

variable (hc : Completes n getEmptyClosure moveToNextStateSet)

include hc

/-- A set has a target for an input just if some of its states has one. -/
theorem Completes.mem_targets {S C : Finset ℤ} {x : Str}
    (h : (x, C) ∈ targets getEmptyClosure moveToNextStateSet S) :
    ∃ q ∈ S, ∃ t, t ∈ n.inputs.step q (some x) ∧ C = getEmptyClosure t := by
  obtain ⟨e, he, hmap⟩ := List.mem_flatMap.1 h
  obtain ⟨t, ht, heq⟩ := List.mem_map.1 hmap
  obtain ⟨rfl, rfl⟩ := Prod.mk.inj heq
  obtain ⟨q, hq, hstep⟩ := (hc.moves S e.1 t).1 ⟨e.2, he, ht⟩
  exact ⟨q, hq, t, hstep, rfl⟩

/-- The loop ends. -/
theorem Completes.exists_finished : ∃ fuel r s,
    Worklist.loop getEmptyClosure moveToNextStateSet fuel (.begin getEmptyClosure) = some r ∧
      Inv (targets getEmptyClosure moveToNextStateSet) (getEmptyClosure 0) s ∧
      r.Refines getEmptyClosure moveToNextStateSet s ∧ s.queue = [] := by
  have hclosed : ∀ S ∈ (insert 0 n.allTargets).image getEmptyClosure,
      ∀ c ∈ targets getEmptyClosure moveToNextStateSet S,
        c.2 ∈ (insert 0 n.allTargets).image getEmptyClosure := by
    rintro S - ⟨x, C⟩ hC
    obtain ⟨q, -, t, hstep, rfl⟩ := hc.mem_targets hC
    exact Finset.mem_image_of_mem _ (Finset.mem_insert_of_mem hstep.2.mem_allTargets)
  obtain ⟨k, hend⟩ := MarkedSearch.exists_finished hclosed
    (Finset.mem_image_of_mem _ (Finset.mem_insert_self 0 _))
  have hinv := Inv.begin (targets getEmptyClosure moveToNextStateSet) (getEmptyClosure 0)
  obtain ⟨r, hloop, hr⟩ := Worklist.Refines.begin.loop hinv hend
  exact ⟨k, r, _, hloop, hinv.iterate k, hr, hend⟩

theorem Completes.eval_nil : n.inputs.eval [] = getEmptyClosure 0 := by
  rw [εNFA.eval_nil, hc.closure]
  rfl

end Complete

/-- Some state is reached on an input just if some state of the set has a move on
it. -/
theorem stepSet_nonempty_iff {S : Set ℤ} {x : Str} : (n.inputs.stepSet S x).Nonempty ↔
    ∃ q ∈ S, ∃ t, t ∈ n.inputs.step q (some x) := by
  constructor
  · rintro ⟨u, hu⟩
    obtain ⟨q, hq, hclosure⟩ := (n.inputs.mem_stepSet_iff).1 hu
    rcases (n.inputs.step q (some x)).eq_empty_or_nonempty with hempty | ⟨t, ht⟩
    · rw [hempty, εNFA.εClosure_empty] at hclosure
      cases hclosure
    · exact ⟨q, hq, t, ht⟩
  · rintro ⟨q, hq, t, ht⟩
    exact ⟨t, (n.inputs.mem_stepSet_iff).2 ⟨q, hq, n.inputs.subset_εClosure _ ht⟩⟩

/-- The set of a state of the result. -/
theorem Worklist.Refines.getElem?_markSet {r : Worklist} {s : Search (Finset ℤ)}
    (hr : r.Refines getEmptyClosure moveToNextStateSet s) {k : ℕ} {m : Node (Finset ℤ)}
    (hm : s.done[k]? = some m) : r.markSet[k]? = some m.value := by
  rw [hr.markSet, List.getElem?_map, hm]
  rfl

/-- The path of a word was polled. -/
theorem PathOf.polled {w : List Str} {p : List ℕ}
    (h : PathOf getEmptyClosure moveToNextStateSet w p) {s : Search (Finset ℤ)}
    (hinv : Inv (targets getEmptyClosure moveToNextStateSet) (getEmptyClosure 0) s)
    (hend : s.queue = []) : ∃ S, ⟨p, S⟩ ∈ s.done := by
  have hnodes := Search.nodes_eq_done hend
  induction h with
  | nil => exact ⟨_, hnodes ▸ hinv.root⟩
  | concat _ hS hlast ih =>
      obtain ⟨S', hS'⟩ := ih
      cases hS.symm.trans (hinv.valid _ (hnodes ▸ hS'))
      exact ⟨_, (hinv.child_polled_iff hend hS' hlast.child).2 hlast.fresh⟩

section Language

variable {r : Worklist} {s : Search (Finset ℤ)}
  (hinv : Inv (targets getEmptyClosure moveToNextStateSet) (getEmptyClosure 0) s)
  (hr : r.Refines getEmptyClosure moveToNextStateSet s) (hend : s.queue = [])

include hinv hr hend

/-- A result that describes every word gathers the targets of every input. -/
theorem gathers_of_describes (h : ∀ w, Describes n r w) :
    Gathers n getEmptyClosure moveToNextStateSet := by
  intro w p S x hpath hS hmove
  have hnodes := Search.nodes_eq_done hend
  obtain ⟨S', hmem⟩ := hpath.polled hinv hend
  obtain rfl : S = S' := Option.some.inj (hS.symm.trans (hinv.valid _ (hnodes ▸ hmem)))
  obtain ⟨k, hk⟩ := List.mem_iff_getElem?.1 hmem
  have hrun := (run_eq_some_iff hinv hr hend).2 ⟨_, hk, hpath⟩
  have heval : (S : Set ℤ) = n.inputs.eval w := by
    obtain ⟨T, hT, heval⟩ := (h w).2 k hrun
    cases hT.symm.trans (hr.getElem?_markSet hk)
    exact heval
  have hne : n.inputs.eval (w ++ [x]) ≠ ∅ := by
    rw [εNFA.eval_append_singleton, ← heval]
    exact (stepSet_nonempty_iff.2 hmove).ne_empty
  obtain ⟨k', hrun'⟩ := Option.ne_none_iff_exists'.1 (mt (h (w ++ [x])).1.1 hne)
  have hmove' := hrun'
  rw [DFA.run_concat, hrun, Option.bind_some] at hmove'
  obtain ⟨i, C, hlast, hk'⟩ := (move_eq_some_iff hinv hr hend hk).1 hmove'
  refine ⟨i, C, hlast, ?_⟩
  obtain ⟨T, hT, heval'⟩ := (h (w ++ [x])).2 k' hrun'
  cases hT.symm.trans (hr.getElem?_markSet hk')
  rw [heval', εNFA.eval_append_singleton, heval]

/-- A result that gathers the targets of every input describes every word. -/
theorem describes_of_gathers (hc : Completes n getEmptyClosure moveToNextStateSet)
    (h : Gathers n getEmptyClosure moveToNextStateSet) (w : List Str) : Describes n r w := by
  induction w using List.reverseRecOn with
  | nil =>
      have hroot := hinv.getElem?_root
      rw [Search.nodes_eq_done hend] at hroot
      have hmem : (0 : ℤ) ∈ n.inputs.eval [] := by
        rw [εNFA.eval_nil]
        exact n.inputs.subset_εClosure _ rfl
      refine ⟨iff_of_false nofun (Set.nonempty_of_mem hmem).ne_empty, ?_⟩
      rintro k ⟨⟩
      exact ⟨_, hr.getElem?_markSet hroot, hc.eval_nil.symm⟩
  | append_singleton w x ih =>
      obtain ⟨hnone, hsome⟩ := ih
      unfold Describes
      rw [DFA.run_concat, εNFA.eval_append_singleton]
      cases hrun : (DFA.mk r.result).run w with
      | none =>
          rw [hnone.1 hrun, εNFA.stepSet_empty]
          exact ⟨iff_of_true rfl rfl, nofun⟩
      | some k =>
          obtain ⟨m, hk, hpath⟩ := (run_eq_some_iff hinv hr hend).1 hrun
          obtain ⟨T, hT, heval⟩ := hsome k hrun
          cases hT.symm.trans (hr.getElem?_markSet hk)
          have hmem := List.mem_of_getElem? hk
          have hS := hinv.valid m (Search.nodes_eq_done hend ▸ hmem)
          rw [Option.bind_some, ← heval]
          by_cases hmove : ∃ q ∈ m.value, ∃ t, t ∈ n.inputs.step q (some x)
          · have hne := (stepSet_nonempty_iff.2 hmove).ne_empty
            obtain ⟨i, C, hlast, hC⟩ := h w m.path m.value x hpath hS hmove
            obtain ⟨k', hk'⟩ := List.mem_iff_getElem?.1
              ((hinv.child_polled_iff hend hmem hlast.child).2 hlast.fresh)
            rw [(move_eq_some_iff hinv hr hend hk).2 ⟨i, C, hlast, hk'⟩]
            refine ⟨iff_of_false nofun hne, ?_⟩
            rintro _ ⟨⟩
            exact ⟨C, hr.getElem?_markSet hk', hC⟩
          · have hstep : n.inputs.stepSet m.value x = ∅ :=
              Set.not_nonempty_iff_eq_empty.1 (mt stepSet_nonempty_iff.1 hmove)
            have hmove' : (DFA.mk r.result).move k x = none := by
              rw [Option.eq_none_iff_forall_ne_some]
              intro k' hk'
              obtain ⟨i, C, hlast, -⟩ := (move_eq_some_iff hinv hr hend hk).1 hk'
              obtain ⟨q, hq, t, ht, -⟩ := hc.mem_targets (List.mem_of_getElem? hlast.child)
              exact hmove ⟨q, hq, t, ht⟩
            rw [hstep, hmove']
            exact ⟨iff_of_true rfl rfl, nofun⟩

end Language

/-- With its two stubs completed, `nfa2Dfa` terminates.  Its result has the words of
the automaton and stands for the right sets if and only if, along every word, the
last target of an input whose closure has not occurred yet has all targets of the
input in its closure. -/
theorem nfa2Dfa_language_iff (hc : Completes n getEmptyClosure moveToNextStateSet) :
    ∃ fuel r, Worklist.loop getEmptyClosure moveToNextStateSet fuel (.begin getEmptyClosure) =
        some r ∧
      nfa2Dfa getEmptyClosure moveToNextStateSet fuel = some ⟨r.result⟩ ∧
      ((∀ w, Describes n r w) ↔ Gathers n getEmptyClosure moveToNextStateSet) := by
  obtain ⟨fuel, r, s, hloop, hinv, hr, hend⟩ := hc.exists_finished
  refine ⟨fuel, r, hloop, ?_, gathers_of_describes hinv hr hend,
    describes_of_gathers hinv hr hend hc⟩
  rw [nfa2Dfa, hloop]
  rfl

end Words

/-! ## Automata with one move -/

/-- Two states and the move on `a` from state 0 to `t`. -/
def oneMove (t : ℤ) : NFA := ⟨[(∅ : MoveTable).insert ['a'] [t], ∅]⟩

/-- The states that `oneMove t` reaches from a set. -/
def oneMoveNext (t : ℤ) (S : Finset ℤ) : List (Str × List ℤ) :=
  if 0 ∈ S then [(['a'], [t])] else []

theorem oneMove_move_iff {t q u : ℤ} {x : Str} :
    (oneMove t).Move q x u ↔ q = 0 ∧ x = ['a'] ∧ u = t := by
  have hzero : (oneMove t).Move 0 x u ↔ x = ['a'] ∧ u = t := by
    have htable : (oneMove t).getMoveTable 0 = .ok ((∅ : MoveTable).insert ['a'] [t]) := rfl
    rw [NFA.move_iff htable, NFA.targets_insert]
    by_cases hx : x = ['a'] <;> simp [hx, MoveTable.targets]
  constructor
  · intro h
    obtain ⟨hlow, hhigh⟩ := h.range
    have hcount : (oneMove t).getStateCount = 2 := rfl
    rw [hcount] at hhigh
    obtain rfl | rfl : q = 0 ∨ q = 1 := by omega
    · exact ⟨rfl, hzero.1 h⟩
    · have htable : (oneMove t).getMoveTable 1 = .ok ∅ := rfl
      rw [NFA.move_iff htable] at h
      cases h
  · rintro ⟨rfl, h⟩
    exact hzero.2 h

theorem oneMove_completes (t : ℤ) : Completes (oneMove t) (fun q => {q}) (oneMoveNext t) where
  closure q := by
    refine Set.Subset.antisymm ?_ ?_
    · rw [Finset.coe_singleton]
      exact (oneMove t).inputs.subset_εClosure _
    · intro u hu
      induction hu with
      | base u hu => rwa [Finset.coe_singleton]
      | step v u hstep _ _ =>
          obtain ⟨-, hx, -⟩ := oneMove_move_iff.1 hstep
          cases hx
  moves S x u := by
    have hstep : ∀ q, u ∈ (oneMove t).inputs.step q (some x) ↔ q = 0 ∧ x = ['a'] ∧ u = t := by
      intro q
      constructor
      · exact fun h => oneMove_move_iff.1 h.2
      · intro h
        refine ⟨?_, oneMove_move_iff.2 h⟩
        rw [h.2.1]
        decide
    simp only [hstep, oneMoveNext]
    by_cases h0 : (0 : ℤ) ∈ S
    · rw [if_pos h0]
      constructor
      · rintro ⟨ts, hts, hu⟩
        cases List.mem_singleton.1 hts
        exact ⟨0, h0, rfl, rfl, List.mem_singleton.1 hu⟩
      · rintro ⟨_, _, _, rfl, rfl⟩
        exact ⟨_, List.mem_singleton_self _, List.mem_singleton_self _⟩
    · rw [if_neg h0]
      constructor
      · rintro ⟨ts, hts, -⟩
        cases hts
      · rintro ⟨q, hq, rfl, -⟩
        exact absurd hq h0

/-- The automaton with the move from state 0 to state 1. -/
theorem nfa2Dfa_language_oneMove : ∃ fuel r,
    Worklist.loop (fun q => {q}) (oneMoveNext 1) fuel (.begin fun q => {q}) = some r ∧
      nfa2Dfa (fun q => {q}) (oneMoveNext 1) fuel = some ⟨r.result⟩ ∧
      ((∀ w, Describes (oneMove 1) r w) ↔ Gathers (oneMove 1) (fun q => {q}) (oneMoveNext 1)) :=
  nfa2Dfa_language_iff (oneMove_completes 1)

/-- The automaton with the move from state 0 to itself: the result has no entry for
`a`, since the set of state 0 is marked. -/
theorem nfa2Dfa_drops_loop : Completes (oneMove 0) (fun q => {q}) (oneMoveNext 0) ∧
    ∃ fuel r, Worklist.loop (fun q => {q}) (oneMoveNext 0) fuel (.begin fun q => {q}) = some r ∧
      ¬Describes (oneMove 0) r [['a']] := by
  refine ⟨oneMove_completes 0, 1, ⟨[∅], [{0}], [], 0⟩, rfl, fun h => ?_⟩
  have hstep : (0 : ℤ) ∈ (oneMove 0).inputs.step 0 (some ['a']) :=
    ⟨by decide, oneMove_move_iff.2 ⟨rfl, rfl, rfl⟩⟩
  have heval : (0 : ℤ) ∈ (oneMove 0).inputs.eval [['a']] := by
    rw [εNFA.eval_singleton, εNFA.mem_stepSet_iff]
    exact ⟨0, (oneMove 0).inputs.subset_εClosure _ rfl,
      (oneMove 0).inputs.subset_εClosure _ hstep⟩
  rw [h.1.1 rfl] at heval
  exact heval

end MyJavaExample.Automate
