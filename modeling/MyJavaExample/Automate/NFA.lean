import Mathlib.Computability.EpsilonNFA
import Mathlib.Data.List.AList
import MyJavaExample.Java.InputStream

/-!
# Automata: `compiler/automate/NFA` and `NFATransform`

The states of an automaton are the numbers of its move tables.  State 0 is the
start.  The last state is the final one, and the state before it accepts: with
any further input (`ANY_INPUT`, or `OTHER_INPUT` if it has other moves) it goes to
the final state.

A move table is a map from inputs to sets of states, kept as an association list
whose values are lists without repetition.  Its order is that of a `HashMap`, so
nothing may depend on it.  Targets are integers, since nothing keeps a target
within the states of the automaton.

What an automaton does is said by its moves (`Move`).  Its language is that of
Mathlib's `εNFA` with the ordinary and the empty moves, from state 0 to the
accepting state.
-/

namespace MyJavaExample.Automate

open Java

/-- A string, as its characters. -/
abbrev Str : Type := List Char

def ANY_INPUT : Str := ['*']

def OTHER_INPUT : Str := ['^']

def EMPTY_INPUT : Str := ['ε']

abbrev MoveTable : Type := AList fun _ : Str => List ℤ

/-- The states that a table has for an input. -/
def MoveTable.targets (m : MoveTable) (input : Str) : List ℤ := (m.lookup input).getD []

structure NFA where
  stateList : List MoveTable
deriving DecidableEq

namespace NFA

/-! ## The class `NFA` -/

/-- `new NFA(stateCount)`. -/
def new (stateCount : ℤ) : NFA := ⟨List.replicate stateCount.toNat ∅⟩

/-- The source compares with it by reference.  No other automaton without states
is ever made. -/
def EMPTY_NFA : NFA := new 0

variable (n : NFA)

def getStateCount : ℤ := n.stateList.length

/-- `stateList.get(i)`. -/
def getMoveTable (i : ℤ) : Except JExn MoveTable :=
  if 0 ≤ i then
    match n.stateList[i.toNat]? with
    | none => throw .indexOutOfBounds
    | some m => pure m
  else throw .indexOutOfBounds

/-- The table of a state is changed by `f`. -/
def updateState (i : ℤ) (f : MoveTable → MoveTable) : Except JExn NFA := do
  let m ← n.getMoveTable i
  pure ⟨n.stateList.set i.toNat (f m)⟩

/-- One more target in a table. -/
def addEntry (input : Str) (next : ℤ) (m : MoveTable) : MoveTable :=
  m.insert input ((m.targets input).insert next)

def addMoveTableEntry (state : ℤ) (input : Str) (next : ℤ) : Except JExn NFA :=
  n.updateState state (addEntry input next)

def updateMoveTable (m : MoveTable) (inc : ℤ) : MoveTable :=
  m.entries.foldl (fun r e => r.insert e.1 (e.2.foldl (fun s v => s.insert (v + inc)) [])) ∅

/-- The loop over the targets of an entry. -/
def addTargets (state : ℤ) (input : Str) : List ℤ → NFA → Except JExn NFA
  | [], n => pure n
  | next :: nexts, n => do addTargets state input nexts (← n.addMoveTableEntry state input next)

/-- The loop over the entries of a table. -/
def addEntries (state : ℤ) : List (Sigma fun _ : Str => List ℤ) → NFA → Except JExn NFA
  | [], n => pure n
  | e :: es, n => do addEntries state es (← addTargets state e.1 e.2 n)

def addMoveTable (state : ℤ) (m : MoveTable) : Except JExn NFA := addEntries state m.entries n

/-- The loop of `addNFA` with `k` states of `m` to go. -/
def addStates (m : NFA) (inc : ℤ) : ℕ → ℤ → ℤ → NFA → Except JExn NFA
  | 0, _, _, n => pure n
  | k + 1, newState, nstate, n => do
      let moveTable ← m.getMoveTable nstate
      addStates m inc k (newState + 1) (nstate + 1)
        (← n.addMoveTable newState (updateMoveTable moveTable inc))

def addNFA (desStartState : ℤ) (m : NFA) (startState endState inc : ℤ) : Except JExn NFA :=
  addStates m inc (endState - startState + 1).toNat desStartState startState n

def removeAnyOther (state : ℤ) : Except JExn NFA :=
  n.updateState state fun m => (m.erase ANY_INPUT).erase OTHER_INPUT

/-- `none` is `null`. -/
def moveToNextState (currentState : ℤ) (input : Str) : Except JExn (Option (List ℤ)) :=
  if currentState < 0 ∨ n.getStateCount ≤ currentState then
    throw (.illegalArgument "currentState doesn't exist!")
  else do
    let nextStateMap ← n.getMoveTable currentState
    if ANY_INPUT ∈ nextStateMap then pure (nextStateMap.lookup ANY_INPUT)
    else if nextStateMap.targets input = [] ∧ OTHER_INPUT ∈ nextStateMap then
      pure (nextStateMap.lookup OTHER_INPUT)
    else pure (nextStateMap.lookup input)

/-- `build(char)`. -/
def buildChar (ch : Char) : Except JExn NFA := do
  let nfa ← (new 3).addMoveTableEntry 0 [ch] 1
  nfa.addMoveTableEntry 1 ANY_INPUT 2

end NFA

/-! ## `NFATransform` -/

open MyJavaExample.Automate.NFA

def nfaOrNfa (n1 n2 : NFA) : Except JExn NFA :=
  if n1 = EMPTY_NFA then pure n2
  else if n2 = EMPTY_NFA then pure n1
  else do
    let c1 := n1.getStateCount
    let c2 := n2.getStateCount
    let nfa := new (1 + (c1 - 1) + (c2 - 1) + 1 + 1)
    let nfa ← nfa.addMoveTableEntry 0 EMPTY_INPUT 1
    let nfa ← nfa.addMoveTableEntry 0 EMPTY_INPUT (1 + (c1 - 1))
    let nfa ← nfa.addNFA 1 n1 0 (c1 - 2) 1
    let nfa ← nfa.removeAnyOther (c1 - 1)
    let nfa ← nfa.addNFA c1 n2 0 (c2 - 2) c1
    let nfa ← nfa.removeAnyOther (c1 - 1 + c2 - 2)
    let nfa ← nfa.addMoveTableEntry (1 + (c1 - 2)) EMPTY_INPUT (1 + c1 + c2)
    let nfa ← nfa.addMoveTableEntry (1 + (c1 - 1) + (c2 - 2)) EMPTY_INPUT (1 + c1 + c2)
    nfa.addMoveTableEntry (1 + (c1 - 1) + (c2 - 1)) ANY_INPUT (nfa.getStateCount - 1)

def nfaUnionNfa (n1 n2 : NFA) : Except JExn NFA :=
  if n1 = EMPTY_NFA then pure n2
  else if n2 = EMPTY_NFA then pure n1
  else do
    let c1 := n1.getStateCount
    let c2 := n2.getStateCount
    let nfa := new (c1 - 1 + (c2 - 1))
    let nfa ← nfa.addNFA 0 n1 0 (c1 - 2) 0
    let nfa ← nfa.removeAnyOther (c1 - 2)
    let nfa ← nfa.addNFA (c1 - 1) n2 1 (c2 - 1) (c1 - 1 - 1)
    let moveTable ← n2.getMoveTable 0
    let newMoveTable := updateMoveTable moveTable (c1 - 1 - 1)
    nfa.addMoveTable (c1 - 2) newMoveTable

def nfaStar (n : NFA) : Except JExn NFA :=
  if n = EMPTY_NFA then pure n
  else do
    let c := n.getStateCount
    let nfa := new (1 + c + 1)
    let nfa ← nfa.addMoveTableEntry 0 EMPTY_INPUT 1
    let nfa ← nfa.addMoveTableEntry 0 EMPTY_INPUT c
    let nfa ← nfa.addNFA 1 n 0 (c - 2) 1
    let nfa ← nfa.removeAnyOther (c - 2)
    let nfa ← nfa.addMoveTableEntry (c - 2) EMPTY_INPUT 1
    let nfa ← nfa.addMoveTableEntry (c - 2) EMPTY_INPUT (nfa.getStateCount - 2)
    nfa.addMoveTableEntry (nfa.getStateCount - 2) ANY_INPUT nfa.getStateCount

/-! ## Moves and languages -/

namespace NFA

variable (n : NFA)

/-- The table of state `q` has the target `t` for the input `x`. -/
def Move (q : ℤ) (x : Str) (t : ℤ) : Prop :=
  ∃ m, n.getMoveTable q = .ok m ∧ t ∈ m.targets x

/-- The inputs that stand for any character. -/
def Special (x : Str) : Prop := x = ANY_INPUT ∨ x = OTHER_INPUT

instance (x : Str) : Decidable (Special x) := inferInstanceAs (Decidable (_ ∨ _))

/-- An input that stands for itself. -/
def Ordinary (x : Str) : Prop := ¬Special x ∧ x ≠ EMPTY_INPUT

instance (x : Str) : Decidable (Ordinary x) := inferInstanceAs (Decidable (_ ∧ _))

/-- The automaton is as `build` sets it up. -/
structure WellFormed : Prop where
  two : 2 ≤ n.getStateCount
  target : ∀ q x t, n.Move q x t → 0 ≤ t ∧ t < n.getStateCount
  special : ∀ q x t, n.Move q x t → Special x → q = n.getStateCount - 2 ∧ t = n.getStateCount - 1
  leave : ∀ x t, n.Move (n.getStateCount - 1) x t → Special x
  enter : ∀ q x, n.Move q x (n.getStateCount - 1) → Special x

/-- The ordinary moves and the empty moves, from state 0 to the accepting
state. -/
def toεNFA : εNFA Str ℤ where
  step q
    | none => { t | n.Move q EMPTY_INPUT t }
    | some x => { t | Ordinary x ∧ n.Move q x t }
  start := {0}
  accept := {n.getStateCount - 2}

def language : Language Str := n.toεNFA.accepts

end NFA

end MyJavaExample.Automate
