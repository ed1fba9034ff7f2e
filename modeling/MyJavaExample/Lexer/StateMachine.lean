import Mathlib.Data.Int.Basic
import Mathlib.Data.List.Basic

/-!
# The token state machines: `compiler/lexical/statemachine`

Six machines read the input side by side.  Each accepts one character after the
last character of its token, so the accepting move is on the character that
does not belong to the token any more.  State 0 is the start and -1 is failure.

Three facts about every machine carry the lexer.  A machine that accepted fails
on its next move (`next_accept`).  The byte 0xFF, which the lexer uses as the
end-of-buffer mark, takes every machine to its accepting state or to failure
(`next_EOF`).  And where a byte ends a machine, 0xFF ends it in the same state
(`next_eq_EOF`).

`name` is the text of the token so far.  It grows on every move that does not
accept, so when a machine accepts, its name is the text it read before
(`Track.move`).
-/

namespace MyJavaExample.Lexer

/-- The code of an ASCII character. -/
def ascii (c : Char) : UInt8 := c.toNat.toUInt8

/-- The end-of-buffer mark: the byte -1. -/
def EOF : UInt8 := 255

/-- The cast `(char) ch` of a signed byte. -/
def toChar (b : UInt8) : UInt16 := if b < 128 then b.toUInt16 else 0xFF00 + b.toUInt16

/-! ## `Defines` -/

inductive TokenType where
  | ID
  | DIGIT
  | RELOP
  | WHITE
  | IF
  | ELSE
deriving DecidableEq, Repr

def isLetter (ch : UInt8) : Bool :=
  (ascii 'a' ≤ ch && ch ≤ ascii 'z') || (ascii 'A' ≤ ch && ch ≤ ascii 'Z') || ch == ascii '_'

def isNumber (ch : UInt8) : Bool := ascii '0' ≤ ch && ch ≤ ascii '9'

def isWhite (ch : UInt8) : Bool := ch == ascii ' ' || ch == ascii '\t' || ch == ascii '\n'

/-! ## The six machines -/

namespace IfSM

def moveToNextState (state : ℤ) (ch : UInt8) : ℤ :=
  match state with
  | 0 => if ch = ascii 'i' then 1 else -1
  | 1 => if ch = ascii 'f' then 2 else -1
  | 2 => 3
  | _ => -1

end IfSM

namespace WhileSM

def moveToNextState (state : ℤ) (ch : UInt8) : ℤ :=
  match state with
  | 0 => if ch = ascii 'w' then 1 else -1
  | 1 => if ch = ascii 'h' then 2 else -1
  | 2 => if ch = ascii 'i' then 3 else -1
  | 3 => if ch = ascii 'l' then 4 else -1
  | 4 => if ch = ascii 'e' then 5 else -1
  | 5 => 6
  | _ => -1

end WhileSM

namespace IdSM

def moveToNextState (state : ℤ) (ch : UInt8) : ℤ :=
  match state with
  | 0 => if isLetter ch then 1 else -1
  | 1 => if isLetter ch || isNumber ch then 1 else 2
  | _ => -1

end IdSM

namespace RelopSM

def moveToNextState (state : ℤ) (ch : UInt8) : ℤ :=
  match state with
  | 0 => if ch = ascii '<' then 1 else if ch = ascii '=' then 2 else if ch = ascii '>' then 3 else -1
  | 1 => if ch = ascii '=' then 4 else if ch = ascii '>' then 5 else 7
  | 2 => if ch = ascii '=' then 6 else -1
  | 3 => 7
  | 4 => 7
  | 5 => 7
  | 6 => 7
  | _ => -1

end RelopSM

namespace WhiteSM

def moveToNextState (state : ℤ) (ch : UInt8) : ℤ :=
  match state with
  | 0 => if isWhite ch then 1 else -1
  | 1 => if isWhite ch then 1 else 2
  | _ => -1

end WhiteSM

namespace DigitSM

def moveToNextState (state : ℤ) (ch : UInt8) : ℤ :=
  match state with
  | 0 => if isNumber ch then 1 else -1
  | 1 => if isNumber ch then 1 else if ch = ascii '.' then 2 else if ch = ascii 'E' then 3 else 7
  | 2 => if isNumber ch then 4 else -1
  | 3 => if ch = ascii '+' || ch = ascii '-' then 5 else if isNumber ch then 6 else -1
  | 4 => if isNumber ch then 4 else if ch = ascii 'E' then 3 else 7
  | 5 => if isNumber ch then 6 else -1
  | 6 => if isNumber ch then 6 else 7
  | _ => -1

end DigitSM

/-- The subclasses of `StateMachine`. -/
inductive Kind where
  | ifSM
  | whileSM
  | idSM
  | relopSM
  | whiteSM
  | digitSM
deriving DecidableEq, Repr

namespace Kind

/-- The type of the token a machine makes. -/
def tokenType : Kind → TokenType
  | ifSM => .IF
  | whileSM => .ELSE
  | idSM => .ID
  | relopSM => .RELOP
  | whiteSM => .WHITE
  | digitSM => .DIGIT

/-- The state `accept()` compares with. -/
def acceptState : Kind → ℤ
  | ifSM => 3
  | whileSM => 6
  | idSM => 2
  | relopSM => 7
  | whiteSM => 2
  | digitSM => 7

def moveToNextState : Kind → ℤ → UInt8 → ℤ
  | ifSM => IfSM.moveToNextState
  | whileSM => WhileSM.moveToNextState
  | idSM => IdSM.moveToNextState
  | relopSM => RelopSM.moveToNextState
  | whiteSM => WhiteSM.moveToNextState
  | digitSM => DigitSM.moveToNextState

/-- A state in which a machine has ended: it failed or it accepted. -/
def Ended (k : Kind) (state : ℤ) : Prop := state = -1 ∨ state = k.acceptState

instance (k : Kind) (state : ℤ) : Decidable (k.Ended state) := by
  unfold Ended
  infer_instance

theorem acceptState_ne (k : Kind) : k.acceptState ≠ -1 := by
  cases k <;> decide

/-- A machine that accepted fails on its next move. -/
theorem next_accept (k : Kind) (ch : UInt8) : k.moveToNextState k.acceptState ch = -1 := by
  cases k <;> rfl

/-- The end-of-buffer mark ends every machine. -/
theorem next_EOF (k : Kind) (state : ℤ) : k.Ended (k.moveToNextState state EOF) := by
  cases k <;>
    simp only [moveToNextState, IfSM.moveToNextState, WhileSM.moveToNextState,
      IdSM.moveToNextState, RelopSM.moveToNextState, WhiteSM.moveToNextState,
      DigitSM.moveToNextState] <;>
    split <;> decide

/-- Where a byte ends a machine, the end-of-buffer mark ends it in the same
state. -/
theorem next_eq_EOF (k : Kind) (state : ℤ) (ch : UInt8)
    (h : k.Ended (k.moveToNextState state ch)) :
    k.moveToNextState state EOF = k.moveToNextState state ch := by
  revert h
  cases k <;>
    simp only [moveToNextState, IfSM.moveToNextState, WhileSM.moveToNextState,
      IdSM.moveToNextState, RelopSM.moveToNextState, WhiteSM.moveToNextState,
      DigitSM.moveToNextState, Ended, acceptState] <;>
    split <;> (try split_ifs) <;> simp_all +decide

end Kind

/-! ## `StateMachine` -/

/-- A machine and the name of the token it builds. -/
structure StateMachine where
  kind : Kind
  state : ℤ
  name : List UInt16
deriving DecidableEq, Repr

namespace StateMachine

def accept (m : StateMachine) : Bool := m.state == m.kind.acceptState

def fail (m : StateMachine) : Bool := m.state == -1

def reset (m : StateMachine) : StateMachine := { m with state := 0, name := [] }

def move (m : StateMachine) (ch : UInt8) : StateMachine :=
  let m := { m with state := m.kind.moveToNextState m.state ch }
  if m.accept then m else { m with name := m.name ++ [toChar ch] }

/-- A machine is moved unless it has failed. -/
def step (ch : UInt8) (m : StateMachine) : StateMachine := if m.fail then m else m.move ch

/-- The machine failed or accepted. -/
def ended (m : StateMachine) : Bool := m.fail || m.accept

@[simp] theorem move_state (m : StateMachine) (ch : UInt8) :
    (m.move ch).state = m.kind.moveToNextState m.state ch := by
  unfold move
  simp only
  split <;> rfl

@[simp] theorem move_kind (m : StateMachine) (ch : UInt8) : (m.move ch).kind = m.kind := by
  unfold move
  simp only
  split <;> rfl

theorem move_name (m : StateMachine) (ch : UInt8) :
    (m.move ch).name = if (m.move ch).accept then m.name else m.name ++ [toChar ch] := by
  unfold move accept
  simp only
  split <;> simp_all

theorem not_accept_of_fail {m : StateMachine} (h : m.fail = true) : m.accept = false := by
  have hs : m.state = -1 := by simpa [fail] using h
  simpa [accept, hs] using m.kind.acceptState_ne.symm

theorem ended_iff (m : StateMachine) : m.ended = true ↔ m.kind.Ended m.state := by
  simp [ended, fail, accept, Kind.Ended]

/-- The end-of-buffer mark ends every machine. -/
theorem step_EOF_ended (m : StateMachine) : (m.step EOF).ended = true := by
  unfold step
  split
  next h => simp [ended, h]
  next =>
    rw [ended_iff, move_kind, move_state]
    exact m.kind.next_EOF m.state

/-- Where a byte ends a machine, the end-of-buffer mark gives the same verdict,
and the same machine when it accepts. -/
theorem step_EOF_eq {m : StateMachine} {ch : UInt8} (h : (m.step ch).ended = true) :
    (m.step EOF).accept = (m.step ch).accept ∧
      ((m.step ch).accept = true → m.step EOF = m.step ch) := by
  unfold step at h ⊢
  split
  next => exact ⟨rfl, fun _ => rfl⟩
  next hf =>
    rw [if_neg hf, ended_iff, move_kind, move_state] at h
    have hstate := m.kind.next_eq_EOF m.state ch h
    unfold move accept
    simp only [hstate]
    split <;> simp_all

/-! ### The name of the token -/

/-- A machine that is still running has read `u`. -/
def Track (m : StateMachine) (u : List UInt8) : Prop :=
  m.fail = false → m.accept = false → m.name = u.map toChar

theorem Track.reset (m : StateMachine) : m.reset.Track [] := fun _ _ => rfl

theorem Track.step {m : StateMachine} {u : List UInt8} (h : m.Track u) (ch : UInt8) :
    (m.step ch).Track (u ++ [ch]) ∧
      ((m.step ch).accept = true → (m.step ch).name = u.map toChar) := by
  unfold StateMachine.step
  split
  next hf =>
    refine ⟨fun hf' => ?_, fun ha => ?_⟩
    · rw [hf] at hf'
      cases hf'
    · rw [not_accept_of_fail hf] at ha
      cases ha
  next hf =>
    by_cases hacc : m.accept = true
    · -- an accepting machine fails now
      have hs : m.state = m.kind.acceptState := by simpa [accept] using hacc
      have hfail : (m.move ch).fail = true := by
        simp [fail, hs, m.kind.next_accept ch]
      refine ⟨fun hf' => ?_, fun ha => ?_⟩
      · rw [hfail] at hf'
        cases hf'
      · rw [not_accept_of_fail hfail] at ha
        cases ha
    · have hname := h (by simpa using hf) (by simpa using hacc)
      refine ⟨fun _ ha => ?_, fun ha => ?_⟩
      · rw [move_name, if_neg (by simp [ha]), hname, List.map_append]
        rfl
      · rw [move_name, if_pos ha, hname]

end StateMachine

/-! ## All machines -/

/-- The machines in the order of their priority. -/
def stateMachines : List StateMachine :=
  [⟨.ifSM, 0, []⟩, ⟨.whileSM, 0, []⟩, ⟨.idSM, 0, []⟩, ⟨.relopSM, 0, []⟩, ⟨.whiteSM, 0, []⟩,
    ⟨.digitSM, 0, []⟩]

def resetAll (ms : List StateMachine) : List StateMachine := ms.map StateMachine.reset

def moveAllStateMachine (ch : UInt8) (ms : List StateMachine) : List StateMachine :=
  ms.map (StateMachine.step ch)

def allStateMachineFinish (ms : List StateMachine) : Bool :=
  ms.countP StateMachine.ended == ms.length

def peekFinalSM (ms : List StateMachine) : Option StateMachine := ms.find? StateMachine.accept

theorem allStateMachineFinish_iff {ms : List StateMachine} :
    allStateMachineFinish ms = true ↔ ∀ m ∈ ms, m.ended = true := by
  simp [allStateMachineFinish, List.countP_eq_length]

theorem allStateMachineFinish_EOF (ms : List StateMachine) :
    allStateMachineFinish (moveAllStateMachine EOF ms) = true := by
  rw [allStateMachineFinish_iff]
  intro m hm
  obtain ⟨m₀, -, rfl⟩ := List.mem_map.1 hm
  exact m₀.step_EOF_ended

/-- Where a byte ends all machines, the end-of-buffer mark chooses the same
one. -/
theorem peekFinalSM_EOF {ms : List StateMachine} {ch : UInt8}
    (h : allStateMachineFinish (moveAllStateMachine ch ms) = true) :
    peekFinalSM (moveAllStateMachine EOF ms) = peekFinalSM (moveAllStateMachine ch ms) := by
  rw [allStateMachineFinish_iff] at h
  induction ms with
  | nil => rfl
  | cons m ms ih =>
      have hm : (m.step ch).ended = true := h _ (by simp [moveAllStateMachine])
      have hms := ih fun x hx => h x (by
        simpa [moveAllStateMachine] using Or.inr (by simpa [moveAllStateMachine] using hx))
      obtain ⟨hacc, heq⟩ := StateMachine.step_EOF_eq hm
      simp only [peekFinalSM, moveAllStateMachine, List.map_cons, List.find?_cons, hacc] at hms ⊢
      split
      next ha => rw [heq ha]
      next => exact hms

/-- Every machine still running has read `u`. -/
def TrackAll (ms : List StateMachine) (u : List UInt8) : Prop := ∀ m ∈ ms, m.Track u

theorem TrackAll.reset (ms : List StateMachine) : TrackAll (resetAll ms) [] := by
  intro m hm
  obtain ⟨m₀, -, rfl⟩ := List.mem_map.1 hm
  exact .reset m₀

theorem TrackAll.step {ms : List StateMachine} {u : List UInt8} (h : TrackAll ms u) (ch : UInt8) :
    TrackAll (moveAllStateMachine ch ms) (u ++ [ch]) := by
  intro m hm
  obtain ⟨m₀, hm₀, rfl⟩ := List.mem_map.1 hm
  exact ((h m₀ hm₀).step ch).1

/-- The name of the machine that is chosen is what was read before the last
byte. -/
theorem TrackAll.peekFinalSM_name {ms : List StateMachine} {u : List UInt8} (h : TrackAll ms u)
    {ch : UInt8} {m : StateMachine}
    (hm : peekFinalSM (moveAllStateMachine ch ms) = some m) : m.name = u.map toChar := by
  obtain ⟨m₀, hm₀, rfl⟩ := List.mem_map.1 (List.mem_of_find?_eq_some hm)
  exact ((h m₀ hm₀).step ch).2 (List.find?_some hm)

end MyJavaExample.Lexer
