import MyJavaExample.Java.InputStream
import MyJavaExample.Lexer.StateMachine

/-!
# The lexical analyzer: `compiler/lexical/LexicalAnalyzer`

`parseToken` reads characters until every machine has ended.  It needs two
things of what it reads from, collected in `Source`: the next character, and
the move of both pointers to just before the last character read.  There are
two sources.  `LexicalAnalyzer` is the source's double buffer, refilled from
the input stream.  `WholeInput` holds the input in one buffer that ends with a
single `EOF` and is never refilled.

`parseToken` resets the machines before it reads, so the states they have
between two calls are no part of the state here.
-/

namespace MyJavaExample.Lexer

open Java

def BUFFER_SIZE : ℕ := 1024

def BUFFER_TOTAL_SIZE : ℕ := 2048

/-- The outcome of one call of `parseToken`. -/
inductive Result where
  | token (type : TokenType) (name : List UInt16)
  | null
  | throws (e : JExn)
  /-- The bound on the turns of the loop was reached. -/
  | running
deriving DecidableEq

def illegalString : JExn := .illegalState "Illegal string"

def lexmeTooLong : JExn := .illegalState "lexme length more than BUFFER_SIZE"

def Result.isToken : Result → Bool
  | .token _ _ => true
  | _ => false

/-- The name of the token, read when the token is returned. -/
def Result.name : Result → List UInt16
  | .token _ name => name
  | _ => []

/-! ## `parseToken` -/

/-- What `parseToken` reads from. -/
structure Source (ρ : Type) where
  getNextCh : ρ → Except JExn UInt8 × ρ
  /-- `forward -= 1; begin = forward`. -/
  retract : ρ → ρ

namespace Source

variable {ρ : Type} (src : Source ρ)

/-- The loop of `parseToken`, for at most `fuel` turns. -/
def parseLoop : ℕ → List StateMachine → ρ → Result × ρ
  | 0, _, r => (.running, r)
  | fuel + 1, ms, r =>
      match src.getNextCh r with
      | (.error e, r) => (.throws e, r)
      | (.ok ch, r) =>
          let ms := moveAllStateMachine ch ms
          if allStateMachineFinish ms then
            match peekFinalSM ms with
            | none => (.throws illegalString, r)
            | some sm => (.token sm.kind.tokenType sm.name, src.retract r)
          else if ch = EOF then (.null, r)
          else parseLoop fuel ms r

/-- Every turn that does not end the loop moves `forward` by one, and
`getNextCh` throws once `forward` is more than `BUFFER_SIZE` ahead. -/
def parseToken (r : ρ) : Result × ρ :=
  src.parseLoop (BUFFER_SIZE + 2) (resetAll stateMachines) r

/-- The state after `k` calls of `parseToken`. -/
def after : ℕ → ρ → ρ
  | 0, r => r
  | k + 1, r => after k (src.parseToken r).2

/-- The result of the call that comes after `k` calls. -/
def result (k : ℕ) (r : ρ) : Result := (src.parseToken (src.after k r)).1

theorem after_succ (k : ℕ) (r : ρ) :
    src.after (k + 1) r = (src.parseToken (src.after k r)).2 := by
  induction k generalizing r with
  | zero => rfl
  | succ k ih => exact ih _

end Source

/-! ## The double buffer -/

/-- The cells of `buffer`. -/
abbrev Buffer : Type := ℕ → UInt8

namespace Buffer

def get (b : Buffer) (i : ℤ) : Except JExn UInt8 :=
  if 0 ≤ i ∧ i < BUFFER_TOTAL_SIZE then .ok (b i.toNat) else .error .arrayIndexOutOfBounds

def set (b : Buffer) (i : ℕ) (v : UInt8) : Buffer := fun j => if j = i then v else b j

/-- The bytes `bs` are stored from `off` on. -/
def store (b : Buffer) (off : ℕ) (bs : List UInt8) : Buffer := fun j =>
  if off ≤ j ∧ j < off + bs.length then bs.getD (j - off) 0 else b j

/-- `System.arraycopy(buffer, src, buffer, dst, len)`. -/
def arraycopy (b : Buffer) (src dst len : ℕ) : Buffer := fun j =>
  if dst ≤ j ∧ j < dst + len then b (src + (j - dst)) else b j

end Buffer

structure LexicalAnalyzer where
  inputStream : InputStream
  buffer : Buffer
  begin : ℤ
  forward : ℤ

namespace LexicalAnalyzer

/-- `init` on a new analyzer.  When nothing can be read although `available()`
is positive, `readLength` is -1 and no index of the buffer. -/
def init (inputStream : InputStream) : Except JExn LexicalAnalyzer :=
  if inputStream.avail inputStream.rest.length ≤ 0 then
    .error (.illegalArgument "InputStream length is not > 0")
  else
    match inputStream.read (BUFFER_TOTAL_SIZE - 1) with
    | (none, _) => .error .arrayIndexOutOfBounds
    | (some bs, inputStream) =>
        let buffer : Buffer := Buffer.store (fun _ => 0) 0 bs
        .ok { inputStream, buffer := buffer.set bs.length EOF, begin := 0, forward := 0 }

/-- The branch of `getNextCh` that reads new data into the right half. -/
def refill (a : LexicalAnalyzer) : LexicalAnalyzer :=
  let buffer := a.buffer.arraycopy BUFFER_SIZE 0 (BUFFER_SIZE - 1)
  let a := { a with begin := a.begin - BUFFER_SIZE, forward := a.forward - BUFFER_SIZE }
  match a.inputStream.read BUFFER_SIZE with
  | (none, inputStream) =>
      { a with inputStream, buffer := buffer.set (BUFFER_SIZE - 2) EOF }
  | (some bs, inputStream) =>
      let buffer := buffer.store (BUFFER_SIZE - 1) bs
      { a with inputStream, buffer := buffer.set (BUFFER_SIZE - 1 + bs.length) EOF }

/-- After a refill the character returned is still the `EOF` that was read. -/
def getNextCh (a : LexicalAnalyzer) : Except JExn UInt8 × LexicalAnalyzer :=
  if a.forward - a.begin > BUFFER_SIZE then (.error lexmeTooLong, a)
  else
    match a.buffer.get a.forward with
    | .error e => (.error e, { a with forward := a.forward + 1 })
    | .ok ch =>
        let a := { a with forward := a.forward + 1 }
        if ch = EOF then
          if a.inputStream.avail a.inputStream.rest.length > 0 then (.ok ch, a.refill)
          else (.ok EOF, a)
        else (.ok ch, a)

def source : Source LexicalAnalyzer where
  getNextCh := getNextCh
  retract a := { a with begin := a.forward - 1, forward := a.forward - 1 }

end LexicalAnalyzer

/-! ## The whole input in one buffer -/

structure WholeInput where
  /-- The input, without the `EOF` that follows it. -/
  input : List UInt8
  begin : ℤ
  forward : ℤ
deriving DecidableEq

namespace WholeInput

/-- `init` has the same check as that of the analyzer. -/
def init (inputStream : InputStream) : Except JExn WholeInput :=
  if inputStream.avail inputStream.rest.length ≤ 0 then
    .error (.illegalArgument "InputStream length is not > 0")
  else .ok { input := inputStream.rest, begin := 0, forward := 0 }

def getNextCh (a : WholeInput) : Except JExn UInt8 × WholeInput :=
  if a.forward - a.begin > BUFFER_SIZE then (.error lexmeTooLong, a)
  else
    (match (a.input ++ [EOF])[a.forward.toNat]? with
      | none => .error .arrayIndexOutOfBounds
      | some ch => .ok ch,
      { a with forward := a.forward + 1 })

def source : Source WholeInput where
  getNextCh := getNextCh
  retract a := { a with begin := a.forward - 1, forward := a.forward - 1 }

/-- The single `EOF` has been read and not put back. -/
def Ended (a : WholeInput) : Prop := (a.input.length : ℤ) < a.forward

end WholeInput

end MyJavaExample.Lexer
