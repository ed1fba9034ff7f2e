import MyJavaExample.Lib.Run
import MyJavaExample.Tty.Queue

/-!
# Cooked input (`copy_to_cooked`, `tty_read`, `tty_ioctl`)

`copy_to_cooked` moves bytes from the read queue to the secondary queue and
counts the line ends there in `secondary.data`; `tty_read` takes them out and
counts down.  A line end is a newline or the end-of-file character of the
current settings.

An interrupt runs `copy_to_cooked` to its end before a task goes on.  While it
echoes, though, the console driver may answer a terminal request: `respond`
puts the answer on the read queue and calls `copy_to_cooked` again.  The calls
in progress are a stack of frames, each at a place where this may happen.
-/

namespace MyJavaExample.Tty

open Lib

/-! ## The terminal -/

/-- The parts of `struct tty_struct` that input uses; `data` is that of the
secondary queue. -/
structure TtyStruct where
  termios : Termios
  stopped : Bool
  readQ : TtyQueue
  writeQ : TtyQueue
  secondary : TtyQueue
  data : UInt32

/-- `c < 32` for a signed character. -/
def belowBlank (c : UInt8) : Bool := c < 32 ∨ 128 ≤ c

namespace TtyStruct

variable (t : TtyStruct)

def cc (i : Fin 17) : UInt8 := t.termios.cc i
def lFlag (f : UInt32) : Bool := flag t.termios.lflag f
def iFlag (f : UInt32) : Bool := flag t.termios.iflag f

/-- The test for the end of a line in the code. -/
def endsLine (c : UInt8) : Bool := c = 10 ∨ sameChar c (t.cc VEOF)

/-- The translations of an input byte; `none` for one that is ignored. -/
def input (below : UInt8 → Bool) (c : UInt8) : Option UInt8 :=
  let lower c := if t.iFlag IUCLC then tolower below c else c
  if c = 13 then
    if t.iFlag ICRNL then some (lower 10) else if t.iFlag IGNCR then none else some (lower c)
  else if c = 10 ∧ t.iFlag INLCR then some (lower 13)
  else some (lower c)

/-- `PUTCH` of some bytes on the write queue, then `tty->write`, which sends
`sent` bytes. -/
def write (bytes : List UInt8) (sent : ℕ) : TtyStruct :=
  { t with writeQ := TtyQueue.sent (bytes.foldl RingQueue.put t.writeQ) sent }

/-- The echo of a byte. -/
def echo (c : UInt8) (sent : ℕ) : TtyStruct :=
  if t.lFlag ECHO then
    t.write (if c = 10 then [10, 13]
      else if belowBlank c then if t.lFlag ECHOCTL then [94, c + 64] else []
      else [c]) sent
  else t

/-- The echo of a byte that is taken back. -/
def echoErase (c : UInt8) (sent : ℕ) : TtyStruct :=
  if t.lFlag ECHO then t.write (if belowBlank c then [127, 127] else [127]) sent else t

end TtyStruct

/-! ## `copy_to_cooked` -/

/-- Where a call of `copy_to_cooked` is. -/
inductive Frame where
  /-- At the head of its loop. -/
  | loop
  /-- At the head of the loop that kills the line. -/
  | kill
  /-- Echoing; then a byte of the line is taken back. -/
  | killing
  /-- Echoing; then the last byte is taken back. -/
  | erasing
  /-- Echoing; then the byte is stored. -/
  | storing (c : UInt8)

namespace TtyStruct

/-- There is no byte in the line that could be taken back. -/
def lineStart (t : TtyStruct) : Bool := t.secondary.empty || t.endsLine t.secondary.last

/-- A byte that is neither ignored nor a control character of the settings: it
is counted if it ends a line, and echoed. -/
def accept (t : TtyStruct) (c : UInt8) (sent : ℕ) : TtyStruct × Option Frame :=
  let t := if t.endsLine c then { t with data := t.data + 1 } else t
  (t.echo c sent, some (.storing c))

/-- What is done with a byte after its translation. -/
def dispatch (t : TtyStruct) (c : UInt8) (sent : ℕ) : TtyStruct × Option Frame :=
  if t.lFlag ICANON ∧ sameChar c (t.cc VKILL) then (t, some .kill)
  else if t.lFlag ICANON ∧ sameChar c (t.cc VERASE) then
    if t.lineStart then (t, some .loop)
    else (t.echoErase t.secondary.last sent, some .erasing)
  else if t.lFlag ICANON ∧ sameChar c (t.cc VSTOP) then ({ t with stopped := true }, some .loop)
  else if t.lFlag ICANON ∧ sameChar c (t.cc VSTART) then ({ t with stopped := false }, some .loop)
  -- The signals that `tty_intr` sends are inputs of the steps of the readers.
  else if t.lFlag ISIG ∧ sameChar c (t.cc VINTR) then (t, some .loop)
  else if t.lFlag ISIG ∧ sameChar c (t.cc VQUIT) then (t, some .loop)
  else t.accept c sent

/-- A call of `copy_to_cooked` from one frame to the next, or to its end. -/
def cook (below : UInt8 → Bool) (t : TtyStruct) (sent : ℕ) : Frame → TtyStruct × Option Frame
  | .loop =>
      if t.readQ.empty || t.secondary.full then (t, none)
      else
        let (c, readQ) := t.readQ.get
        let t := { t with readQ }
        match t.input below c with
        | none => (t, some .loop)
        | some c => t.dispatch c sent
  | .kill =>
      if t.lineStart then (t, some .loop)
      else (t.echoErase t.secondary.last sent, some .killing)
  | .killing => ({ t with secondary := t.secondary.unput }, some .kill)
  | .erasing => ({ t with secondary := t.secondary.unput }, some .loop)
  | .storing c => ({ t with secondary := t.secondary.put c }, some .loop)

/-- The answer of the console to a request for its identity. -/
def RESPONSE : List UInt8 := [27, 91, 63, 49, 59, 50, 99]

/-- `respond` up to its call of `copy_to_cooked`. -/
def respond (t : TtyStruct) : TtyStruct := { t with readQ := RESPONSE.foldl RingQueue.put t.readQ }

end TtyStruct

/-! ## `tty_read` -/

def ALRMMASK : UInt32 := 0x2000
def EINTR : ℤ := 4

/-- The variables of a call: the bytes still wanted and those read, and the
timing that was asked for. -/
structure ReadCall where
  nr : ℕ
  buf : List UInt8
  time : ℕ
  minimum : ℕ
  oldalarm : ℕ
  flag : Bool

inductive Reader where
  | idle (result : ℤ)
  /-- At the head of the loop, or in `sleep_if_empty` below it. -/
  | top (r : ReadCall)
  /-- In `put_fs_byte`. -/
  | putting (c : UInt8) (r : ReadCall)

namespace TtyStruct

def startRead (t : TtyStruct) (nr : ℤ) (oldalarm jiffies : ℕ) : Reader :=
  if nr < 0 then .idle (-1)
  else
    let time := 10 * (t.cc VTIME).toNat
    let minimum := (t.cc VMIN).toNat
    let timed := time ≠ 0 ∧ minimum = 0
    let minimum := if timed then 1 else minimum
    .top ⟨nr.toNat, [], time, min minimum nr.toNat, oldalarm,
      timed ∧ (oldalarm = 0 ∨ time + jiffies < oldalarm)⟩

def finishRead (r : ReadCall) (signal : UInt32) : Reader :=
  .idle (if signal ≠ 0 ∧ r.buf = [] then -EINTR else r.buf.length)

/-- The body of the inner loop up to `put_fs_byte`. -/
def take (t : TtyStruct) (r : ReadCall) : TtyStruct × Reader :=
  let (c, secondary) := t.secondary.get
  let data := if t.endsLine c then t.data - 1 else t.data
  let t := { t with secondary, data }
  if sameChar c (t.cc VEOF) ∧ t.lFlag ICANON then (t, .idle r.buf.length) else (t, .putting c r)

/-- What follows the inner loop. -/
def afterRead (t : TtyStruct) (r : ReadCall) (signal : UInt32) (jiffies : ℕ) : Reader :=
  if t.lFlag ICANON then if r.buf ≠ [] then finishRead r signal else .top r
  else
    let r := if r.time ≠ 0 then
      { r with flag := r.oldalarm = 0 ∨ r.time + jiffies < r.oldalarm } else r
    if r.minimum ≤ r.buf.length then finishRead r signal else .top r

/-- A reader goes on to where it may sleep next. -/
def resumeRead (t : TtyStruct) (signal : UInt32) (jiffies : ℕ) : Reader → TtyStruct × Reader
  | .idle result => (t, .idle result)
  | .top r =>
      if r.nr = 0 then (t, finishRead r signal)
      else if r.flag ∧ signal &&& ALRMMASK ≠ 0 then (t, finishRead r (signal &&& ~~~ALRMMASK))
      else if signal ≠ 0 then (t, finishRead r signal)
      else if t.secondary.empty || (t.lFlag ICANON && t.data == 0 && 20 < t.secondary.left.val) then
        (t, .top r)
      else t.take r
  | .putting c r =>
      let r := { r with nr := r.nr - 1, buf := r.buf ++ [c] }
      if r.nr = 0 ∨ t.secondary.empty then (t, t.afterRead r signal jiffies) else t.take r

end TtyStruct

/-! ## `tty_ioctl` -/

structure Termio where
  iflag : UInt16
  oflag : UInt16
  cflag : UInt16
  lflag : UInt16
  line : UInt8
  cc : Fin 8 → UInt8

/-- The commands that change the terminal. -/
inductive Ioctl where
  | TCSETS (termios : Termios)
  | TCSETSW (termios : Termios)
  | TCSETSF (termios : Termios)
  | TCSETA (termio : Termio)
  | TCSETAW (termio : Termio)
  | TCSETAF (termio : Termio)
  | TCFLSH (arg : ℤ)

/-- The low half of a word is replaced. -/
def setLow (x : UInt32) (y : UInt16) : UInt32 := (x &&& 0xFFFF0000) ||| y.toUInt32

def Termios.setTermio (old : Termios) (new : Termio) : Termios where
  iflag := setLow old.iflag new.iflag
  oflag := setLow old.oflag new.oflag
  cflag := setLow old.cflag new.cflag
  lflag := setLow old.lflag new.lflag
  line := new.line
  cc := fun i => if h : i.val < 8 then new.cc ⟨i.val, h⟩ else old.cc i

namespace TtyStruct

def flushRead (t : TtyStruct) : TtyStruct := { t with readQ := t.readQ.flush }
def flushWrite (t : TtyStruct) : TtyStruct := { t with writeQ := t.writeQ.flush }
def setTermios (t : TtyStruct) (termios : Termios) : TtyStruct := { t with termios }
def setTermio (t : TtyStruct) (termio : Termio) : TtyStruct := t.setTermios (t.termios.setTermio termio)

def ioctl (t : TtyStruct) : Ioctl → TtyStruct
  | .TCSETS termios => t.setTermios termios
  | .TCSETSW termios => t.setTermios termios
  | .TCSETSF termios => t.flushRead.setTermios termios
  | .TCSETA termio => t.setTermio termio
  | .TCSETAW termio => t.setTermio termio
  | .TCSETAF termio => t.flushRead.setTermio termio
  | .TCFLSH arg =>
      if arg = 0 then t.flushRead
      else if arg = 1 then t.flushWrite
      else if arg = 2 then t.flushRead.flushWrite
      else t

end TtyStruct

/-! ## Runs -/

/-- A terminal with the calls of `copy_to_cooked` in progress, the innermost
first, and its readers. -/
structure Line (τ : Type) where
  tty : TtyStruct
  stack : List Frame
  reader : τ → Reader

inductive LineAction (τ : Type) where
  /-- A byte arrives.  It is dropped when the read queue is full. -/
  | receive (c : UInt8)
  /-- `copy_to_cooked` is called. -/
  | interrupt
  /-- The innermost call of `copy_to_cooked` goes on. -/
  | cook (sent : ℕ)
  /-- The driver that is echoing calls `respond`. -/
  | respond
  | read (task : τ) (nr : ℤ) (oldalarm jiffies : ℕ)
  | resume (task : τ) (signal : UInt32) (jiffies : ℕ)
  | ioctl (cmd : Ioctl)

/-- The frames in which the driver is running. -/
def Frame.echoing : Frame → Bool
  | .loop => false
  | .kill => false
  | .killing => true
  | .erasing => true
  | .storing _ => true

namespace Line

variable {τ : Type} [DecidableEq τ] (below : UInt8 → Bool)

/-- Tasks run when no interrupt is in progress. -/
def step (s : Line τ) : LineAction τ → Line τ
  | .receive c =>
      if s.tty.readQ.full then s else { s with tty := { s.tty with readQ := s.tty.readQ.put c } }
  | .interrupt => if s.stack = [] then { s with stack := [.loop] } else s
  | .cook sent =>
      match s.stack with
      | [] => s
      | frame :: stack =>
          let (tty, frame) := s.tty.cook below sent frame
          { s with tty, stack := frame.toList ++ stack }
  | .respond =>
      match s.stack with
      | [] => s
      | frame :: stack =>
          if frame.echoing && s.tty.lFlag ECHO then
            { s with tty := s.tty.respond, stack := .loop :: frame :: stack }
          else s
  | .read task nr oldalarm jiffies =>
      match s.stack, s.reader task with
      | [], .idle _ =>
          { s with reader := Function.update s.reader task (s.tty.startRead nr oldalarm jiffies) }
      | _, _ => s
  | .resume task signal jiffies =>
      match s.stack with
      | [] =>
          let (tty, reader) := s.tty.resumeRead signal jiffies (s.reader task)
          { s with tty, reader := Function.update s.reader task reader }
      | _ :: _ => s
  | .ioctl cmd =>
      match s.stack with
      | [] => { s with tty := s.tty.ioctl cmd }
      | _ :: _ => s

/-- A terminal after `tty_init`. -/
def init (termios : Termios) : Line τ where
  tty := ⟨termios, false, TtyQueue.init, TtyQueue.init, TtyQueue.init, 0⟩
  stack := []
  reader := fun _ => .idle 0

end Line

end MyJavaExample.Tty
