import MyJavaExample.Kernel.Pid
import MyJavaExample.Kernel.Schedule

/-!
# The life of a process: `kernel/exit.c`, `kernel/fork.c` and `kernel/sys.c`

The kernel is not preempted: what a task does between two calls of `schedule` is
one action.  `do_exit` can sleep while it closes the files, after the children
went to the first process and before the task is a zombie, so it is two actions.
`sys_waitpid` sleeps when no child is reported, and looks through the table
again when it is woken up.  A sleep in another call is an action of its own, and
so is a signal that the kernel sends for an alarm, a terminal or a pipe.

An action of a task that does not run, or is in another call, changes nothing.
The idle task only makes the first process; the table starts when it is there.

`release` calls `schedule` too, but what `sys_waitpid` does after it is about the
own memory of the process only.

The files, the memory and the terminal of a task are left out, and so are its
times.
-/

namespace MyJavaExample.Kernel

def EPERM : ℤ := 1
def ESRCH : ℤ := 3
def EINTR : ℤ := 4
def ECHILD : ℤ := 10
def EINVAL : ℤ := 22

def SIGHUP : UInt32 := 1

def SIGCHLD : UInt32 := 17

/-- Where a task is in the kernel, as far as the processes see it. -/
inductive Call where
  | other
  /-- In `sys_waitpid`, after its call of `schedule`. -/
  | waiting (pid : ℤ) (nohang untraced : Bool)
  /-- In `do_exit`, after the children went to the first process. -/
  | exiting (code : ℤ)
deriving DecidableEq

def Call.isExiting : Call → Bool
  | .exiting _ => true
  | _ => false

structure Process extends Proc where
  session : ℤ
  leader : Bool
  euid : ℕ
  signal : UInt32
  blocked : UInt32
  exitCode : ℤ
  call : Call
deriving DecidableEq

namespace Process

variable (p : Process)

def setState (st : TaskState) : Process := { p with state := st }
def setCall (call : Call) : Process := { p with call }
def setFather (father : ℤ) : Process := { p with father }
def setPgrp (pgrp : ℤ) : Process := { p with pgrp }
def setZombie (code : ℤ) : Process := { p with state := .zombie, exitCode := code }

/-- `p->signal |= mask` -/
def post (mask : UInt32) : Process := { p with signal := p.signal ||| mask }

/-- `p->signal &= ~mask` -/
def clear (mask : UInt32) : Process := { p with signal := p.signal &&& ~~~mask }

/-- There is a signal that is not blocked. -/
def hasSignal : Bool := p.signal &&& ~~~(BLOCKABLE &&& p.blocked) ≠ 0

/-- The first loop of `schedule`. -/
def checkSignals : Process :=
  if p.hasSignal ∧ p.state = .interruptible then p.setState .running else p

/-- `father` of the children of the task that exits. -/
def adopt (pid : ℤ) : Process := if p.father = pid then p.setFather 1 else p

end Process

/-- What happens to a process; numbers stand for processes. -/
inductive Event where
  | forked (father pid : ℤ)
  /-- The children go to the first process. -/
  | left (pid : ℤ)
  | exited (pid code : ℤ)
  | reaped (father pid code : ℤ)
  /-- A task that found no father released itself. -/
  | vanished (pid : ℤ)
deriving DecidableEq

structure Table where
  task : Task → Option Process
  lastPid : ℤ

namespace Table

variable (s : Table)

def toProcTable : ProcTable where
  task := fun i => (s.task i).map Process.toProc
  lastPid := s.lastPid

def setTask (i : Task) (p : Option Process) : Table :=
  { s with task := Function.update s.task i p }

def modify (i : Task) (f : Process → Process) : Table := s.setTask i ((s.task i).map f)

/-- A loop over all tasks but the first. -/
def mapTasks (f : Process → Process) : Table :=
  { s with task := fun i => if i = 0 then s.task i else (s.task i).map f }

/-! ## Signals -/

/-- `send_sig` to the task in a slot. -/
def sendSig (current : Process) (sig : ℤ) (i : Task) (priv : Bool) : Table × ℤ :=
  match s.task i with
  | none => (s, -EINVAL)
  | some p =>
      if sig < 1 ∨ 32 < sig then (s, -EINVAL)
      else if priv ∨ current.euid = p.euid ∨ current.euid = 0 then
        (s.modify i fun p => p.post (sigMask (UInt32.ofInt sig)), 0)
      else (s, -EPERM)

/-- Whether `sys_kill` calls `send_sig` for a slot, and its `priv`. -/
def killTarget (current : Process) (pid : ℤ) (p : Option Process) : Option Bool :=
  if pid = 0 then
    match p with
    | some p => if p.pgrp = current.pid then some true else none
    | none => none
  else if 0 < pid then
    match p with
    | some p => if p.pid = pid then some false else none
    | none => none
  -- also for an empty slot
  else if pid = -1 then some false
  else
    match p with
    | some p => if p.pgrp = -pid then some false else none
    | none => none

/-- One slot of the loop of `sys_kill`. -/
def killOne (current : Process) (pid sig : ℤ) (r : Table × ℤ) (i : Task) : Table × ℤ :=
  match killTarget current pid (r.1.task i) with
  | none => r
  | some priv =>
      let (s, err) := r.1.sendSig current sig i priv
      (s, if err ≠ 0 then err else r.2)

def sysKill (current : Process) (pid sig : ℤ) : Table × ℤ :=
  Sched.slots.foldl (killOne current pid sig) (s, 0)

def killSession (session : ℤ) : Table :=
  s.mapTasks fun p => if p.session = session then p.post (sigMask SIGHUP) else p

/-! ## `fork` -/

/-- `copy_process`: `page` says that there is a page for the task structure, and
`copied` that `copy_mem` succeeds. -/
def copyProcess (nr : Task) (current : Process) (page copied : Bool) : Table × ℤ × List Event :=
  if page = false then (s, -EAGAIN, [])
  else if copied = false then (s.setTask nr none, -EAGAIN, [])
  else
    let p := { current with
      state := .running, pid := s.lastPid, father := current.pid, signal := 0, leader := false }
    (s.setTask nr (some p), s.lastPid, [.forked current.pid s.lastPid])

def sysFork (current : Process) (page copied : Bool) : Table × ℤ × List Event :=
  match s.toProcTable.findEmptyProcess NR_TASKS with
  | none => (s, -EAGAIN, [])
  | some (r, nr) =>
      let s := { s with lastPid := r.lastPid }
      if h : nr.toNat < NR_TASKS ∧ 0 ≤ nr then
        s.copyProcess ⟨nr.toNat, h.1⟩ current page copied
      else (s, nr, [])

/-! ## `exit` -/

/-- The loop of `do_exit` over the children.  The task 1 gets one `SIGCHLD` for
all that are zombies. -/
def adoptChildren (pid : ℤ) : Table :=
  let zombie := (List.finRange NR_TASKS).any fun i =>
    (s.task i).any fun p => p.father = pid ∧ p.state = .zombie
  let s := { s with task := fun i => (s.task i).map (Process.adopt · pid) }
  if zombie then s.modify 1 fun p => p.post (sigMask SIGCHLD) else s

/-- `do_exit` up to the closing of the files. -/
def doExit (i : Task) (current : Process) (code : ℤ) : Table × List Event :=
  ((s.adoptChildren current.pid).modify i fun p => p.setCall (.exiting code),
    [.left current.pid])

/-- The first slot with the number. -/
def findPid (pid : ℤ) : Option Task :=
  (List.finRange NR_TASKS).find? fun i => (s.task i).any fun p => p.pid = pid

/-- `tell_father`; a task that finds none releases itself. -/
def tellFather (i : Task) (current : Process) : Table × List Event :=
  match if current.father = 0 then none else s.findPid current.father with
  | some j => (s.modify j fun p => p.post (sigMask SIGCHLD), [])
  | none => (s.setTask i none, [.vanished current.pid])

/-- `do_exit` from there on. -/
def finishExit (i : Task) (current : Process) (code : ℤ) : Table × List Event :=
  let s := if current.leader then s.killSession current.session else s
  let s := s.modify i fun p => p.setZombie code
  let (s, events) := s.tellFather i current
  (s, .exited current.pid code :: events)

/-! ## `waitpid` -/

/-- The child in a slot is one that `sys_waitpid` looks at. -/
def accepts (i : Task) (current : Process) (pid : ℤ) (j : Task) : Bool :=
  (s.task j).any fun p => j != i && ProcTable.waitsFor pid current.toProc p.toProc

/-- The child in a slot ends the search. -/
def reports (i : Task) (current : Process) (pid : ℤ) (untraced : Bool) (j : Task) : Bool :=
  s.accepts i current pid j && (s.task j).any fun p => ProcTable.reported untraced p.state

/-- The child in a slot is neither stopped nor a zombie. -/
def busy (i : Task) (current : Process) (pid : ℤ) (j : Task) : Bool :=
  s.accepts i current pid j &&
    (s.task j).any fun p => p.state ≠ .stopped ∧ p.state ≠ .zombie

/-- `sys_waitpid` from `repeat` to its end or to `schedule`.  The result is none
when the task sleeps. -/
def search (i : Task) (current : Process) (pid : ℤ) (nohang untraced : Bool) :
    Table × Option ℤ × List Event :=
  match Sched.slots.find? (s.reports i current pid untraced) with
  | some j =>
      match s.task j with
      -- not reached: there is a task in the slot
      | none => (s, some (-ECHILD), [])
      | some p =>
          if p.state = .zombie then
            ((s.setTask j none).modify i fun p => p.setCall .other, some p.pid,
              [.reaped current.pid p.pid p.exitCode])
          else (s.modify i fun p => p.setCall .other, some p.pid, [])
  | none =>
      if Sched.slots.any (s.busy i current pid) then
        if nohang then (s.modify i fun p => p.setCall .other, some 0, [])
        else
          (s.modify i fun p => (p.setState .interruptible).setCall (.waiting pid nohang untraced),
            none, [])
      else (s.modify i fun p => p.setCall .other, some (-ECHILD), [])

/-- `sys_waitpid` after `schedule`. -/
def wakeWait (i : Task) (pid : ℤ) (nohang untraced : Bool) : Table × Option ℤ × List Event :=
  let s := s.modify i fun p => p.clear (sigMask SIGCHLD)
  match s.task i with
  | none => (s, none, [])
  | some current =>
      if current.signal = 0 then s.search i current pid nohang untraced
      else (s.modify i fun p => p.setCall .other, some (-EINTR), [])

/-! ## Process groups -/

def sysSetpgid (current : Process) (pid pgid : ℤ) : Table × ℤ :=
  let pid := if pid = 0 then current.pid else pid
  let pgid := if pgid = 0 then current.pid else pgid
  match s.findPid pid with
  | none => (s, -ESRCH)
  | some j =>
      match s.task j with
      -- not reached: there is a task in the slot
      | none => (s, -ESRCH)
      | some p =>
          if p.leader then (s, -EPERM)
          else if p.session ≠ current.session then (s, -EPERM)
          else (s.modify j fun p => p.setPgrp pgid, 0)

def sysSetsid (i : Task) (current : Process) : Table × ℤ :=
  if current.leader ∧ current.euid ≠ 0 then (s, -EPERM)
  else
    (s.modify i fun p => { p with leader := true, session := p.pid, pgrp := p.pid }, current.pid)

end Table

/-! ## Actions -/

inductive ProcessAct where
  | fork (i : Task) (page copied : Bool)
  | exit (i : Task) (code : ℤ)
  | finishExit (i : Task)
  | waitpid (i : Task) (pid : ℤ) (nohang untraced : Bool)
  /-- A task that was woken up in `sys_waitpid` goes on. -/
  | wakeWait (i : Task)
  /-- The first loop of `schedule`. -/
  | schedule
  | kill (i : Task) (pid sig : ℤ)
  /-- The kernel itself sends signals. -/
  | post (j : Task) (mask : UInt32)
  /-- `ret_from_sys_call` takes signals away. -/
  | deliver (i : Task) (mask : UInt32)
  | setBlocked (i : Task) (mask : UInt32)
  | setEuid (i : Task) (euid : ℕ)
  | setpgid (i : Task) (pid pgid : ℤ)
  | setsid (i : Task)
  /-- A sleep in another call, and its end. -/
  | sleep (i : Task) (interruptible : Bool)
  | wakeUp (i : Task)

namespace Table

/-- The task in a slot runs, and is in the call. -/
def runs (s : Table) (i : Task) (inCall : Call → Bool) : Option Process :=
  (s.task i).filter fun p => i ≠ 0 ∧ p.state = .running ∧ inCall p.call

/-- One action: the table after it, and what happened. -/
def next (s : Table) : ProcessAct → Table × List Event
  | .fork i page copied =>
      match s.runs i (· = .other) with
      | none => (s, [])
      | some current =>
          let (s, _, events) := s.sysFork current page copied
          (s, events)
  | .exit i code =>
      match s.runs i (· = .other) with
      | none => (s, [])
      | some current => s.doExit i current code
  | .finishExit i =>
      match s.runs i Call.isExiting with
      | some current =>
          match current.call with
          | .exiting code => s.finishExit i current code
          | _ => (s, [])
      | none => (s, [])
  | .waitpid i pid nohang untraced =>
      match s.runs i (· = .other) with
      | none => (s, [])
      | some current =>
          let (s, _, events) := s.search i current pid nohang untraced
          (s, events)
  | .wakeWait i =>
      match s.runs i fun _ => true with
      | some current =>
          match current.call with
          | .waiting pid nohang untraced =>
              let (s, _, events) := s.wakeWait i pid nohang untraced
              (s, events)
          | _ => (s, [])
      | none => (s, [])
  | .schedule => (s.mapTasks Process.checkSignals, [])
  | .kill i pid sig =>
      match s.runs i (· = .other) with
      | none => (s, [])
      | some current => ((s.sysKill current pid sig).1, [])
  | .post j mask => (s.modify j fun p => p.post mask, [])
  | .deliver i mask =>
      match s.runs i (· = .other) with
      | none => (s, [])
      | some _ => (s.modify i fun p => p.clear mask, [])
  | .setBlocked i mask =>
      match s.runs i (· = .other) with
      | none => (s, [])
      | some _ => (s.modify i fun p => { p with blocked := mask }, [])
  | .setEuid i euid =>
      match s.runs i (· = .other) with
      | none => (s, [])
      | some _ => (s.modify i fun p => { p with euid }, [])
  | .setpgid i pid pgid =>
      match s.runs i (· = .other) with
      | none => (s, [])
      | some current => ((s.sysSetpgid current pid pgid).1, [])
  | .setsid i =>
      match s.runs i (· = .other) with
      | none => (s, [])
      | some current => ((s.sysSetsid i current).1, [])
  | .sleep i interruptible =>
      match s.runs i fun call => call = .other ∨ call.isExiting with
      | none => (s, [])
      | some _ =>
          (s.modify i fun p => p.setState (if interruptible then .interruptible else .uninterruptible),
            [])
  | .wakeUp i =>
      match s.task i with
      | none => (s, [])
      | some p =>
          if p.state = .interruptible ∨ p.state = .uninterruptible then
            (s.modify i fun p => p.setState .running, [])
          else (s, [])

/-- A run: the table after it, and all that happened. -/
def run : List ProcessAct → Table → Table × List Event
  | [], s => (s, [])
  | a :: as, s =>
      let (s, events) := s.next a
      let (s, rest) := run as s
      (s, events ++ rest)

/-- The table when the first process is there. -/
def boot : Table where
  task := fun i =>
    if i = 0 then
      some { pid := 0, father := -1, pgrp := 0, state := .running, session := 0, leader := false,
             euid := 0, signal := 0, blocked := 0, exitCode := 0, call := .other }
    else if i = 1 then
      some { pid := 1, father := 0, pgrp := 0, state := .running, session := 0, leader := false,
             euid := 0, signal := 0, blocked := 0, exitCode := 0, call := .other }
    else none
  lastPid := 1

end Table

end MyJavaExample.Kernel
