import Mathlib.Algebra.Ring.Int.Defs
import Mathlib.Data.List.FinRange
import Mathlib.Logic.Function.Basic
import MyJavaExample.Lib.Run

/-!
# Open files (`fs/open.c`, `fs/fcntl.c`, `fs/pipe.c`)

All tasks share one table of open files.  A descriptor of a task points to an
entry of the table, and `f_count` of the entry is to be the number of
descriptors that do.  `sys_open` and `sys_pipe` reserve entries and descriptors
before they know that they will succeed, and give them back by hand.

What `open_namei` and `get_pipe_inode` return is an input of the calls.  For
each entry `given` lists the inodes that were stored in it, and `put` those
that were released when it was closed.
-/

namespace MyJavaExample.Fs

open Lib

def NR_OPEN : ℕ := 20
def NR_FILE : ℕ := 64

/-- A slot of `task[]`; there are `NR_TASKS` of them. -/
abbrev TaskNr := Fin 64

abbrev Fd := Fin NR_OPEN
abbrev FileNr := Fin NR_FILE

def EPERM : ℤ := 1
def EBADF : ℤ := 9
def EAGAIN : ℤ := 11
def EINVAL : ℤ := 22
def EMFILE : ℤ := 24

/-- `struct file`. -/
structure File (ι : Type) where
  mode : UInt16
  flags : UInt16
  count : UInt16
  inode : Option ι
  pos : ℤ

/-- What a task has to do with files.  Bit `fd` of `close_on_exec` is
`closeOnExec fd`.  A slot without a task has no descriptors. -/
structure TaskFiles where
  live : Bool
  filp : Fd → Option FileNr
  closeOnExec : Fd → Bool
  leader : Bool
  tty : ℤ

/-- An inode that `open_namei` returns, with its mode and first zone. -/
structure Opened (ι : Type) where
  inode : ι
  mode : UInt16
  zone : UInt16

def Opened.isChr {ι : Type} (o : Opened ι) : Bool := o.mode &&& 0o170000 = 0o020000

structure Files (ι : Type) where
  file : FileNr → File ι
  task : TaskNr → TaskFiles
  given : FileNr → List ι
  put : FileNr → List ι

namespace Files

variable {ι : Type} (s : Files ι)

/-! ## Parts of the state -/

def setFile (f : FileNr) (file : File ι) : Files ι :=
  { s with file := Function.update s.file f file }

def setCount (f : FileNr) (count : UInt16) : Files ι := s.setFile f { s.file f with count }

def setTask (t : TaskNr) (p : TaskFiles) : Files ι := { s with task := Function.update s.task t p }

def setFilp (t : TaskNr) (fd : Fd) (f : Option FileNr) : Files ι :=
  s.setTask t { s.task t with filp := Function.update (s.task t).filp fd f }

def setCloseOnExec (t : TaskNr) (fd : Fd) (b : Bool) : Files ι :=
  s.setTask t { s.task t with closeOnExec := Function.update (s.task t).closeOnExec fd b }

/-- The inode is stored in an entry that is in use for the first time. -/
def store (f : FileNr) (file : File ι) : Files ι :=
  { s.setFile f file with given := Function.update s.given f (s.given f ++ file.inode.toList) }

/-- `iput` of the inode of an entry. -/
def iput (f : FileNr) : Files ι :=
  { s with put := Function.update s.put f (s.put f ++ (s.file f).inode.toList) }

def freeFd (t : TaskNr) : Option Fd :=
  (List.finRange NR_OPEN).find? fun fd => ((s.task t).filp fd).isNone

def freeFile : Option FileNr := (List.finRange NR_FILE).find? fun f => (s.file f).count == 0

/-! ## System calls -/

/-- The part of `sys_open` after `open_namei` has returned an inode. -/
def openInode (t : TaskNr) (fd : Fd) (f : FileNr) (flag : UInt16) (o : Opened ι) : ℤ × Files ι :=
  let major := o.zone >>> 8
  if o.isChr ∧ major = 5 ∧ (s.task t).tty < 0 then
    (-EPERM, (s.setFilp t fd none).setCount f 0)
  else
    let s :=
      if o.isChr ∧ major = 4 ∧ (s.task t).leader ∧ (s.task t).tty < 0 then
        s.setTask t { s.task t with tty := (o.zone &&& 0xff).toNat }
      else s
    (fd.val, s.store f ⟨o.mode, flag, 1, some o.inode, 0⟩)

def sysOpen (t : TaskNr) (flag : UInt16) (namei : Except ℤ (Opened ι)) : ℤ × Files ι :=
  match s.freeFd t with
  | none => (-EINVAL, s)
  | some fd =>
      let s := s.setCloseOnExec t fd false
      match s.freeFile with
      | none => (-EINVAL, s)
      | some f =>
          let s := (s.setFilp t fd (some f)).setCount f ((s.file f).count + 1)
          match namei with
          | .error e => (e, (s.setFilp t fd none).setCount f 0)
          | .ok o => s.openInode t fd f flag o

/-- `sys_close` of a descriptor. -/
def closeFd (t : TaskNr) (fd : Fd) : Except String (ℤ × Files ι) :=
  let s := s.setCloseOnExec t fd false
  match (s.task t).filp fd with
  | none => pure (-EINVAL, s)
  | some f =>
      let s := s.setFilp t fd none
      if (s.file f).count = 0 then throw "Close: file count is 0"
      else
        let s := s.setCount f ((s.file f).count - 1)
        if (s.file f).count ≠ 0 then pure (0, s) else pure (0, s.iput f)

def sysClose (t : TaskNr) (fd : ℕ) : Except String (ℤ × Files ι) :=
  if h : fd < NR_OPEN then s.closeFd t ⟨fd, h⟩ else pure (-EINVAL, s)

/-- The descriptor that `fd` is, if it is open. -/
def openFile (t : TaskNr) (fd : ℕ) : Option (Fd × FileNr) :=
  if h : fd < NR_OPEN then ((s.task t).filp ⟨fd, h⟩).map fun f => (⟨fd, h⟩, f) else none

def dupfd (t : TaskNr) (fd arg : ℕ) : ℤ × Files ι :=
  match s.openFile t fd with
  | none => (-EBADF, s)
  | some (_, f) =>
      if NR_OPEN ≤ arg then (-EINVAL, s)
      else
        match (List.finRange NR_OPEN).find? fun i =>
          arg ≤ i.val && ((s.task t).filp i).isNone with
        | none => (-EMFILE, s)
        | some i =>
            let s := s.setCloseOnExec t i false
            let s := (s.setFilp t i (some f)).setCount f ((s.file f).count + 1)
            (i.val, s)

def sysDup2 (t : TaskNr) (oldfd newfd : ℕ) : Except String (ℤ × Files ι) := do
  let (_, s) ← s.sysClose t newfd
  pure (s.dupfd t oldfd newfd)

def sysDup (t : TaskNr) (fildes : ℕ) : ℤ × Files ι := s.dupfd t fildes 0

def O_APPEND : UInt16 := 0o2000
def O_NONBLOCK : UInt16 := 0o4000

/-- The commands that do something; the others return -1. -/
inductive FcntlCmd where
  | F_DUPFD
  | F_GETFD
  | F_SETFD
  | F_GETFL
  | F_SETFL
  | other

def sysFcntl (t : TaskNr) (fd : ℕ) (cmd : FcntlCmd) (arg : ℕ) : ℤ × Files ι :=
  match s.openFile t fd with
  | none => (-EBADF, s)
  | some (i, f) =>
      match cmd with
      | .F_DUPFD => s.dupfd t fd arg
      | .F_GETFD => (if (s.task t).closeOnExec i then 1 else 0, s)
      | .F_SETFD => (0, s.setCloseOnExec t i (arg % 2 = 1))
      | .F_GETFL => ((s.file f).flags.toNat, s)
      | .F_SETFL =>
          let flags := ((s.file f).flags &&& ~~~(O_APPEND ||| O_NONBLOCK)) |||
            (UInt16.ofNat arg &&& (O_APPEND ||| O_NONBLOCK))
          (0, s.setFile f { s.file f with flags })
      | .other => (-1, s)

/-- The part of `sys_pipe` with two entries reserved. -/
def pipeFds (t : TaskNr) (f₀ f₁ : FileNr) (inode : Option ι) : ℤ × Files ι :=
  let giveBack (s : Files ι) := (s.setCount f₀ 0).setCount f₁ 0
  match (List.finRange NR_OPEN).filter fun fd => ((s.task t).filp fd).isNone with
  | [] => (-1, giveBack s)
  | [fd₀] => (-1, giveBack ((s.setFilp t fd₀ (some f₀)).setFilp t fd₀ none))
  | fd₀ :: fd₁ :: _ =>
      let s := (s.setFilp t fd₀ (some f₀)).setFilp t fd₁ (some f₁)
      match inode with
      | none => (-1, giveBack ((s.setFilp t fd₀ none).setFilp t fd₁ none))
      | some inode =>
          let s := s.store f₀ { s.file f₀ with inode := some inode, pos := 0, mode := 1 }
          let s := s.store f₁ { s.file f₁ with inode := some inode, pos := 0, mode := 2 }
          (0, s)

/-- `sys_pipe`; `inode` is what `get_pipe_inode` returns. -/
def sysPipe (t : TaskNr) (inode : Option ι) : ℤ × Files ι :=
  match (List.finRange NR_FILE).filter fun f => (s.file f).count == 0 with
  | [] => (-1, s)
  | [f₀] => (-1, (s.setCount f₀ ((s.file f₀).count + 1)).setCount f₀ 0)
  | f₀ :: f₁ :: _ =>
      let s := s.setCount f₀ ((s.file f₀).count + 1)
      let s := s.setCount f₁ ((s.file f₁).count + 1)
      s.pipeFds t f₀ f₁ inode

/-- The loop of `copy_process` over the descriptors of the child. -/
def shareFiles (filp : Fd → Option FileNr) : List Fd → Files ι → Files ι
  | [], s => s
  | fd :: fds, s =>
      match filp fd with
      | none => shareFiles filp fds s
      | some f => shareFiles filp fds (s.setCount f ((s.file f).count + 1))

/-- `copy_process` with the slot that `find_empty_process` has found; `copied`
tells that `copy_mem` succeeds. -/
def copyProcess (t nr : TaskNr) (copied : Bool) : ℤ × Files ι :=
  let p := { s.task t with leader := false }
  let s' := s.setTask nr p
  if copied then (nr.val, shareFiles p.filp (List.finRange NR_OPEN) s')
  else (-EAGAIN, s'.setTask nr (s.task nr))

/-- The descriptors that `doomed` picks are closed. -/
def closeAll (doomed : Files ι → Fd → Bool) (t : TaskNr) :
    List Fd → Files ι → Except String (Files ι)
  | [], s => pure s
  | fd :: fds, s =>
      if doomed s fd then do
        let (_, s) ← s.closeFd t fd
        closeAll doomed t fds s
      else closeAll doomed t fds s

/-- The step of `do_execve` that closes files. -/
def execClose (t : TaskNr) : Except String (Files ι) := do
  let s ← closeAll (fun s fd => (s.task t).closeOnExec fd) t (List.finRange NR_OPEN) s
  pure (s.setTask t { s.task t with closeOnExec := fun _ => false })

/-- `do_exit` as far as files are concerned. -/
def doExit (t : TaskNr) : Except String (Files ι) := do
  let s ← closeAll (fun s fd => ((s.task t).filp fd).isSome) t (List.finRange NR_OPEN) s
  pure (s.setTask t { s.task t with live := false })

end Files

/-! ## Runs -/

inductive FileAction (ι : Type) where
  | open (flag : UInt16) (namei : Except ℤ (Opened ι))
  | close (fd : ℕ)
  | dup (fildes : ℕ)
  | dup2 (oldfd newfd : ℕ)
  | fcntl (fd : ℕ) (cmd : Files.FcntlCmd) (arg : ℕ)
  | pipe (inode : Option ι)
  | fork (nr : TaskNr) (copied : Bool)
  | exec
  | exit

namespace Files

variable {ι : Type}

/-- One system call of task `t`. -/
def call (s : Files ι) (t : TaskNr) : FileAction ι → Except String (Files ι)
  | .open flag namei => pure (s.sysOpen t flag namei).2
  | .close fd => (s.sysClose t fd).map Prod.snd
  | .dup fildes => pure (s.sysDup t fildes).2
  | .dup2 oldfd newfd => (s.sysDup2 t oldfd newfd).map Prod.snd
  | .fcntl fd cmd arg => pure (s.sysFcntl t fd cmd arg).2
  | .pipe inode => pure (s.sysPipe t inode).2
  | .fork nr copied => if (s.task nr).live then pure s else pure (s.copyProcess t nr copied).2
  | .exec => s.execClose t
  | .exit => s.doExit t

/-- The call of a task, if there is one in its slot.  After a panic nothing
happens any more. -/
def step (r : Except String (Files ι)) (a : TaskNr × FileAction ι) : Except String (Files ι) := do
  let s ← r
  if (s.task a.1).live then s.call a.1 a.2 else pure s

/-- No file is open; task 0 runs. -/
def init (ι : Type) : Files ι where
  file := fun _ => ⟨0, 0, 0, none, 0⟩
  task := fun t => ⟨t = 0, fun _ => none, fun _ => false, false, -1⟩
  given := fun _ => []
  put := fun _ => []

end Files

end MyJavaExample.Fs
