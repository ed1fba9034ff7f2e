import MyJavaExample.Mm.Shm

/-!
# The tasks and their address spaces

The system is the memory, the table of the tasks, the pages the kernel holds for
other purposes (buffers of pipes, pages that are being read, arguments of
`execve`) and the shared memory.  An action is one call of a function of the
memory management on behalf of a task.  A function that can sleep between two
changes of the memory is two actions, such as the allocation of a page for the
arguments of `execve` and its `put_page`.

A fault is for an address of the data segment, as the hardware checks.  An
action that the state does not admit, such as a fault of a task that does not
exist, changes nothing.
-/

namespace MyJavaExample.Mm

def NR_TASKS : ℕ := 64

/-- The size of the address space of a task. -/
def TASK_SIZE : ℕ := 0x4000000

structure Sys where
  mem : Memory
  task : ℕ → Option Task
  kernel : List ℕ
  shm : Shm

/-! ## `fork` -/

/-- `copy_mem`; the result `false` stands for `-ENOMEM`. -/
def copyMem (nr : ℕ) (current : Task) (m : Memory) : Except String (Bool × Memory) := do
  if current.dataLimit < current.codeLimit then .error "Bad data_limit"
  else
    let (ok, m) ← copyPageTables current.startCode (nr * TASK_SIZE) current.dataLimit m
    if ok then return (true, m)
    else
      let m ← freePageTables (nr * TASK_SIZE) current.dataLimit m
      return (false, m)

/-- The memory of `copy_process`; nothing changes when it returns `-EAGAIN`. -/
def copyProcess (nr : ℕ) (pid : ℤ) (current : Task) (s : Sys) : Except String Sys :=
  match getFreePage s.mem with
  | none => .ok s
  | some (p, m) => do
      let (ok, m) ← copyMem nr current m
      if ok then
        let child := { current with page := p, pid, startCode := nr * TASK_SIZE, zombie := false }
        return { s with mem := m, task := Function.update s.task nr (some child) }
      else
        let m ← freePage p m
        return { s with mem := m }

/-! ## `exit` and `execve` -/

/-- The two calls of `free_page_tables` in `do_exit` and `do_execve`. -/
def freeSegments (current : Task) (m : Memory) : Except String Memory := do
  let m ← freePageTables current.startCode current.codeLimit m
  freePageTables current.startCode current.dataLimit m

def doExit (nr : ℕ) (current : Task) (s : Sys) : Except String Sys := do
  let m ← freeSegments current s.mem
  let current := { current with executable := none, zombie := true }
  return { s with mem := m, task := Function.update s.task nr (some current) }

def release (nr : ℕ) (p : Task) (s : Sys) : Except String Sys := do
  let m ← freePage p.page s.mem
  return { s with mem := m, task := Function.update s.task nr none }

/-- `do_execve` from the point of no return on; the pages of the arguments are
put by actions of their own. -/
def doExecve (nr aText aData inode : ℕ) (current : Task) (s : Sys) : Except String Sys := do
  let m ← freeSegments current s.mem
  let current := { current with
    executable := some inode
    codeLimit := (aText + PAGE_SIZE - 1) / PAGE_SIZE * PAGE_SIZE
    dataLimit := TASK_SIZE
    endData := aText + aData }
  return { s with mem := m, task := Function.update s.task nr (some current) }

/-! ## Faults -/

/-- The loop of `share_page` over the tasks up to `n`, last one first. -/
def shareLoop (s : Sys) (nr : ℕ) (current : Task) (address : ℕ) : ℕ → Sharing
  | 0 => .notShared
  | n + 1 =>
      match s.task (n + 1) with
      | none => shareLoop s nr current address n
      | some p =>
          if n + 1 = nr ∨ p.executable ≠ current.executable then shareLoop s nr current address n
          else
            match tryToShare address p.startCode current.startCode s.mem with
            | .notShared => shareLoop s nr current address n
            | sharing => sharing

/-- `share_page`; `iCount` is the number of users of the executable. -/
def sharePage (s : Sys) (nr : ℕ) (current : Task) (iCount address : ℕ) : Sharing :=
  if current.executable = none ∨ iCount < 2 then .notShared
  else shareLoop s nr current address (NR_TASKS - 1)

/-- `do_no_page` for the address `x` of the segment.  `content` is what
`bread_page` reads for the page. -/
def doNoPage (s : Sys) (nr : ℕ) (current : Task) (iCount : ℕ) (content : ℕ → UInt8) (x : ℕ) :
    Outcome :=
  let tmp := x / PAGE_SIZE * PAGE_SIZE
  let address := current.startCode + tmp
  if current.executable = none ∨ tmp ≥ current.endData then getEmptyPage address s.mem
  else
    match sharePage s nr current iCount tmp with
    | .shared m => .done m
    | .oom => .oom s.mem
    | .panic message => .panic message
    | .notShared =>
        match getFreePage s.mem with
        | none => .oom s.mem
        | some (page, m) =>
            let filled := fun o => if tmp + o < current.endData then content o else 0
            let m := { m with bytes := Function.update m.bytes page filled }
            match putPage page address m with
            | some m => .done m
            | none => freeAndOom page m

/-! ## User-mode writes -/

/-- The entry for a linear address. -/
def Memory.lookup (m : Memory) (address : ℕ) : Option Entry :=
  let dir := m.pgDir (dirIndex address)
  let e := m.table dir.frame (tableIndex address)
  if dir.present ∧ e.present then some e else none

/-- The write itself, to a page that is present and writable. -/
def Memory.store (m : Memory) (address : ℕ) (v : UInt8) : Memory :=
  let t := (m.pgDir (dirIndex address)).frame
  let e := m.table t (tableIndex address)
  { m.setEntry t (tableIndex address) { e with dirty := true } with
    bytes := Function.update m.bytes e.frame
      (Function.update (m.bytes e.frame) (address % PAGE_SIZE) v) }

/-- The write when the page is present: a page that is not writable faults. -/
def storePresent (address : ℕ) (v : UInt8) (m : Memory) : Outcome :=
  match m.lookup address with
  -- not reached: the page is there
  | none => .oom m
  | some e =>
      if e.writable then .done (m.store address v)
      else
        match doWpPage address m with
        | none => .oom m
        | some m => .done (m.store address v)

/-- A write of a task to the address `x` of its segment, with the faults it
causes. -/
def userWrite (s : Sys) (nr : ℕ) (current : Task) (iCount : ℕ) (content : ℕ → UInt8) (x : ℕ)
    (v : UInt8) : Outcome :=
  if (s.mem.lookup (current.startCode + x)).isSome then
    storePresent (current.startCode + x) v s.mem
  else
    match doNoPage s nr current iCount content x with
    | .done m => storePresent (current.startCode + x) v m
    | outcome => outcome

/-! ## Actions -/

inductive Action where
  /-- `get_free_page` for the kernel itself. -/
  | allocate
  /-- `free_page` of a page the kernel holds. -/
  | free (page : ℕ)
  /-- The kernel writes to a page it holds. -/
  | fill (page : ℕ) (content : ℕ → UInt8)
  /-- `put_page` of a page the kernel holds, at an address without a page. -/
  | put (nr page x : ℕ)
  | getEmptyPage (nr x : ℕ)
  | tryToShare (nr p x : ℕ)
  | doNoPage (nr iCount : ℕ) (content : ℕ → UInt8) (x : ℕ)
  | doWpPage (nr x : ℕ)
  | writeVerify (nr x : ℕ)
  | write (nr iCount : ℕ) (content : ℕ → UInt8) (x : ℕ) (v : UInt8)
  | fork (nr child : ℕ) (pid : ℤ)
  | exit (nr : ℕ)
  | release (nr : ℕ)
  | execve (nr aText aData inode : ℕ)
  | shmget (nr : ℕ) (key : ℤ) (size : ℕ)
  | shmat (nr : ℕ) (shmid : ℤ)

namespace Sys

/-- A user task that has not exited. -/
def live (s : Sys) (nr : ℕ) : Option Task :=
  (s.task nr).bind fun t => if 1 ≤ nr ∧ ¬t.zombie then some t else none

/-- After a function that can run out of memory the task exits. -/
def settle (s : Sys) (nr : ℕ) (current : Task) : Outcome → Except String Sys
  | .done m => .ok { s with mem := m }
  | .oom m => doExit nr current { s with mem := m }
  | .panic message => .error message

/-- The task faults at an address of its segment without a page. -/
def absent (s : Sys) (current : Task) (x : ℕ) : Prop :=
  x < current.dataLimit ∧ s.mem.lookup (current.startCode + x) = none

instance (s : Sys) (current : Task) (x : ℕ) : Decidable (s.absent current x) :=
  inferInstanceAs (Decidable (_ ∧ _))

def exec (s : Sys) : Action → Except String Sys
  | .allocate =>
      match Mm.getFreePage s.mem with
      | none => .ok s
      | some (p, m) => .ok { s with mem := m, kernel := p :: s.kernel }
  | .free page =>
      if page ∈ s.kernel then do
        let m ← freePage page s.mem
        return { s with mem := m, kernel := s.kernel.erase page }
      else .ok s
  | .fill page content =>
      if page ∈ s.kernel then
        .ok { s with mem := { s.mem with bytes := Function.update s.mem.bytes page content } }
      else .ok s
  | .put nr page x =>
      match s.live nr with
      | none => .ok s
      | some current =>
          if page ∈ s.kernel ∧ s.absent current x then
            match putPage page (current.startCode + x) s.mem with
            | none => .ok s
            | some m => .ok { s with mem := m, kernel := s.kernel.erase page }
          else .ok s
  | .getEmptyPage nr x =>
      match s.live nr with
      | none => .ok s
      | some current =>
          if s.absent current x then
            s.settle nr current (Mm.getEmptyPage (current.startCode + x) s.mem)
          else .ok s
  | .tryToShare nr p x =>
      match s.live nr, s.live p with
      | some current, some source =>
          if nr ≠ p ∧ s.absent current x then
            match Mm.tryToShare x source.startCode current.startCode s.mem with
            | .shared m => .ok { s with mem := m }
            | .notShared => .ok s
            | .oom => doExit nr current s
            | .panic message => .error message
          else .ok s
      | _, _ => .ok s
  | .doNoPage nr iCount content x =>
      match s.live nr with
      | none => .ok s
      | some current =>
          if s.absent current x then
            s.settle nr current (Mm.doNoPage s nr current iCount content x)
          else .ok s
  | .doWpPage nr x =>
      match s.live nr with
      | none => .ok s
      | some current =>
          if x < current.dataLimit ∧ s.mem.lookup (current.startCode + x) ≠ none then
            match Mm.doWpPage (current.startCode + x) s.mem with
            | none => doExit nr current s
            | some m => .ok { s with mem := m }
          else .ok s
  | .writeVerify nr x =>
      match s.live nr with
      | none => .ok s
      | some current =>
          if x < current.dataLimit then
            match Mm.writeVerify (current.startCode + x) s.mem with
            | none => doExit nr current s
            | some m => .ok { s with mem := m }
          else .ok s
  | .write nr iCount content x v =>
      match s.live nr with
      | none => .ok s
      | some current =>
          if x < current.dataLimit then
            s.settle nr current (userWrite s nr current iCount content x v)
          else .ok s
  | .fork nr child pid =>
      match s.task nr with
      | none => .ok s
      | some current =>
          if ¬current.zombie ∧ 1 ≤ child ∧ child < NR_TASKS ∧ s.task child = none then
            copyProcess child pid current s
          else .ok s
  | .exit nr =>
      match s.live nr with
      | none => .ok s
      | some current => doExit nr current s
  | .release nr =>
      match s.task nr with
      | none => .ok s
      | some p => if 1 ≤ nr ∧ p.zombie then Mm.release nr p s else .ok s
  | .execve nr aText aData inode =>
      match s.live nr with
      | none => .ok s
      | some current =>
          -- larger programs are refused
          if aText + aData ≤ 0x3000000 then doExecve nr aText aData inode current s else .ok s
  | .shmget nr key size =>
      match s.live nr with
      | none => .ok s
      | some current =>
          let r := sysShmget key size current s.mem s.shm
          .ok { s with mem := r.mem, shm := r.shm, task := Function.update s.task nr (some r.current) }
  | .shmat _ shmid => .ok { s with shm := (sysShmat shmid s.shm).2 }

/-- The actions one after the other; an error is a panic. -/
def run (as : List Action) (s : Sys) : Except String Sys := as.foldlM exec s

end Sys

/-! ## Boot -/

/-- The memory after `setup_paging` and `mem_init`, for `start` and `high` as
the first page and the end of the free memory. -/
def Memory.boot (start high : ℕ) : Memory where
  memMap := fun p => if start ≤ p ∧ p < high then 0 else USED
  highMemory := high
  pgDir := fun d => if d < 4 then .user (d + 1) else .zero
  table := fun t i => if 1 ≤ t ∧ t ≤ 4 then .user ((t - 1) * 1024 + i) else .zero
  bytes := fun _ _ => 0

/-- `INIT_TASK`. -/
def initTask : Task where
  page := 0
  pid := 0
  startCode := 0
  codeLimit := 0xA0000
  dataLimit := 0xA0000
  endData := 0
  executable := none
  shareMemoryNum := 0
  zombie := false

def Sys.boot (start high : ℕ) : Sys where
  mem := .boot start high
  task := fun nr => if nr = 0 then some initTask else none
  kernel := []
  shm := .zero

end MyJavaExample.Mm
