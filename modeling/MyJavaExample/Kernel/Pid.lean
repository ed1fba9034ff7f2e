import Mathlib.Data.Fintype.Card
import MyJavaExample.Kernel.WaitQueue
import MyJavaExample.Lib.Fresh
import MyJavaExample.Lib.Int32

/-!
# Process numbers: `find_empty_process` of `kernel/fork.c`

A new process gets the next number that no task in the table has.  After the
largest `long` the numbers start again at one, so a number can be taken again
when the counter comes back to it.  The search ends because there are fewer
tasks than numbers, and it never gives zero, the number of the idle task.

A number is in use until its task is released: also a zombie holds its own.
-/

namespace MyJavaExample.Kernel

open Lib

def EAGAIN : ℤ := 11

/-- The fields of `struct task_struct` that tell the processes apart. -/
structure Proc where
  pid : ℤ
  father : ℤ
  pgrp : ℤ
  state : TaskState
deriving DecidableEq

/-- The table `task` and the counter `last_pid`. -/
structure ProcTable where
  task : Task → Option Proc
  lastPid : ℤ

/-- The slots that a process can get: all but the first one. -/
def userSlots : List Task := (List.finRange NR_TASKS).tail

/-- `if ((++last_pid)<0) last_pid=1` -/
def nextPid (lastPid : ℤ) : ℤ :=
  let lastPid := toInt32 (lastPid + 1)
  if lastPid < 0 then 1 else lastPid

namespace ProcTable

variable (s : ProcTable)

/-- Some task has the number. -/
def pidInUse (pid : ℤ) : Bool :=
  (List.finRange NR_TASKS).any fun i => (s.task i).any fun p => p.pid == pid

/-- `find_empty_process`; none if `fuel` numbers are too few to find a free one. -/
def findEmptyProcess (fuel : ℕ) : Option (ProcTable × ℤ) :=
  (searchFrom nextPid s.pidInUse fuel s.lastPid).map fun pid =>
    ({ s with lastPid := pid },
      match userSlots.find? fun i => (s.task i).isNone with
      | some i => i.val
      | none => -EAGAIN)

def setTask (i : Task) (p : Option Proc) : ProcTable :=
  { s with task := Function.update s.task i p }

/-- `copy_process`: `page` says that there is a page for the task structure, and
`copied` that `copy_mem` succeeds. -/
def copyProcess (nr : Task) (current : Proc) (page copied : Bool) : ProcTable × ℤ :=
  if page = false then (s, -EAGAIN)
  else
    let p := { current with
      state := .uninterruptible, pid := s.lastPid, father := current.pid }
    let s := s.setTask nr (some p)
    if copied = false then (s.setTask nr none, -EAGAIN)
    else (s.setTask nr (some { p with state := .running }), s.lastPid)

/-- `sys_fork` of `system_call.s`.  A negative slot number is returned at once. -/
def sysFork (current : Proc) (page copied : Bool) : ProcTable × ℤ :=
  match s.findEmptyProcess NR_TASKS with
  | none => (s, -EAGAIN)
  | some (s, nr) =>
      if h : 0 ≤ nr ∧ nr.toNat < NR_TASKS then
        s.copyProcess ⟨nr.toNat, h.2⟩ current page copied
      else (s, nr)

/-- `release`; the idle task is not found, and the kernel stops. -/
def release (i : Task) : ProcTable :=
  if i ∈ userSlots then s.setTask i none else s

/-- `tell_father`: a task without a father is released at once. -/
def tellFather (current : Task) (father : ℤ) : ProcTable :=
  if father ≠ 0 ∧ s.pidInUse father then s else s.release current

/-- A child of the task with the number goes to the first process. -/
def adopt (pid : ℤ) (p : Proc) : Proc := if p.father = pid then { p with father := 1 } else p

/-- `do_exit`: the task stays in the table as a zombie. -/
def doExit (current : Task) : ProcTable :=
  match s.task current with
  | none => s
  | some p =>
      let zombie := { adopt p.pid p with state := .zombie }
      let adopted := fun i => (s.task i).map (adopt p.pid)
      { s with task := Function.update adopted current (some zombie) }.tellFather current
        zombie.father

/-- The children that `sys_waitpid` looks at. -/
def waitsFor (pid : ℤ) (parent child : Proc) : Bool :=
  child.father == parent.pid &&
    if 0 < pid then child.pid == pid
    else if pid = 0 then child.pgrp == parent.pgrp
    else if pid ≠ -1 then child.pgrp == -pid
    else true

/-- The states that end the search of `sys_waitpid`. -/
def reported (untraced : Bool) : TaskState → Bool
  | .stopped => untraced
  | .zombie => true
  | _ => false

/-- One search of `sys_waitpid` through the table, from the last slot.  A zombie
is released; if no child is reported the call fails, returns zero or sleeps. -/
def sysWaitpid (current : Task) (parent : Proc) (pid : ℤ) (untraced : Bool) :
    ProcTable × Option ℤ :=
  let found := userSlots.reverse.find? fun i =>
    (s.task i).any fun p => i != current && waitsFor pid parent p && reported untraced p.state
  match found with
  | none => (s, none)
  | some i =>
      match s.task i with
      | none => (s, none)
      | some p => (if p.state = .zombie then s.release i else s, some p.pid)

end ProcTable

/-- The calls of the processes.  `change` stands for the code that sets the
state and the process group of a task. -/
inductive ProcAct where
  | fork (current : Task) (page copied : Bool)
  | exit (current : Task)
  | waitpid (current : Task) (pid : ℤ) (untraced : Bool)
  | change (t : Task) (state : TaskState) (pgrp : ℤ)

namespace ProcTable

/-- A call is made by a task that runs. -/
def next (s : ProcTable) : ProcAct → ProcTable
  | .fork current page copied =>
      match s.task current with
      | some p => if p.state = .running then (s.sysFork p page copied).1 else s
      | none => s
  | .exit current =>
      match s.task current with
      | some p => if p.state = .running then s.doExit current else s
      | none => s
  | .waitpid current pid untraced =>
      match s.task current with
      | some p => if p.state = .running then (s.sysWaitpid current p pid untraced).1 else s
      | none => s
  | .change t state pgrp =>
      s.setTask t ((s.task t).map fun p => { p with state := state, pgrp := pgrp })

/-- The number of the task in a slot. -/
def pidAt (s : ProcTable) (i : Task) : Option ℤ := (s.task i).map Proc.pid

/-- No two tasks have the same number. -/
def Distinct (s : ProcTable) : Prop :=
  ∀ i j pid, s.pidAt i = some pid → s.pidAt j = some pid → i = j

/-- The idle task has the number zero, and the counter is no negative `long`. -/
structure Booted (s : ProcTable) : Prop where
  idle : s.pidAt 0 = some 0
  nonneg : 0 ≤ s.lastPid
  lt : s.lastPid < 2 ^ 31

/-- The call gave the first empty slot, or there is none. -/
def Slot (s : ProcTable) (r : ℤ) : Prop :=
  (∃ i : Task, i ≠ 0 ∧ s.task i = none ∧ r = i.val) ∨
    (r = -EAGAIN ∧ ∀ i : Task, i ≠ 0 → (s.task i).isSome)

/-- The number that the search left is new. -/
structure Fresh (s s' : ProcTable) : Prop where
  task : s'.task = s.task
  pos : 0 < s'.lastPid
  lt : s'.lastPid < 2 ^ 31
  unused : ∀ i, s.pidAt i ≠ some s'.lastPid

section

variable {s s' s₀ : ProcTable} {pid : ℤ} {i j : Task} {p : Proc}

theorem pidInUse_eq_false : s.pidInUse pid = false ↔ ∀ i, s.pidAt i ≠ some pid := by
  unfold pidInUse pidAt
  rw [List.any_eq_false]
  refine forall_congr' fun i => ?_
  cases s.task i with
  | none => simp
  | some p => simp

/-! ## The search -/

theorem nextPid_eq (h : 0 ≤ pid) (hlt : pid < 2 ^ 31) : nextPid pid = pid % (2 ^ 31 - 1) + 1 := by
  unfold nextPid toInt32
  dsimp only
  split <;> omega

/-- The candidates of a search. -/
theorem nextPid_iterate (h : 0 ≤ pid) (hlt : pid < 2 ^ 31) (k : ℕ) :
    nextPid^[k + 1] pid = (pid + k) % (2 ^ 31 - 1) + 1 := by
  induction k with
  | zero => rw [Function.iterate_one, nextPid_eq h hlt, Nat.cast_zero, add_zero]
  | succ k ih =>
      rw [Function.iterate_succ_apply', ih, nextPid_eq (by omega) (by omega)]
      omega

theorem nextPid_range (h : 0 ≤ pid ∧ pid < 2 ^ 31) : 0 ≤ nextPid pid ∧ nextPid pid < 2 ^ 31 := by
  rw [nextPid_eq h.1 h.2]
  omega

/-- Fewer numbers are in use than there are tasks, without the one of the idle
task. -/
theorem exists_free (h : s.Booted) :
    ∃ k < NR_TASKS, s.pidInUse (nextPid^[k + 1] s.lastPid) = false := by
  let used := (Finset.univ.erase (0 : Task)).image fun i => (s.pidAt i).getD 0
  have hcard : used.card < NR_TASKS := by
    refine Finset.card_image_le.trans_lt ?_
    rw [Finset.card_erase_of_mem (Finset.mem_univ _), Finset.card_univ, Fintype.card_fin]
    decide
  obtain ⟨k, hk, hfree⟩ := exists_unused (x := s.lastPid) (fun a ha b hb heq => by
    rw [nextPid_iterate h.nonneg h.lt, nextPid_iterate h.nonneg h.lt] at heq
    unfold NR_TASKS at ha hb
    omega) hcard
  refine ⟨k, hk, pidInUse_eq_false.2 fun i hi => hfree ?_⟩
  have hne : i ≠ 0 := by
    rintro rfl
    rw [h.idle, Option.some_inj, nextPid_iterate h.nonneg h.lt] at hi
    omega
  refine Finset.mem_image.2 ⟨i, Finset.mem_erase.2 ⟨hne, Finset.mem_univ _⟩, ?_⟩
  rw [hi]
  rfl

theorem mem_userSlots : i ∈ userSlots ↔ i ≠ 0 := by
  revert i
  decide

theorem slot_find :
    s.Slot (match userSlots.find? fun i => (s.task i).isNone with
      | some i => i.val
      | none => -EAGAIN) := by
  split
  next i hi =>
    have hnone := List.find?_some hi
    exact .inl ⟨i, mem_userSlots.1 (List.mem_of_find?_eq_some hi), Option.isNone_iff_eq_none.1 hnone,
      rfl⟩
  next hi =>
    refine .inr ⟨rfl, fun i hne => ?_⟩
    have hsome := List.find?_eq_none.1 hi i (mem_userSlots.2 hne)
    rwa [Bool.not_eq_true, Option.isNone_eq_false_iff] at hsome

/-- Enough fuel is one for each task. -/
theorem findEmptyProcess_fresh (h : s.Booted) :
    ∃ s' r, (∀ fuel, NR_TASKS ≤ fuel → s.findEmptyProcess fuel = some (s', r)) ∧ s.Fresh s' ∧
      s.Slot r := by
  obtain ⟨pid, hpid⟩ := Option.isSome_iff_exists.1 (searchFrom_isSome (exists_free h))
  have hunused := pidInUse_eq_false.1 (searchFrom_unused hpid)
  obtain ⟨hnonneg, hlt⟩ :=
    searchFrom_of_step (P := fun pid => 0 ≤ pid ∧ pid < 2 ^ 31) (fun _ => nextPid_range)
      ⟨h.nonneg, h.lt⟩ hpid
  have hne : pid ≠ 0 := by
    rintro rfl
    exact hunused 0 h.idle
  refine ⟨{ s with lastPid := pid }, _, fun fuel hfuel => ?_, ?_, slot_find⟩
  · unfold findEmptyProcess
    rw [searchFrom_of_le hfuel hpid]
    rfl
  · exact ⟨rfl, lt_of_le_of_ne hnonneg hne.symm, hlt, hunused⟩

/-! ## The table over the calls -/

/-- No task is new, and the idle task and the counter stay. -/
structure Keeps (s s' : ProcTable) : Prop where
  pidAt : ∀ i pid, s'.pidAt i = some pid → s.pidAt i = some pid
  idle : s'.pidAt 0 = s.pidAt 0
  lastPid : s'.lastPid = s.lastPid

theorem Keeps.of_pidAt (h : ∀ i, s'.pidAt i = s.pidAt i) (hlast : s'.lastPid = s.lastPid) :
    Keeps s s' :=
  ⟨fun i _ hi => (h i).symm.trans hi, h 0, hlast⟩

theorem Keeps.trans (h : Keeps s₀ s) (h' : Keeps s s') : Keeps s₀ s' :=
  ⟨fun i pid hi => h.pidAt i pid (h'.pidAt i pid hi), h'.idle.trans h.idle,
    h'.lastPid.trans h.lastPid⟩

theorem Keeps.booted (h : Keeps s s') (hs : s.Booted) : s'.Booted :=
  ⟨h.idle.trans hs.idle, h.lastPid ▸ hs.nonneg, h.lastPid ▸ hs.lt⟩

theorem Keeps.distinct (h : Keeps s s') (hs : s.Distinct) : s'.Distinct :=
  fun i j pid hi hj => hs i j pid (h.pidAt i pid hi) (h.pidAt j pid hj)

theorem pidAt_setTask_self (i : Task) (p : Option Proc) :
    (s.setTask i p).pidAt i = p.map Proc.pid := by
  unfold pidAt setTask
  dsimp only
  rw [Function.update_self]

theorem pidAt_setTask_of_ne (hne : j ≠ i) (p : Option Proc) :
    (s.setTask i p).pidAt j = s.pidAt j := by
  unfold pidAt setTask
  dsimp only
  rw [Function.update_of_ne hne]

theorem keeps_setTask_none (hne : i ≠ 0) : Keeps s (s.setTask i none) := by
  refine ⟨fun j pid hj => ?_, pidAt_setTask_of_ne hne.symm none, rfl⟩
  by_cases hij : j = i
  · subst hij
    rw [pidAt_setTask_self] at hj
    cases hj
  · rwa [pidAt_setTask_of_ne hij] at hj

theorem keeps_release (s : ProcTable) (i : Task) : Keeps s (s.release i) := by
  unfold release
  split
  next hi => exact keeps_setTask_none (mem_userSlots.1 hi)
  next => exact .of_pidAt (fun _ => rfl) rfl

theorem keeps_tellFather (s : ProcTable) (i : Task) (father : ℤ) :
    Keeps s (s.tellFather i father) := by
  unfold tellFather
  split
  next => exact .of_pidAt (fun _ => rfl) rfl
  next => exact keeps_release s i

theorem adopt_pid (pid : ℤ) (p : Proc) : (adopt pid p).pid = p.pid := by
  unfold adopt
  split <;> rfl

theorem keeps_doExit (s : ProcTable) (i : Task) : Keeps s (s.doExit i) := by
  unfold doExit
  split
  next => exact .of_pidAt (fun _ => rfl) rfl
  next p hp =>
    dsimp only
    refine Keeps.trans ?_ (keeps_tellFather _ i _)
    refine .of_pidAt (fun j => ?_) rfl
    unfold pidAt
    dsimp only
    by_cases hij : j = i
    · subst hij
      rw [Function.update_self, hp]
      exact congrArg some (adopt_pid p.pid p)
    · rw [Function.update_of_ne hij, Option.map_map]
      exact congrArg (fun f => (s.task j).map f) (funext (adopt_pid p.pid))

theorem keeps_sysWaitpid (s : ProcTable) (i : Task) (p : Proc) (pid : ℤ) (untraced : Bool) :
    Keeps s (s.sysWaitpid i p pid untraced).1 := by
  unfold sysWaitpid
  dsimp only
  split
  next => exact .of_pidAt (fun _ => rfl) rfl
  next =>
    split
    next => exact .of_pidAt (fun _ => rfl) rfl
    next =>
      dsimp only
      split
      next => exact keeps_release s _
      next => exact .of_pidAt (fun _ => rfl) rfl

theorem keeps_change (s : ProcTable) (i : Task) (state : TaskState) (pgrp : ℤ) :
    Keeps s (s.next (.change i state pgrp)) := by
  refine .of_pidAt (fun j => ?_) rfl
  by_cases hij : j = i
  · subst hij
    refine (pidAt_setTask_self ..).trans ?_
    rw [Option.map_map]
    rfl
  · exact pidAt_setTask_of_ne hij _

/-- A new task takes the number that the search left. -/
theorem distinct_setTask (hs : s.Distinct) (hunused : ∀ j, s.pidAt j ≠ some p.pid) (i : Task) :
    (s.setTask i (some p)).Distinct := by
  intro j k pid hj hk
  by_cases hji : j = i
  · subst hji
    rw [pidAt_setTask_self] at hj
    cases hj
    by_cases hki : k = j
    · exact hki.symm
    · rw [pidAt_setTask_of_ne hki] at hk
      exact absurd hk (hunused k)
  · rw [pidAt_setTask_of_ne hji] at hj
    by_cases hki : k = i
    · subst hki
      rw [pidAt_setTask_self] at hk
      cases hk
      exact absurd hj (hunused j)
    · rw [pidAt_setTask_of_ne hki] at hk
      exact hs j k pid hj hk

/-- The tables that the calls keep. -/
def Valid (s : ProcTable) : Prop := s.Booted ∧ s.Distinct

theorem Keeps.valid (h : Keeps s s') (hs : s.Valid) : s'.Valid := ⟨h.booted hs.1, h.distinct hs.2⟩

theorem setTask_setTask (i : Task) (p q : Option Proc) :
    (s.setTask i p).setTask i q = s.setTask i q := by
  unfold setTask
  rw [Function.update_idem]

theorem valid_copyProcess (hs : s.Valid) (hunused : ∀ j, s.pidAt j ≠ some s.lastPid)
    (hne : i ≠ 0) (p : Proc) (page copied : Bool) :
    (s.copyProcess i p page copied).1.Valid := by
  unfold copyProcess
  split
  next => exact hs
  next =>
    dsimp only
    split
    next =>
      rw [setTask_setTask]
      exact (keeps_setTask_none hne).valid hs
    next =>
      rw [setTask_setTask]
      refine ⟨⟨?_, hs.1.nonneg, hs.1.lt⟩, distinct_setTask hs.2 hunused i⟩
      rw [pidAt_setTask_of_ne hne.symm]
      exact hs.1.idle

theorem valid_sysFork (hs : s.Valid) (p : Proc) (page copied : Bool) :
    (s.sysFork p page copied).1.Valid := by
  obtain ⟨s', r, hfind, hfresh, hslot⟩ := findEmptyProcess_fresh hs.1
  have hpid (i : Task) : s'.pidAt i = s.pidAt i := by
    unfold pidAt
    rw [hfresh.task]
  have hs' : s'.Valid := by
    refine ⟨⟨(hpid 0).trans hs.1.idle, hfresh.pos.le, hfresh.lt⟩, fun i j pid hi hj => ?_⟩
    rw [hpid] at hi hj
    exact hs.2 i j pid hi hj
  unfold sysFork
  rw [hfind NR_TASKS le_rfl]
  dsimp only
  split
  next hr =>
    refine valid_copyProcess hs' (fun i => (hpid i).symm ▸ hfresh.unused i) ?_ p page copied
    obtain ⟨i, hne, -, rfl⟩ | ⟨rfl, -⟩ := hslot
    · exact fun heq => hne heq
    · exact absurd hr.1 (by decide)
  next => exact hs'

/-- One call. -/
theorem valid_next (hs : s.Valid) (a : ProcAct) : (s.next a).Valid := by
  cases a with
  | fork current page copied =>
      dsimp only [next]
      split
      next p _ =>
        split
        next => exact valid_sysFork hs p page copied
        next => exact hs
      next => exact hs
  | exit current =>
      dsimp only [next]
      split
      next =>
        split
        next => exact (keeps_doExit s current).valid hs
        next => exact hs
      next => exact hs
  | waitpid current pid untraced =>
      dsimp only [next]
      split
      next p _ =>
        split
        next => exact (keeps_sysWaitpid s current p pid untraced).valid hs
        next => exact hs
      next => exact hs
  | change t state pgrp => exact (keeps_change s t state pgrp).valid hs

/-- The search ends with a number that no task has, and so over every run of
calls no two tasks have the same number. -/
theorem pids_fresh (h : s.Booted) :
    (∃ s' r, (∀ fuel, NR_TASKS ≤ fuel → s.findEmptyProcess fuel = some (s', r)) ∧ s.Fresh s' ∧
      s.Slot r) ∧
    (s.Distinct → ∀ as, Always next Distinct s as) :=
  ⟨findEmptyProcess_fresh h, fun hdistinct _ =>
    .of_invariant (I := Valid) (fun _ hs => hs.2) (fun _ a hs => valid_next hs a) ⟨h, hdistinct⟩⟩

end

/-- The table at boot: only the idle task. -/
def boot : ProcTable where
  task i := if i.val = 0 then some { pid := 0, father := -1, pgrp := 0, state := .running } else none
  lastPid := 0

theorem distinct_boot : boot.Distinct := by
  have hidle (i : Task) (pid : ℤ) (h : boot.pidAt i = some pid) : i = 0 := by
    by_contra hne
    have hnone : boot.task i = none := if_neg fun hzero => hne (Fin.ext hzero)
    rw [pidAt, hnone] at h
    cases h
  intro i j pid hi hj
  rw [hidle i pid hi, hidle j pid hj]

theorem pids_fresh_boot :
    (∃ s' r, (∀ fuel, NR_TASKS ≤ fuel → boot.findEmptyProcess fuel = some (s', r)) ∧
      boot.Fresh s' ∧ boot.Slot r) ∧
    ∀ as, Always next Distinct boot as := by
  obtain ⟨hfind, hruns⟩ := pids_fresh (s := boot) ⟨rfl, by decide, by decide⟩
  exact ⟨hfind, hruns distinct_boot⟩

end ProcTable

end MyJavaExample.Kernel
