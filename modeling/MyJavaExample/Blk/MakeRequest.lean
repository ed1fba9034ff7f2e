import Mathlib.Tactic.Simps.Basic
import MyJavaExample.Blk.Request

/-!
# The requests of all devices: `ll_rw_block`, `make_request`, `end_request`

The array `request` is shared by the devices, and each device has the list of
its own requests in it.  A call may sleep twice: in `lock_buffer` until the
buffer is free, and in `make_request` until an element of the array is free.  A
task that sleeps may go on at any time; it then looks again.

A request is worked on by the driver: each `transfer` moves a sector between the
disk and the buffer, and `end_request` completes the first request of the list.
The cache takes a buffer for another block, changes a buffer, fills a new one or
forgets one, under the conditions of `getblk`, of the callers of `bread`, of
`new_block` and of `free_block`.

Memory is counted in sectors.  The disks of different device numbers are
different ones.
-/

namespace MyJavaExample.Blk

def READA : ℤ := 2

def WRITEA : ℤ := 3

def NR_BLK_DEV : ℕ := 7

abbrev NR_TASKS : ℕ := 64

/-- `MAJOR`. -/
def MAJOR (dev : ℤ) : ℕ := (dev % 2 ^ 32).toNat / 256

/-- `struct buffer_head`, without its count and its links. -/
structure BufferHead where
  dev : ℕ
  blocknr : ℕ
  uptodate : Bool
  dirt : Bool
  lock : Bool

/-- An element of the array `request`. -/
structure Slot (n : ℕ) extends Request where
  bh : Option (Fin n)

/-- A request after a sector of it was moved. -/
def Slot.moved {n : ℕ} (r : Slot n) : Slot n :=
  { r with sector := r.sector + 1, nrSectors := r.nrSectors - 1, buffer := r.buffer + 1 }

structure BlkDev where
  /-- There is a `request_fn`. -/
  requestFn : Bool
  /-- `current_request`. -/
  current : Option ℕ

/-- A call of `make_request`, where `rw` is without the read ahead. -/
structure Call (n : ℕ) where
  major : ℕ
  ahead : Bool
  rw : ℤ
  bh : Fin n

inductive TaskState (n : ℕ) where
  /-- Not in `make_request`. -/
  | running
  /-- Asleep in `lock_buffer`. -/
  | locking (c : Call n)
  /-- The task has the lock of the buffer and sleeps on `wait_for_request`. -/
  | locked (c : Call n)

/-- What the kernel prints. -/
inductive Printk where
  /-- `ll_rw_block.c: buffer not locked` -/
  | notLocked
  /-- `free buffer being unlocked` -/
  | freeBuffer (name : String)
  /-- `I/O error`, with the device and the block. -/
  | ioError (name : String) (dev : ℤ) (block : ℕ)
  /-- `Trying to read nonexistent block-device` -/
  | nonexistent
deriving DecidableEq

/-- `DEVICE_NAME` -/
def deviceName : ℕ → String
  | 1 => "ramdisk"
  | 2 => "floppy"
  | _ => "harddisk"

def badCommand : String := "Bad block dev command, must be R/W/RA/WA"

/-- `b_data` -/
def bData {n : ℕ} (bh : Fin n) : ℕ := 2 * bh

structure Devices (σ : Type) (n : ℕ) where
  request : ℕ → Slot n
  next : ℕ → Option ℕ
  blkDev : ℕ → BlkDev
  buffer : Fin n → BufferHead
  task : Fin NR_TASKS → TaskState n
  core : ℕ → σ
  disk : ℤ → ℕ → σ
  printed : List Printk

namespace Devices

variable {σ : Type} {n : ℕ}

@[simps]
def modify (bh : Fin n) (f : BufferHead → BufferHead) (s : Devices σ n) : Devices σ n :=
  { s with buffer := Function.update s.buffer bh (f (s.buffer bh)) }

@[simps]
def setTask (t : Fin NR_TASKS) (p : TaskState n) (s : Devices σ n) : Devices σ n :=
  { s with task := Function.update s.task t p }

@[simps]
def setRequest (req : ℕ) (r : Slot n) (s : Devices σ n) : Devices σ n :=
  { s with request := Function.update s.request req r }

@[simps]
def setCurrent (major : ℕ) (req : Option ℕ) (s : Devices σ n) : Devices σ n :=
  { s with blkDev := Function.update s.blkDev major { s.blkDev major with current := req } }

@[simps]
def setCore (x : ℕ) (v : σ) (s : Devices σ n) : Devices σ n :=
  { s with core := Function.update s.core x v }

@[simps]
def setDisk (dev : ℤ) (sector : ℕ) (v : σ) (s : Devices σ n) : Devices σ n :=
  { s with disk := Function.update s.disk dev (Function.update (s.disk dev) sector v) }

@[simps]
def printk (p : Printk) (s : Devices σ n) : Devices σ n :=
  { s with printed := s.printed ++ [p] }

/-! ## `ll_rw_blk.c` -/

/-- `unlock_buffer`, with the message of the file it is in. -/
def unlockBuffer (p : Printk) (bh : Fin n) (s : Devices σ n) : Devices σ n :=
  (if (s.buffer bh).lock then s else s.printk p).modify bh fun h => { h with lock := false }

/-- `INIT_REQUEST`, with which each `request_fn` begins. -/
def initRequest (major : ℕ) (s : Devices σ n) : Except String (Devices σ n) :=
  match (s.blkDev major).current with
  | none => .ok s
  | some cur =>
      if MAJOR (s.request cur).dev ≠ major then
        .error (deviceName major ++ ": request list destroyed")
      else
        match (s.request cur).bh with
        | none => .ok s
        | some bh =>
            if (s.buffer bh).lock then .ok s else .error (deviceName major ++ ": block not locked")

/-- `add_request` -/
def addRequest (major req : ℕ) (s : Devices σ n) : Except String (Devices σ n) :=
  let s := { s with next := Function.update s.next req none }
  let s :=
    match (s.request req).bh with
    | none => s
    | some bh => s.modify bh fun h => { h with dirt := false }
  match (s.blkDev major).current with
  | none => (s.setCurrent major (some req)).initRequest major
  | some tmp =>
      .ok { s with
        next := Queue.place (fun i => (s.request i).toRequest) s.next req NR_REQUEST tmp }

/-- The last of the first `k` elements of `request` that is empty. -/
def findRequest (request : ℕ → Slot n) : ℕ → Option ℕ
  | 0 => none
  | k + 1 => if (request k).dev < 0 then some k else findRequest request k

/-- The request for the buffer of the call. -/
def newRequest (c : Call n) (h : BufferHead) : Slot n where
  dev := h.dev
  cmd := c.rw
  errors := 0
  sector := h.blocknr * 2 % 2 ^ 32
  nrSectors := 2
  buffer := bData c.bh
  bh := some c.bh

/-- `make_request` from `repeat` on. -/
def repeatRequest (t : Fin NR_TASKS) (c : Call n) (s : Devices σ n) :
    Except String (Devices σ n) :=
  match findRequest s.request (if c.rw = READ then NR_REQUEST else NR_REQUEST * 2 / 3) with
  | none =>
      if c.ahead then .ok ((s.unlockBuffer .notLocked c.bh).setTask t .running) else .ok s
  | some req =>
      ((s.setRequest req (newRequest c (s.buffer c.bh))).setTask t .running).addRequest c.major req

/-- `make_request` from `lock_buffer` on. -/
def lockBuffer (t : Fin NR_TASKS) (c : Call n) (s : Devices σ n) : Except String (Devices σ n) :=
  if (s.buffer c.bh).lock then .ok (s.setTask t (.locking c))
  else
    let s := (s.modify c.bh fun h => { h with lock := true }).setTask t (.locked c)
    let h := s.buffer c.bh
    if (c.rw = WRITE ∧ h.dirt = false) ∨ (c.rw = READ ∧ h.uptodate = true) then
      .ok ((s.unlockBuffer .notLocked c.bh).setTask t .running)
    else s.repeatRequest t c

def makeRequest (t : Fin NR_TASKS) (major : ℕ) (rw : ℤ) (bh : Fin n) (s : Devices σ n) :
    Except String (Devices σ n) :=
  if rw = READA ∨ rw = WRITEA then
    if (s.buffer bh).lock then .ok s
    else s.lockBuffer t ⟨major, true, if rw = READA then READ else WRITE, bh⟩
  else if rw ≠ READ ∧ rw ≠ WRITE then .error badCommand
  else s.lockBuffer t ⟨major, false, rw, bh⟩

def llRwBlock (t : Fin NR_TASKS) (rw : ℤ) (bh : Fin n) (s : Devices σ n) :
    Except String (Devices σ n) :=
  let major := MAJOR (s.buffer bh).dev
  if NR_BLK_DEV ≤ major ∨ (s.blkDev major).requestFn = false then .ok (s.printk .nonexistent)
  else s.makeRequest t major rw bh

/-! ## The drivers -/

/-- The driver moves a sector of the current request. -/
def transfer (major : ℕ) (s : Devices σ n) : Devices σ n :=
  match (s.blkDev major).current with
  | none => s
  | some cur =>
      let r := s.request cur
      if r.nrSectors = 0 then s
      else
        let s := s.setRequest cur r.moved
        if r.cmd = READ then s.setCore r.buffer (s.disk r.dev r.sector)
        else s.setDisk r.dev r.sector (s.core r.buffer)

/-- `end_request` where `CURRENT` is `cur`. -/
def endRequest (major cur : ℕ) (uptodate : Bool) (s : Devices σ n) : Devices σ n :=
  let r := s.request cur
  let s :=
    match r.bh with
    | none => s
    | some bh =>
        let s := (s.modify bh fun h => { h with uptodate := uptodate }).unlockBuffer
          (.freeBuffer (deviceName major)) bh
        if uptodate then s
        else s.printk (.ioError (deviceName major) r.dev (s.buffer bh).blocknr)
  (s.setRequest cur { r with dev := -1 }).setCurrent major (s.next cur)

/-- The current request is completed, and the driver begins the next one.  It is
good only if all its sectors were moved. -/
def complete (major : ℕ) (uptodate : Bool) (s : Devices σ n) : Except String (Devices σ n) :=
  match (s.blkDev major).current with
  | none => .ok s
  | some cur =>
      if uptodate ∧ (s.request cur).nrSectors ≠ 0 then .ok s
      else (s.endRequest major cur uptodate).initRequest major

end Devices

/-! ## Runs -/

inductive DevAction (σ : Type) (n : ℕ) where
  /-- A task calls `ll_rw_block`. -/
  | llRwBlock (t : Fin NR_TASKS) (rw : ℤ) (bh : Fin n)
  /-- A task that slept goes on. -/
  | resume (t : Fin NR_TASKS)
  | transfer (major : ℕ)
  | complete (major : ℕ) (uptodate : Bool)
  /-- `getblk` takes the buffer for a block. -/
  | reuse (bh : Fin n) (dev block : ℕ)
  /-- A sector of a buffer that is up to date is changed. -/
  | store (bh : Fin n) (k : Fin 2) (v : σ)
  /-- `new_block` fills the buffer. -/
  | fill (bh : Fin n) (v : Fin 2 → σ)
  /-- `free_block` or `invalidate_buffers`. -/
  | forget (bh : Fin n)

namespace Devices

variable {σ : Type} {n : ℕ}

/-- The task sleeps in `lock_buffer` for the buffer. -/
def sleepsOn (s : Devices σ n) (bh : Fin n) (t : Fin NR_TASKS) : Bool :=
  match s.task t with
  | .locking c => c.bh = bh
  | _ => false

/-- When `getblk` takes the buffer: nobody uses it, it is clean, and there is no
other one for the block.  Block numbers are positions in a file by their size. -/
def Reusable (s : Devices σ n) (bh : Fin n) (dev block : ℕ) : Prop :=
  (s.buffer bh).lock = false ∧ (s.buffer bh).dirt = false ∧ (∀ t, s.sleepsOn bh t = false) ∧
    dev ≠ 0 ∧ dev < 2 ^ 16 ∧ block < 2 ^ 31 ∧
      ∀ b, ¬((s.buffer b).dev = dev ∧ (s.buffer b).blocknr = block)

instance (s : Devices σ n) (bh : Fin n) (dev block : ℕ) : Decidable (s.Reusable bh dev block) :=
  inferInstanceAs (Decidable (_ ∧ _))

def step (s : Devices σ n) : DevAction σ n → Except String (Devices σ n)
  | .llRwBlock t rw bh =>
      match s.task t with
      | .running => s.llRwBlock t rw bh
      | _ => .ok s
  | .resume t =>
      match s.task t with
      | .running => .ok s
      | .locking c => s.lockBuffer t c
      | .locked c => s.repeatRequest t c
  | .transfer major => .ok (s.transfer major)
  | .complete major uptodate => s.complete major uptodate
  | .reuse bh dev block =>
      if s.Reusable bh dev block then
        .ok (s.modify bh fun _ => ⟨dev, block, false, false, false⟩)
      else .ok s
  | .store bh k v =>
      if (s.buffer bh).uptodate then
        .ok ((s.setCore (bData bh + k) v).modify bh fun h => { h with dirt := true })
      else .ok s
  | .fill bh v =>
      if (s.buffer bh).lock = false ∧ (s.buffer bh).dev ≠ 0 then
        .ok (((s.setCore (bData bh) (v 0)).setCore (bData bh + 1) (v 1)).modify bh
          fun h => { h with uptodate := true, dirt := true })
      else .ok s
  | .forget bh =>
      if (s.buffer bh).lock then .ok s
      else .ok (s.modify bh fun h => { h with uptodate := false, dirt := false })

def run : List (DevAction σ n) → Devices σ n → Except String (Devices σ n)
  | [], s => .ok s
  | a :: as, s => do run as (← s.step a)

/-- `blk_dev_init` and `buffer_init`, with the drivers that are there. -/
def boot (requestFn : ℕ → Bool) (core : ℕ → σ) (disk : ℤ → ℕ → σ) : Devices σ n where
  request := fun _ => ⟨⟨-1, 0, 0, 0, 0, 0⟩, none⟩
  next := fun _ => none
  blkDev := fun major => ⟨requestFn major, none⟩
  buffer := fun _ => ⟨0, 0, false, false, false⟩
  task := fun _ => .running
  core := core
  disk := disk
  printed := []

end Devices

end MyJavaExample.Blk
