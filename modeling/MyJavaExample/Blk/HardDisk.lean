import MyJavaExample.Blk.Request

/-!
# The hard disk driver: `kernel/blk_drv/hd.c`

The driver works on `CURRENT`, the first request of its queue.  It gives a
command to the controller and returns; the interrupt handler goes on with the
function in `do_hd`.  What the controller does is given by the actions: the
result of each interrupt, and whether the controller asks for data (`DRQ`) after
a write command.  The wait for `DRQ` is a busy loop, here a state of its own.
The controller is ready when it is given a command.

A `Job` is a request with the part of it that was transferred.  A function that
uses `CURRENT` when there is no request, or when it is not the request the
function began with, sets `misused`.
-/

namespace MyJavaExample.Blk

open Lib

def MAX_ERRORS : ℤ := 7

def MAX_HD : ℕ := 2

/-- `struct hd_i_struct` as far as it is used. -/
structure HdInfo where
  head : ℕ
  sect : ℕ
  cyl : ℕ

/-- The drives and their partitions.  Sectors and heads are divided
by, and `hd_out` takes 16 heads. -/
structure Drives where
  nrHd : ℕ
  /-- `hd_info`. -/
  info : ℕ → HdInfo
  /-- The first sector and the number of sectors of each entry of `hd`. -/
  startSect : ℕ → ℕ
  nrSects : ℕ → ℕ
  nrHd_le : nrHd ≤ MAX_HD
  sect_pos : ∀ drive < nrHd, 0 < (info drive).sect
  head_pos : ∀ drive < nrHd, 0 < (info drive).head
  head_le : ∀ drive < nrHd, (info drive).head ≤ 16

/-- A request, where it began, and which sectors were transferred to or from
which addresses. -/
structure Job extends Request where
  id : ℕ
  firstSector : ℕ
  firstBuffer : ℕ
  count : ℕ
  moved : List (ℕ × ℕ)

/-- The function in `do_hd`. -/
inductive Intr where
  | read
  | write
  | recal
deriving DecidableEq

inductive HdCmd where
  | restore
  | read
  | write
  | specify

/-- What `hd_out` writes to the controller. -/
structure HdCommand where
  drive : ℕ
  nsect : ℕ
  sect : ℕ
  head : ℕ
  cyl : ℕ
  cmd : HdCmd

structure Hd where
  /-- The list that begins with `CURRENT`. -/
  queue : List Job
  doHd : Option Intr
  /-- The driver waits for `DRQ`. -/
  waitDrq : Bool
  reset : Bool
  recalibrate : Bool
  command : Option HdCommand
  /-- The address of the last `port_write`. -/
  sent : Option ℕ
  /-- The numbers of the requests that were added. -/
  added : List ℕ
  /-- The requests that were ended, with `uptodate`. -/
  ended : List (Job × Bool)
  misused : Bool
  panicked : Bool

/-- `MAJOR`. -/
def major (dev : ℤ) : ℤ := dev % 2 ^ 32 / 256

/-- `MINOR`. -/
def minor (dev : ℤ) : ℕ := (dev % 256).toNat

namespace Hd

variable (d : Drives) (s : Hd)

def endRequest (j : Job) (rest : List Job) (uptodate : Bool) : Hd :=
  { s with queue := rest, ended := s.ended ++ [(j, uptodate)] }

def hdOut (c : HdCommand) (intr : Intr) : Hd :=
  if 1 < c.drive ∨ 15 < c.head then { s with panicked := true }
  else { s with doHd := some intr, command := some c }

/-- The driver takes the request: it is for an existing partition, and two
sectors from its first one on are inside. -/
def Accepts (r : Request) : Prop :=
  minor r.dev < 5 * d.nrHd ∧ (r.sector + 2) % 2 ^ 32 ≤ d.nrSects (minor r.dev)

instance (r : Request) : Decidable (Accepts d r) := inferInstanceAs (Decidable (_ ∧ _))

/-- `do_hd_request` for an accepted request. -/
def start (j : Job) : Hd :=
  let dev := minor j.dev / 5
  let block := (j.sector + d.startSect (minor j.dev)) % 2 ^ 32
  let sec := block % (d.info dev).sect + 1
  let head := block / (d.info dev).sect % (d.info dev).head
  let cyl := block / (d.info dev).sect / (d.info dev).head
  if s.reset then
    { s with reset := false, recalibrate := true }.hdOut
      ⟨dev, (d.info dev).sect, (d.info dev).sect, (d.info dev).head - 1, (d.info dev).cyl, .specify⟩
      .recal
  else if s.recalibrate then
    { s with recalibrate := false }.hdOut ⟨dev, (d.info dev).sect, 0, 0, 0, .restore⟩ .recal
  else if j.cmd = WRITE then
    { s with waitDrq := true }.hdOut ⟨dev, j.nrSectors, sec, head, cyl, .write⟩ .write
  else if j.cmd = READ then s.hdOut ⟨dev, j.nrSectors, sec, head, cyl, .read⟩ .read
  else { s with panicked := true }

/-- `do_hd_request`, with the queue as an argument. -/
def repeatRequest : List Job → Hd → Hd
  | [], s => { s with queue := [] }
  | j :: rest, s =>
      if major j.dev ≠ 3 then { s with panicked := true }
      else if ¬Accepts d j.toRequest then repeatRequest rest (s.endRequest j rest false)
      else start d { s with queue := j :: rest } j

def doHdRequest : Hd := repeatRequest d s.queue s

/-- `bad_rw_intr`.  The last test reads `CURRENT` again, which `end_request` has
moved to the next request or to `NULL`; `null` is what is found there. -/
def badRwIntr (null : ℤ) : Hd :=
  match s.queue with
  | [] => { s with misused := true }
  | j :: rest =>
      let j := { j with errors := j.errors + 1 }
      if MAX_ERRORS ≤ j.errors then
        let s := { s.endRequest j rest false with misused := true }
        match rest with
        | [] => { s with reset := s.reset || decide (MAX_ERRORS / 2 < null) }
        | k :: _ => { s with reset := s.reset || decide (MAX_ERRORS / 2 < k.errors) }
      else
        { s with queue := j :: rest, reset := s.reset || decide (MAX_ERRORS / 2 < j.errors) }

def readIntr (null : ℤ) (ok : Bool) : Hd :=
  if !ok then (s.badRwIntr null).doHdRequest d
  else
    match s.queue with
    | [] => { s with misused := true }
    | j :: rest =>
        let j :=
          { j with
            errors := 0
            buffer := j.buffer + 512
            sector := j.sector + 1
            nrSectors := j.nrSectors - 1
            moved := j.moved ++ [(j.sector, j.buffer)] }
        if j.nrSectors ≠ 0 then { s with queue := j :: rest, doHd := some .read }
        else (s.endRequest j rest true).doHdRequest d

def writeIntr (null : ℤ) (ok : Bool) : Hd :=
  if !ok then (s.badRwIntr null).doHdRequest d
  else
    match s.queue with
    | [] => { s with misused := true }
    | j :: rest =>
        let j :=
          { j with
            nrSectors := j.nrSectors - 1
            moved := j.moved ++ s.sent.toList.map fun buffer => (j.sector, buffer) }
        if j.nrSectors ≠ 0 then
          let j := { j with sector := j.sector + 1, buffer := j.buffer + 512 }
          { s with queue := j :: rest, doHd := some .write, sent := some j.buffer }
        else (s.endRequest j rest true).doHdRequest d

def recalIntr (null : ℤ) (ok : Bool) : Hd :=
  if !ok then (s.badRwIntr null).doHdRequest d else s.doHdRequest d

/-- `hd_interrupt`: `do_hd` is cleared before the function is called. -/
def hdInterrupt (null : ℤ) (ok : Bool) : Hd :=
  match s.doHd with
  | none => s
  | some intr =>
      let s := { s with doHd := none }
      match intr with
      | .read => s.readIntr d null ok
      | .write => s.writeIntr d null ok
      | .recal => s.recalIntr d null ok

/-- The end of the wait for `DRQ`. -/
def drq (null : ℤ) (ready : Bool) : Hd :=
  let s := { s with waitDrq := false }
  if !ready then (s.badRwIntr null).doHdRequest d
  else
    match s.queue with
    | [] => { s with misused := true }
    | j :: _ => { s with sent := some j.buffer }

/-- `add_request`: never before the request in progress. -/
def addRequest (j : Job) (at' : ℕ) : Hd :=
  let s := { s with added := j.id :: s.added }
  match s.queue with
  | [] => { s with queue := [j] }.doHdRequest d
  | k :: rest => { s with queue := k :: (rest.take at' ++ j :: rest.drop at') }

/-- The driver before the first request. -/
def boot : Hd where
  queue := []
  doHd := none
  waitDrq := false
  reset := true
  recalibrate := true
  command := none
  sent := none
  added := []
  ended := []
  misused := false
  panicked := false

end Hd

/-- A request of `make_request`, of one or more sectors. -/
def Job.make (id : ℕ) (dev cmd : ℤ) (sector nrSectors buffer : ℕ) : Job where
  dev := dev
  cmd := cmd
  errors := 0
  sector := sector
  nrSectors := nrSectors
  buffer := buffer
  id := id
  firstSector := sector
  firstBuffer := buffer
  count := nrSectors
  moved := []

inductive HdAction where
  | add (id : ℕ) (dev cmd : ℤ) (sector nrSectors buffer at' : ℕ)
  /-- An interrupt, with the result of `win_result`. -/
  | interrupt (ok : Bool) (null : ℤ)
  | drq (ready : Bool) (null : ℤ)

namespace Hd

variable (d : Drives)

/-- After a panic nothing happens.  While the driver waits for `DRQ` it is not
interrupted. -/
def next (s : Hd) (a : HdAction) : Hd :=
  if s.panicked then s
  else
    match a with
    | .add id dev cmd sector nrSectors buffer at' =>
        s.addRequest d (Job.make id dev cmd sector nrSectors buffer) at'
    | .interrupt ok null => if s.waitDrq then s else s.hdInterrupt d null ok
    | .drq ready null => if s.waitDrq then s.drq d null ready else s

/-- What `make_request` adds: a new request of this device. -/
def Valid (s : Hd) : HdAction → Prop
  | .add id dev cmd _ nrSectors _ _ =>
      id ∉ s.added ∧ major dev = 3 ∧ (cmd = READ ∨ cmd = WRITE) ∧ 0 < nrSectors
  | _ => True

instance (s : Hd) : ∀ a, Decidable (s.Valid a)
  | .add _ _ _ _ _ _ _ => inferInstanceAs (Decidable (_ ∧ _))
  | .interrupt _ _ => inferInstanceAs (Decidable True)
  | .drq _ _ => inferInstanceAs (Decidable True)

end Hd

/-- Every sector was transferred, in order, to or from consecutive parts of the
buffer. -/
def Job.Complete (j : Job) : Prop :=
  j.moved = (List.range j.count).map fun i => (j.firstSector + i, j.firstBuffer + 512 * i)

namespace Hd

/-- Each added request is either in the queue or ended once, after all its
sectors or after `MAX_ERRORS` failures, and `CURRENT` is only used for the
request it was meant to be. -/
structure Once (s : Hd) : Prop where
  nodup : (s.ended.map (·.1.id) ++ s.queue.map (·.id)).Nodup
  perm : (s.ended.map (·.1.id) ++ s.queue.map (·.id)).Perm s.added
  ended : ∀ e ∈ s.ended, e.2 = true ∧ e.1.Complete ∨ e.2 = false ∧ MAX_ERRORS ≤ e.1.errors
  misused : s.misused = false

variable (d : Drives)

/-- A failure of the current request is neither its last one nor at a sector
that the driver would not take as the beginning of a request. -/
def Retries (s : Hd) : Prop :=
  ∀ j ∈ s.queue.head?, j.errors + 1 < MAX_ERRORS ∧ Accepts d j.toRequest

/-- Requests are inside their partition, and every failure is retried. -/
def Recovers (s : Hd) : HdAction → Prop
  | .add _ dev cmd sector nrSectors buffer _ =>
      Accepts d (Job.make 0 dev cmd sector nrSectors buffer).toRequest
  | .interrupt ok _ => ok = false → s.waitDrq = false → s.doHd ≠ none → Retries d s
  | .drq ready _ => ready = false → s.waitDrq = true → Retries d s

instance (s : Hd) : Decidable (s.Retries d) :=
  inferInstanceAs (Decidable (∀ j ∈ s.queue.head?, _))

instance (s : Hd) : ∀ a, Decidable (s.Recovers d a)
  | .add _ _ _ _ _ _ _ => inferInstanceAs (Decidable (Accepts _ _))
  | .interrupt _ _ => inferInstanceAs (Decidable (_ → _ → _ → _))
  | .drq _ _ => inferInstanceAs (Decidable (_ → _ → _))

/-! ## How long it takes -/

/-- The controller answers what the driver waits for. -/
def answer (s : Hd) (ok : Bool) : HdAction := if s.waitDrq then .drq ok 0 else .interrupt ok 0

/-- How many steps a command is away from its interrupt. -/
def phase (s : Hd) : ℕ :=
  if s.waitDrq then 2
  else
    match s.doHd with
    | none => 0
    | some .recal => if s.recalibrate then 4 else 3
    | some _ => 1

/-- A bound for what is left to do for a queue: each sector may fail six times,
and after a failure there are four answers up to the next transfer. -/
def cost : List Job → ℕ
  | [] => 0
  | j :: rest => 35 * j.nrSectors + 5 * (6 - j.errors).toNat +
      (rest.map fun k => 35 * k.nrSectors + 34).sum

def work (s : Hd) : ℕ := cost s.queue + s.phase

end Hd

end MyJavaExample.Blk
