import Mathlib.Data.Fintype.Basic
import Mathlib.Data.Nat.Notation
import Mathlib.Logic.Function.Basic

/-!
# The buffer cache: `fs/buffer.c`

The hash queues and the free list are kept as lists, the free list from
`free_list` on.  The data of the buffers is left out.

A task runs until it sleeps.  It sleeps in `wait_on_buffer`, on `buffer_wait`
and in `sync_dev`; `Pc` says where.  A task that is run goes on from there, and
one whose buffer is still locked goes on waiting.  Being woken up is left out: a
task may be run at any time.  `goto repeat` is one more place where another task
may run, which only adds interleavings.

`sync_inodes` changes buffers through `bread` and `brelse` only, as the other
tasks do; in the model it is the work of the other tasks.
-/

namespace MyJavaExample.Fs

def NR_HASH : ℕ := 307

structure BufferHead where
  blocknr : UInt32
  dev : UInt16
  uptodate : Bool
  dirt : Bool
  count : ℕ
  lock : Bool
deriving DecidableEq

/-- A buffer that was returned by `getblk(dev, block)` or `get_hash_table(dev,
block)` and not yet released. -/
structure Ref (n : ℕ) where
  dev : UInt16
  block : UInt32
  bh : Fin n
deriving DecidableEq

/-- Where a task sleeps. -/
inductive Pc (n : ℕ) where
  /-- In none of the functions. -/
  | idle
  /-- `wait_on_buffer` of `get_hash_table`, which is called by `getblk` or not. -/
  | hashWait (getblk : Bool) (r : Ref n)
  /-- `repeat` of `getblk`, also after `sleep_on(&buffer_wait)`. -/
  | again (dev : UInt16) (block : UInt32)
  /-- `wait_on_buffer` of `getblk`. -/
  | freeWait (r : Ref n)
  /-- A loop of `sync_dev(syncDev)` at buffer `i`. -/
  | sync (r : Ref n) (syncDev : UInt16) (second : Bool) (i : ℕ)
  /-- `ll_rw_block` of `sync_dev` waits for a request. -/
  | syncRequest (r : Ref n) (syncDev : UInt16) (second : Bool) (i : ℕ)
  /-- `wait_on_buffer` of `brelse`. -/
  | releasing (r : Ref n)
deriving DecidableEq

structure BufferTask (n : ℕ) where
  pc : Pc n
  held : List (Ref n)

structure Cache (τ : Type) (n : ℕ) where
  head : Fin n → BufferHead
  hashTable : ℕ → List (Fin n)
  freeList : List (Fin n)
  /-- The major number of the device has a driver. -/
  requestFn : UInt16 → Bool
  task : τ → BufferTask n
  /-- The buffers that were re-assigned, as they were at that moment. -/
  reassigned : List BufferHead

namespace Cache

variable {τ : Type} [DecidableEq τ] {n : ℕ} (s : Cache τ n)

def setHead (b : Fin n) (h : BufferHead) : Cache τ n := { s with head := Function.update s.head b h }

def setTask (t : τ) (task : BufferTask n) : Cache τ n :=
  { s with task := Function.update s.task t task }

def setPc (t : τ) (pc : Pc n) : Cache τ n := s.setTask t { s.task t with pc }

/-- `b_count++` on an `unsigned char`. -/
def incCount (b : Fin n) : Cache τ n :=
  s.setHead b { s.head b with count := ((s.head b).count + 1) % 256 }

/-- `b_count--` on an `unsigned char`. -/
def decCount (b : Fin n) : Cache τ n :=
  s.setHead b { s.head b with count := ((s.head b).count + 255) % 256 }

/-! ## Queues -/

def hashfn (dev : UInt16) (block : UInt32) : ℕ := (dev.toUInt32 ^^^ block).toNat % NR_HASH

def removeFromQueues (bh : Fin n) : Cache τ n :=
  let bucket := hashfn (s.head bh).dev (s.head bh).blocknr
  { s with
    hashTable := Function.update s.hashTable bucket ((s.hashTable bucket).erase bh)
    freeList := s.freeList.erase bh }

def insertIntoQueues (bh : Fin n) : Cache τ n :=
  let bucket := hashfn (s.head bh).dev (s.head bh).blocknr
  { s with
    freeList := s.freeList ++ [bh]
    hashTable :=
      if (s.head bh).dev = 0 then s.hashTable
      else Function.update s.hashTable bucket (bh :: s.hashTable bucket) }

def findBuffer (dev : UInt16) (block : UInt32) : Option (Fin n) :=
  (s.hashTable (hashfn dev block)).find? fun tmp =>
    (s.head tmp).dev = dev ∧ (s.head tmp).blocknr = block

/-! ## `getblk` -/

/-- `BADNESS`. -/
def badness (bh : Fin n) : ℕ := 2 * (s.head bh).dirt.toNat + (s.head bh).lock.toNat

/-- The loop over the free list. -/
def pick : List (Fin n) → Option (Fin n) → Option (Fin n)
  | [], bh => bh
  | tmp :: rest, bh =>
      if (s.head tmp).count ≠ 0 then pick rest bh
      else if ∀ b ∈ bh, s.badness tmp < s.badness b then
        if s.badness tmp = 0 then some tmp else pick rest (some tmp)
      else pick rest bh

/-- The task has the buffer. -/
def give (t : τ) (r : Ref n) : Cache τ n := s.setTask t ⟨.idle, r :: (s.task t).held⟩

/-- The end of `getblk`, where the buffer gets its new block. -/
def reassign (t : τ) (r : Ref n) : Cache τ n :=
  let s := { s with reassigned := s.head r.bh :: s.reassigned }
  let s := s.setHead r.bh { s.head r.bh with count := 1, dirt := false, uptodate := false }
  let s := s.removeFromQueues r.bh
  let s := s.setHead r.bh { s.head r.bh with dev := r.dev, blocknr := r.block }
  let s := s.insertIntoQueues r.bh
  s.give t r

/-- `getblk` after `wait_on_buffer(bh)`. -/
def afterWait (t : τ) (r : Ref n) : Cache τ n :=
  if (s.head r.bh).count ≠ 0 then s.setPc t (.again r.dev r.block)
  else if (s.head r.bh).dirt then s.setPc t (.sync r (s.head r.bh).dev false 0)
  else if (s.findBuffer r.dev r.block).isSome then s.setPc t (.again r.dev r.block)
  else s.reassign t r

/-- `wait_on_buffer(bh)` of `getblk`. -/
def freeWait (t : τ) (r : Ref n) : Cache τ n :=
  if (s.head r.bh).lock then s.setPc t (.freeWait r) else s.afterWait t r

def pickFree (t : τ) (dev : UInt16) (block : UInt32) : Cache τ n :=
  match s.pick s.freeList none with
  | none => s.setPc t (.again dev block)
  | some bh => s.freeWait t ⟨dev, block, bh⟩

/-- `get_hash_table`, and `getblk` when it returns `NULL` there.  A buffer that
is not locked is still the one that `find_buffer` found. -/
def getHashTable (t : τ) (getblk : Bool) (dev : UInt16) (block : UInt32) : Cache τ n :=
  match s.findBuffer dev block with
  | none => if getblk then s.pickFree t dev block else s.setPc t .idle
  | some bh =>
      let s := s.incCount bh
      if (s.head bh).lock then s.setPc t (.hashWait getblk ⟨dev, block, bh⟩)
      else s.give t ⟨dev, block, bh⟩

/-- `get_hash_table` after `wait_on_buffer`. -/
def hashWait (t : τ) (getblk : Bool) (r : Ref n) : Cache τ n :=
  if (s.head r.bh).lock then s
  else if (s.head r.bh).dev = r.dev ∧ (s.head r.bh).blocknr = r.block then s.give t r
  else (s.decCount r.bh).getHashTable t getblk r.dev r.block

/-- The next buffer of `sync_dev`, the second loop after the first, and
`wait_on_buffer(bh)` after both. -/
def syncNext (t : τ) (r : Ref n) (syncDev : UInt16) (second : Bool) (i : ℕ) : Cache τ n :=
  if i + 1 < n then s.setPc t (.sync r syncDev second (i + 1))
  else if second then s.setPc t (.freeWait r)
  else s.setPc t (.sync r syncDev true 0)

def sync (t : τ) (r : Ref n) (syncDev : UInt16) (second : Bool) (i : ℕ) : Cache τ n :=
  if h : i < n then
    let bh := s.head ⟨i, h⟩
    if bh.dev ≠ syncDev then s.syncNext t r syncDev second i
    else if bh.lock then s
    else if bh.dirt ∧ s.requestFn bh.dev then
      -- `lock_buffer` in `make_request`
      (s.setHead ⟨i, h⟩ { bh with lock := true }).setPc t (.syncRequest r syncDev second i)
    else s.syncNext t r syncDev second i
  else s

/-- `add_request`; the interrupt unlocks the buffer later. -/
def addRequest (b : Fin n) : Cache τ n := s.setHead b { s.head b with dirt := false }

def syncRequest (t : τ) (r : Ref n) (syncDev : UInt16) (second : Bool) (i : ℕ) : Cache τ n :=
  if h : i < n then (s.addRequest ⟨i, h⟩).syncNext t r syncDev second i else s

/-- `brelse`; the task gives up its reference. -/
def brelse (t : τ) (r : Ref n) : Except String (Cache τ n) :=
  if (s.head r.bh).lock then .ok (s.setPc t (.releasing r))
  else if (s.head r.bh).count = 0 then .error "Trying to free free buffer"
  else .ok ((s.decCount r.bh).setTask t ⟨.idle, (s.task t).held.erase r⟩)

/-! ## Actions -/

end Cache

inductive BufferAction (τ : Type) (n : ℕ) where
  | getblk (t : τ) (dev : UInt16) (block : UInt32)
  | getHashTable (t : τ) (dev : UInt16) (block : UInt32)
  | brelse (t : τ) (r : Ref n)
  /-- A sleeping task runs. -/
  | run (t : τ)
  /-- A task sets the flags of a buffer it holds. -/
  | modify (t : τ) (r : Ref n) (dirt uptodate : Bool)
  /-- `ll_rw_block` of another task locks a buffer. -/
  | lockBuffer (b : Fin n)
  | addRequest (b : Fin n)
  /-- The interrupt of the disk. -/
  | unlockBuffer (b : Fin n) (uptodate : Bool)

namespace Cache

variable {τ : Type} [DecidableEq τ] {n : ℕ} (s : Cache τ n)

/-- A task that was sleeping runs. -/
def resume (t : τ) : Except String (Cache τ n) :=
  match (s.task t).pc with
  | .idle => .ok s
  | .hashWait getblk r => .ok (s.hashWait t getblk r)
  | .again dev block => .ok (s.getHashTable t true dev block)
  | .freeWait r => .ok (s.freeWait t r)
  | .sync r syncDev second i => .ok (s.sync t r syncDev second i)
  | .syncRequest r syncDev second i => .ok (s.syncRequest t r syncDev second i)
  | .releasing r => s.brelse t r

/-- An action that the state does not admit changes nothing. -/
def exec : BufferAction τ n → Except String (Cache τ n)
  | .getblk t dev block =>
      if (s.task t).pc = .idle then .ok (s.getHashTable t true dev block) else .ok s
  | .getHashTable t dev block =>
      if (s.task t).pc = .idle then .ok (s.getHashTable t false dev block) else .ok s
  | .brelse t r => if (s.task t).pc = .idle ∧ r ∈ (s.task t).held then s.brelse t r else .ok s
  | .run t => s.resume t
  | .modify t r dirt uptodate =>
      if (s.task t).pc = .idle ∧ r ∈ (s.task t).held then
        .ok (s.setHead r.bh { s.head r.bh with dirt, uptodate })
      else .ok s
  | .lockBuffer b =>
      if (s.head b).lock then .ok s else .ok (s.setHead b { s.head b with lock := true })
  | .addRequest b => if (s.head b).lock then .ok (s.addRequest b) else .ok s
  | .unlockBuffer b uptodate => .ok (s.setHead b { s.head b with lock := false, uptodate })

/-- One action of a run.  A panic ends the run. -/
def next (r : Except String (Cache τ n)) (a : BufferAction τ n) : Except String (Cache τ n) :=
  r >>= fun s => s.exec a

end Cache

/-- `buffer_init`, before any task has called anything. -/
def Cache.init (τ : Type) (n : ℕ) (requestFn : UInt16 → Bool) : Cache τ n where
  head := fun _ => ⟨0, 0, false, false, 0, false⟩
  hashTable := fun _ => []
  freeList := List.finRange n
  requestFn := requestFn
  task := fun _ => ⟨.idle, []⟩
  reassigned := []

end MyJavaExample.Fs
