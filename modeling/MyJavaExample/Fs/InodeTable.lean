import MyJavaExample.Fs.Directory
import MyJavaExample.Fs.Inode
import MyJavaExample.Fs.WritePaths

/-!
# The inode table and the tasks that use it: `fs/inode.c`, `fs/namei.c`

Tasks that run `namei`, `open_namei`, `sys_unlink`, `iput` and `sync_inodes`.  `InodePc`
says where a task is: where it sleeps in one of the functions, or where a function is
called or returns.  A task that is run goes on to the next such place.  A task may be
left at a call or a return too, which only adds interleavings.  `bread` gets to
`sync_inodes` when it finds no clean buffer; that is the work of the other tasks here.

A directory is the list of its entries, free ones included.  The super blocks and the
maps of the devices are read in, and nothing is mounted meanwhile.  There are no pipes.
What is left out of an inode is not read by these functions, apart from the owner:
`may` is what `permission` says by mode and owner, for the time until the task is left.
A reference count is a number.
-/

namespace MyJavaExample.Fs

def NR_INODE : ℕ := 32

def ROOT_INO : ℕ := 1

def INODES_PER_BLOCK : ℕ := 32

/-- `struct m_inode`. -/
structure MInode where
  dev : ℕ
  num : ℕ
  count : ℕ
  nlinks : UInt8
  mode : UInt16
  dirt : Bool
  lock : Bool
  mount : Bool
deriving DecidableEq

/-- What an inode has on the disk. -/
structure DInode where
  nlinks : UInt8
  mode : UInt16
deriving DecidableEq

/-- `struct super_block`.  Only `mount_root` sets `s_isup`. -/
structure InodeSuper (n : ℕ) where
  dev : ℕ
  ninodes : ℕ
  isup : Option (Fin n)
  imount : Option (Fin n)
deriving DecidableEq

structure OpenFlags where
  creat : Bool
  excl : Bool
  trunc : Bool
  /-- `flag & O_ACCMODE`. -/
  acc : Bool
  mode : UInt16
  umask : UInt16
  /-- `add_entry` can read the directory and finds a block for it. -/
  room : Bool
deriving DecidableEq

inductive NameCall where
  | namei
  | openNamei (flags : OpenFlags)
  | unlink
deriving DecidableEq

/-- What a process may do with an inode by its mode and owner. -/
inductive Access where
  /-- `MAY_EXEC`. -/
  | exec
  /-- `MAY_WRITE`. -/
  | write
  /-- `ACC_MODE(flag)`. -/
  | acc
  /-- `S_ISVTX` does not keep it from removing the inode. -/
  | remove
deriving DecidableEq

/-! ## Tasks -/

/-- The caller of `iget`. -/
inductive IgetCont (n : ℕ) where
  /-- `get_dir`, with the names to go: the next one and those after it. -/
  | getDir (call : NameCall) (name : List UInt8) (path : List (List UInt8))
  | namei
  | openNamei (flags : OpenFlags)
  /-- `sys_unlink` of the entry `k` of `dir`. -/
  | unlink (dir : Fin n) (k : ℕ)
deriving DecidableEq

/-- What follows `iput`. -/
inductive PutCont (n : ℕ) where
  | done
  | give (i : Fin n)
  | iput (i : Fin n)
  | iget (dev nr : ℕ) (k : IgetCont n)
  /-- The return of `iget` with the inode `i`. -/
  | got (i : Fin n) (k : IgetCont n)
  /-- The root of a mounted device, in `iget`. -/
  | search (dev nr : ℕ) (empty : Fin n) (k : IgetCont n)
  /-- `find_entry` goes on in the directory that the device is mounted on. -/
  | find (dev entries : ℕ) (call : NameCall) (path : List (List UInt8))
deriving DecidableEq

/-- The caller of `get_empty_inode`. -/
inductive EmptyCont (n : ℕ) where
  | iget (dev nr : ℕ) (k : IgetCont n)
  /-- `new_inode` of `open_namei`. -/
  | create (dir : Fin n) (name : List UInt8) (flags : OpenFlags)
deriving DecidableEq

/-- The inode for which `iput` has called `sync_dev`, if it has. -/
abbrev SyncCont (n : ℕ) : Type := Option (Fin n × PutCont n)

inductive InodePc (n : ℕ) where
  | idle
  /-- `bread` of `find_entry` for a block, with the number of entries at its start. -/
  | finding (call : NameCall) (dir : Fin n) (entries block : ℕ) (name : List UInt8)
      (path : List (List UInt8))
  /-- `wait_on_inode` of `iput`. -/
  | putWait (i : Fin n) (k : PutCont n)
  /-- `lock_inode` of `write_inode` in `iput`, its `bread` of a block of inodes, and
  `wait_on_inode` after it. -/
  | putLock (i : Fin n) (k : PutCont n)
  | putWrite (dev block : ℕ) (i : Fin n) (k : PutCont n)
  | putWritten (i : Fin n) (k : PutCont n)
  /-- `bread` of `truncate`, before `free_inode`. -/
  | truncating (i : Fin n) (k : PutCont n)
  /-- The return of `iput`. -/
  | put (k : PutCont n)
  /-- The loop of `sync_inodes`, with the slots to go. -/
  | sync (todo : List (Fin n)) (k : SyncCont n)
  | syncLock (i : Fin n) (todo : List (Fin n)) (k : SyncCont n)
  | syncWrite (dev block : ℕ) (i : Fin n) (todo : List (Fin n)) (k : SyncCont n)
  /-- The loop of `get_empty_inode`. -/
  | empty (k : EmptyCont n)
  /-- `wait_on_inode` of `get_empty_inode`, also after `write_inode`. -/
  | emptyWait (i : Fin n) (k : EmptyCont n)
  | emptyLock (i : Fin n) (k : EmptyCont n)
  | emptyWrite (dev block : ℕ) (i : Fin n) (k : EmptyCont n)
  /-- The start of the loop of `iget`. -/
  | search (dev nr : ℕ) (empty : Fin n) (k : IgetCont n)
  /-- `wait_on_inode` of `iget`. -/
  | igetWait (dev nr : ℕ) (empty i : Fin n) (k : IgetCont n)
  /-- `lock_inode` of `read_inode`, and its `bread`. -/
  | readLock (i : Fin n) (k : IgetCont n)
  | reading (i : Fin n) (k : IgetCont n)
  /-- The return of `iget`. -/
  | got (i : Fin n) (k : IgetCont n)
  /-- `bread` of `add_entry` for a block, for the new inode `i`. -/
  | adding (dir : Fin n) (block : ℕ) (name : List UInt8) (flags : OpenFlags) (i : Fin n)
  /-- `bread` of `truncate` in `open_namei`. -/
  | emptying (i : Fin n)
deriving DecidableEq

/-- `current`, with the inodes it has open. -/
structure InodeTask (n : ℕ) where
  root : Fin n
  pwd : Fin n
  held : List (Fin n)
  pc : InodePc n

def InodeTask.goTo {n : ℕ} (task : InodeTask n) (pc : InodePc n) : InodeTask n :=
  ⟨task.root, task.pwd, task.held, pc⟩

structure InodeTable (τ : Type) (n : ℕ) where
  slot : Fin n → MInode
  /-- `last_inode`. -/
  last : Fin n
  supers : List (InodeSuper n)
  /-- The bits of the inode maps. -/
  used : ℕ → ℕ → Bool
  disk : ℕ → ℕ → DInode
  entries : ℕ → ℕ → List DirEntry
  task : τ → InodeTask n

namespace MInode

variable (x : MInode)

def isDir : Bool := x.mode &&& S_IFMT = S_IFDIR

def isReg : Bool := x.mode &&& S_IFMT = S_IFREG

def isBlk : Bool := x.mode &&& S_IFMT = S_IFBLK

/-- `memset`. -/
def zero : MInode := ⟨0, 0, 0, 0, 0, false, false, false⟩

/-- What `get_empty_inode` returns. -/
def fresh : MInode := ⟨0, 0, 1, 0, 0, false, false, false⟩

end MInode

namespace InodeTable

variable {τ : Type} {n : ℕ} (s : InodeTable τ n)

def getSuper (dev : ℕ) : Option (InodeSuper n) := s.supers.find? fun sb => sb.dev = dev

/-- `s_imount` of the super block of the device. -/
def mountedOn (dev : ℕ) : Option (Fin n) := (s.getSuper dev).bind (·.imount)

def setSlot (i : Fin n) (x : MInode) : InodeTable τ n :=
  { s with slot := Function.update s.slot i x }

def setCount (i : Fin n) (count : ℕ) : InodeTable τ n := s.setSlot i { s.slot i with count }

def setUsed (dev nr : ℕ) (bit : Bool) : InodeTable τ n :=
  { s with used := Function.update s.used dev (Function.update (s.used dev) nr bit) }

def setDisk (dev nr : ℕ) (x : DInode) : InodeTable τ n :=
  { s with disk := Function.update s.disk dev (Function.update (s.disk dev) nr x) }

/-- The entries of the directory in a slot. -/
def dirEntries (dir : Fin n) : List DirEntry := s.entries (s.slot dir).dev (s.slot dir).num

def setEntries (dir : Fin n) (l : List DirEntry) : InodeTable τ n :=
  let dev := (s.slot dir).dev
  { s with
    entries := Function.update s.entries dev (Function.update (s.entries dev) (s.slot dir).num l) }

/-- `permission`, where `may` is what mode and owner allow. -/
def permission (i : Fin n) (may : Bool) : Bool :=
  !((s.slot i).dev ≠ 0 && (s.slot i).nlinks = 0) && may

variable [DecidableEq τ]

def setTask (t : τ) (x : InodeTask n) : InodeTable τ n :=
  { s with task := Function.update s.task t x }

def setPc (t : τ) (pc : InodePc n) : InodeTable τ n := s.setTask t ((s.task t).goTo pc)

/-- The task has the inode. -/
def give (t : τ) (i : Fin n) : InodeTable τ n :=
  s.setTask t { s.task t with held := i :: (s.task t).held, pc := .idle }

/-! ## `read_inode` and `write_inode` -/

/-- `read_inode` up to its `bread`. -/
def readInode (t : τ) (i : Fin n) (k : IgetCont n) : Except String (InodeTable τ n) :=
  if (s.slot i).lock then pure (s.setPc t (.readLock i k))
  else if (s.getSuper (s.slot i).dev).isNone then throw "trying to read inode without dev"
  else pure ((s.setSlot i { s.slot i with lock := true }).setPc t (.reading i k))

/-- The rest of `read_inode`. -/
def inodeRead (i : Fin n) : InodeTable τ n :=
  let x := s.slot i
  let d := s.disk x.dev x.num
  s.setSlot i { x with nlinks := d.nlinks, mode := d.mode, lock := false }

/-- `write_inode` up to its `bread`: the task is left at `lock` or, with the block, at
`write`, or it goes on at `written` as there is nothing to write. -/
def writeInode (t : τ) (i : Fin n) (lock : InodePc n) (write : ℕ → ℕ → InodePc n)
    (written : InodePc n) : Except String (InodeTable τ n) :=
  let x := s.slot i
  if x.lock then pure (s.setPc t lock)
  else if x.dirt = false ∨ x.dev = 0 then pure (s.setPc t written)
  else if (s.getSuper x.dev).isNone then throw "trying to write inode without device"
  else
    let block := (x.num - 1) / INODES_PER_BLOCK
    pure ((s.setSlot i { x with lock := true }).setPc t (write x.dev block))

/-- The rest of `write_inode`.  The place in the block is that of the number that the slot
has now. -/
def inodeWritten (dev block : ℕ) (i : Fin n) : InodeTable τ n :=
  let x := s.slot i
  let place := (x.num + (INODES_PER_BLOCK - 1)) % INODES_PER_BLOCK
  (s.setDisk dev (INODES_PER_BLOCK * block + place + 1) ⟨x.nlinks, x.mode⟩).setSlot i
    { x with dirt := false, lock := false }

/-! ## `get_empty_inode` -/

/-- The loop over the table: the slot that is found, and `last_inode` after it. -/
def pick : List (Fin n) → Option (Fin n) → Option (Fin n) × Fin n
  | [], inode => (inode, s.last)
  | i :: rest, inode =>
      if (s.slot i).count ≠ 0 then pick rest inode
      else if (s.slot i).dirt = false ∧ (s.slot i).lock = false then (some i, i)
      else pick rest (some i)

/-- The slots in the order in which `last_inode` gets to them. -/
def order : List (Fin n) := (List.finRange n).rotate (s.last + 1)

def getEmptyInode (t : τ) (k : EmptyCont n) : Except String (InodeTable τ n) :=
  match s.pick s.order none with
  | (none, _) => throw "No free inodes in mem"
  | (some i, last) => pure ({ s with last := last }.setPc t (.emptyWait i k))

/-! ## `iput` -/

/-- `i_count--`, and the return. -/
def putCount (t : τ) (i : Fin n) (k : PutCont n) : InodeTable τ n :=
  (s.setCount i ((s.slot i).count - 1)).setPc t (.put k)

/-- `free_inode`, the last thing that `iput` does. -/
def freeInode (t : τ) (i : Fin n) (k : PutCont n) : Except String (InodeTable τ n) :=
  let x := s.slot i
  if x.dev = 0 then pure ((s.setSlot i .zero).setPc t (.put k))
  else if 1 < x.count then throw "free_inode"
  else if x.nlinks ≠ 0 then throw "trying to free inode with links"
  else
    match s.getSuper x.dev with
    | none => throw "trying to free inode on nonexistent device"
    | some sb =>
        if x.num < 1 ∨ sb.ninodes < x.num then
          throw "trying to free inode 0 or nonexistant inode"
        else pure (((s.setUsed x.dev x.num false).setSlot i .zero).setPc t (.put k))

/-- `repeat` of `iput`. -/
def putRepeat (t : τ) (i : Fin n) (k : PutCont n) : Except String (InodeTable τ n) :=
  let x := s.slot i
  if 1 < x.count then pure (s.putCount t i k)
  else if x.nlinks = 0 then
    -- `truncate` does not sleep for other inodes
    if x.isReg ∨ x.isDir then pure (s.setPc t (.truncating i k)) else s.freeInode t i k
  else if x.dirt then s.writeInode t i (.putLock i k) (.putWrite · · i k) (.putWritten i k)
  else pure (s.putCount t i k)

def iput (t : τ) (i : Fin n) (k : PutCont n) : Except String (InodeTable τ n) :=
  if (s.slot i).lock then pure s
  else if (s.slot i).count = 0 then throw "iput: trying to free free inode"
  else if (s.slot i).dev = 0 then pure (s.putCount t i k)
  else if (s.slot i).isBlk then pure (s.setPc t (.sync (List.finRange n) (some (i, k))))
  else s.putRepeat t i k

/-- `sync_inodes`: the next slot, or the return. -/
def syncInodes (t : τ) (k : SyncCont n) : List (Fin n) → Except String (InodeTable τ n)
  | [] =>
      match k with
      | none => pure (s.setPc t .idle)
      | some (i, k) => pure (s.setPc t (.putWritten i k))
  | i :: todo =>
      if (s.slot i).lock then pure s
      else if (s.slot i).dirt then
        s.writeInode t i (.syncLock i todo k) (.syncWrite · · i todo k) (.sync todo k)
      else pure (s.setPc t (.sync todo k))

/-! ## `iget` and `new_inode` -/

def iget (t : τ) (dev nr : ℕ) (k : IgetCont n) : Except String (InodeTable τ n) :=
  if dev = 0 then throw "iget with dev==0" else pure (s.setPc t (.empty (.iget dev nr k)))

/-- The inode `i` is the one that `iget` looks for. -/
def found (t : τ) (empty i : Fin n) (k : IgetCont n) : InodeTable τ n :=
  let pc :=
    if (s.slot i).mount then
      match s.supers.find? fun sb => sb.imount = some i with
      | none => InodePc.putWait empty (.got i k)
      | some sb => .putWait i (.search sb.dev ROOT_INO empty k)
    else .putWait empty (.got i k)
  (s.setCount i ((s.slot i).count + 1)).setPc t pc

def findSlot (dev nr : ℕ) : Option (Fin n) :=
  (List.finRange n).find? fun i => (s.slot i).dev = dev ∧ (s.slot i).num = nr

/-- The loop of `iget`. -/
def search (t : τ) (dev nr : ℕ) (empty : Fin n) (k : IgetCont n) :
    Except String (InodeTable τ n) :=
  match s.findSlot dev nr with
  | some i =>
      if (s.slot i).lock then pure (s.setPc t (.igetWait dev nr empty i k))
      else pure (s.found t empty i k)
  | none => (s.setSlot empty { s.slot empty with dev := dev, num := nr }).readInode t empty k

/-- `iget` after `wait_on_inode`. -/
def igetWait (t : τ) (dev nr : ℕ) (empty i : Fin n) (k : IgetCont n) : InodeTable τ n :=
  if (s.slot i).lock then s
  else if (s.slot i).dev = dev ∧ (s.slot i).num = nr then s.found t empty i k
  else s.setPc t (.search dev nr empty k)

/-- The number that `new_inode` takes. -/
def freeNumber (dev ninodes : ℕ) : Option ℕ :=
  (List.range' 1 ninodes).find? fun nr => s.used dev nr = false

/-- `new_inode` with the slot `i`, and what `open_namei` sets of it. -/
def newInode (t : τ) (i dir : Fin n) (name : List UInt8) (flags : OpenFlags) :
    Except String (InodeTable τ n) :=
  let dev := (s.slot dir).dev
  match s.getSuper dev with
  | none => throw "new_inode with unknown device"
  | some sb =>
      match s.freeNumber dev sb.ninodes with
      | none => pure (s.setPc t (.putWait i (.iput dir)))
      | some nr =>
          let mode := S_IFREG ||| (flags.mode &&& 0o777 &&& ~~~flags.umask)
          let x : MInode := ⟨dev, nr, 1, 1, mode, true, false, false⟩
          pure (((s.setUsed dev nr true).setSlot i x).setPc t (.adding dir 0 name flags i))

/-- `get_empty_inode` after `wait_on_inode`. -/
def emptyWait (t : τ) (i : Fin n) (k : EmptyCont n) : Except String (InodeTable τ n) :=
  if (s.slot i).lock then pure s
  else if (s.slot i).dirt then
    s.writeInode t i (.emptyLock i k) (.emptyWrite · · i k) (.emptyWait i k)
  else if (s.slot i).count ≠ 0 then pure (s.setPc t (.empty k))
  else
    let s := s.setSlot i .fresh
    match k with
    | .iget dev nr k => pure (s.setPc t (.search dev nr i k))
    | .create dir name flags => s.newInode t i dir name flags

/-! ## Names -/

/-- `find_entry` up to its `bread`.  Its callers give the directory back if it fails. -/
def findEntry (t : τ) (call : NameCall) (dir : Fin n) (name : List UInt8)
    (path : List (List UInt8)) : InodeTable τ n :=
  let name := name.take NAME_LEN
  let entries := (s.dirEntries dir).length
  if name = [] then s.setPc t (.putWait dir .done)
  else if name = dotDot then
    if dir = (s.task t).root then s.setPc t (.finding call dir entries 0 dot path)
    else if (s.slot dir).num = ROOT_INO then
      let dev := (s.slot dir).dev
      if (s.mountedOn dev).isSome then s.setPc t (.putWait dir (.find dev entries call path))
      else s.setPc t (.finding call dir entries 0 name path)
    else s.setPc t (.finding call dir entries 0 name path)
  else s.setPc t (.finding call dir entries 0 name path)

/-- The loop of `get_dir` at `dir`, and `namei`, `open_namei` or `sys_unlink` up to
`find_entry`. -/
def getDir (t : τ) (may : Access → Bool) (call : NameCall) (dir : Fin n) (name : List UInt8)
    (path : List (List UInt8)) : InodeTable τ n :=
  if (s.slot dir).isDir = false ∨ s.permission dir (may .exec) = false then
    s.setPc t (.putWait dir .done)
  else if path ≠ [] then s.findEntry t call dir name path
  else if name = [] then
    match call with
    | .namei => s.give t dir
    | .openNamei flags =>
        if flags.acc ∨ flags.creat ∨ flags.trunc then s.setPc t (.putWait dir .done)
        else s.give t dir
    | .unlink => s.setPc t (.putWait dir .done)
  else if call = .unlink ∧ s.permission dir (may .write) = false then
    s.setPc t (.putWait dir .done)
  else s.findEntry t call dir name path

/-- `find_entry` has found the entry `k` with the number `nr`: what its caller does up to
`iput` or `iget`. -/
def entryFound (t : τ) (dir : Fin n) (k nr : ℕ) :
    NameCall → List (List UInt8) → Except String (InodeTable τ n)
  | call, name :: path =>
      pure (s.setPc t (.putWait dir (.iget (s.slot dir).dev nr (.getDir call name path))))
  | .namei, [] => pure (s.setPc t (.putWait dir (.iget (s.slot dir).dev nr .namei)))
  | .openNamei flags, [] =>
      if flags.excl then pure (s.setPc t (.putWait dir .done))
      else pure (s.setPc t (.putWait dir (.iget (s.slot dir).dev nr (.openNamei flags))))
  | .unlink, [] => s.iget t (s.slot dir).dev nr (.unlink dir k)

/-- `find_entry` has not found the name. -/
def entryMissing (t : τ) (may : Access → Bool) (dir : Fin n) (name : List UInt8) :
    NameCall → List (List UInt8) → InodeTable τ n
  | .openNamei flags, [] =>
      if flags.creat ∧ s.permission dir (may .write) then
        s.setPc t (.empty (.create dir name flags))
      else s.setPc t (.putWait dir .done)
  | _, _ => s.setPc t (.putWait dir .done)

/-- The place of the name in a block of a directory. -/
def findPlace (l : List DirEntry) (name : List UInt8) (entries block : ℕ) : Option ℕ :=
  (blockEntries block).find? fun k => k < entries && l[k]?.any (·.matches name)

/-- The loop of `find_entry` for one block. -/
def findBlock (t : τ) (may : Access → Bool) (call : NameCall) (dir : Fin n) (entries block : ℕ)
    (name : List UInt8) (path : List (List UInt8)) : Except String (InodeTable τ n) :=
  match findPlace (s.dirEntries dir) name entries block with
  | some k => s.entryFound t dir k (((s.dirEntries dir)[k]?.map (·.inode)).getD 0) call path
  | none =>
      if DIR_ENTRIES_PER_BLOCK * (block + 1) < entries then
        pure (s.setPc t (.finding call dir entries (block + 1) name path))
      else pure (s.entryMissing t may dir name call path)

/-- `bread` of `find_entry` has failed.  The block is skipped, unless it is the first. -/
def findFailed (t : τ) (may : Access → Bool) (call : NameCall) (dir : Fin n) (entries block : ℕ)
    (name : List UInt8) (path : List (List UInt8)) : InodeTable τ n :=
  if block ≠ 0 ∧ DIR_ENTRIES_PER_BLOCK * (block + 1) < entries then
    s.setPc t (.finding call dir entries (block + 1) name path)
  else s.entryMissing t may dir name call path

/-- The loop of `add_entry` for one block, and what `open_namei` does up to `iput`. -/
def addBlock (t : τ) (dir : Fin n) (block : ℕ) (name : List UInt8) (flags : OpenFlags)
    (i : Fin n) : InodeTable τ n :=
  if flags.room = false then
    (s.setSlot i { s.slot i with nlinks := (s.slot i).nlinks - 1 }).setPc t
      (.putWait i (.iput dir))
  else
    match freeInBlock (s.dirEntries dir) block with
    | none => s.setPc t (.adding dir (block + 1) name flags i)
    | some k =>
        let l := s.dirEntries dir
        let dirt := (s.slot dir).dirt || l.length ≤ k
        ((s.setEntries dir (setEntry l k ⟨(s.slot i).num, padName name⟩)).setSlot dir
          { s.slot dir with dirt := dirt }).setPc t (.putWait dir (.give i))

/-- `sys_unlink` with the inode `i`, up to `iput`. -/
def unlinkInode (t : τ) (may : Access → Bool) (i dir : Fin n) (k : ℕ) : InodeTable τ n :=
  let x := s.slot i
  if may .remove = false then s.setPc t (.putWait dir (.iput i))
  else if x.isDir then s.setPc t (.putWait i (.iput dir))
  else
    -- "Deleting nonexistent file"
    let nlinks := if x.nlinks = 0 then 1 else x.nlinks
    ((s.setEntries dir ((s.dirEntries dir).modify k fun de => { de with inode := 0 })).setSlot i
      { x with nlinks := nlinks - 1, dirt := true }).setPc t (.putWait i (.iput dir))

/-- `iget` has returned `i`. -/
def afterIget (t : τ) (may : Access → Bool) (i : Fin n) : IgetCont n → InodeTable τ n
  | .getDir call name path => s.getDir t may call i name path
  | .namei => (s.setSlot i { s.slot i with dirt := true }).give t i
  | .openNamei flags =>
      if ((s.slot i).isDir ∧ (flags.acc ∨ flags.trunc)) ∨ s.permission i (may .acc) = false then
        s.setPc t (.putWait i .done)
      else if flags.trunc ∧ ((s.slot i).isReg ∨ (s.slot i).isDir) then s.setPc t (.emptying i)
      else s.give t i
  | .unlink dir k => s.unlinkInode t may i dir k

/-- `iput` has returned. -/
def afterPut (t : τ) : PutCont n → Except String (InodeTable τ n)
  | .done => pure (s.setPc t .idle)
  | .give i => pure (s.give t i)
  | .iput i => pure (s.setPc t (.putWait i .done))
  | .iget dev nr k => s.iget t dev nr k
  | .got i k => pure (s.setPc t (.got i k))
  | .search dev nr empty k => pure (s.setPc t (.search dev nr empty k))
  | .find dev entries call path =>
      match s.mountedOn dev with
      | none => throw "s_imount"
      | some dir =>
          pure ((s.setCount dir ((s.slot dir).count + 1)).setPc t
            (.finding call dir entries 0 dotDot path))

/-! ## Actions -/

/-- A task that is somewhere in the functions goes on. -/
def resume (t : τ) (may : Access → Bool) : Except String (InodeTable τ n) :=
  match (s.task t).pc with
  | .idle => pure s
  | .finding call dir entries block name path =>
      s.findBlock t may call dir entries block name path
  | .putWait i k => s.iput t i k
  | .putLock i k => s.writeInode t i (.putLock i k) (.putWrite · · i k) (.putWritten i k)
  | .putWrite dev block i k => pure ((s.inodeWritten dev block i).setPc t (.putWritten i k))
  | .putWritten i k => if (s.slot i).lock then pure s else s.putRepeat t i k
  | .truncating i k => s.freeInode t i k
  | .put k => s.afterPut t k
  | .sync todo k => s.syncInodes t k todo
  | .syncLock i todo k =>
      s.writeInode t i (.syncLock i todo k) (.syncWrite · · i todo k) (.sync todo k)
  | .syncWrite dev block i todo k => pure ((s.inodeWritten dev block i).setPc t (.sync todo k))
  | .empty k => s.getEmptyInode t k
  | .emptyWait i k => s.emptyWait t i k
  | .emptyLock i k => s.writeInode t i (.emptyLock i k) (.emptyWrite · · i k) (.emptyWait i k)
  | .emptyWrite dev block i k => pure ((s.inodeWritten dev block i).setPc t (.emptyWait i k))
  | .search dev nr empty k => s.search t dev nr empty k
  | .igetWait dev nr empty i k => pure (s.igetWait t dev nr empty i k)
  | .readLock i k => s.readInode t i k
  | .reading i k => pure ((s.inodeRead i).setPc t (.got i k))
  | .got i k => pure (s.afterIget t may i k)
  | .adding dir block name flags i => pure (s.addBlock t dir block name flags i)
  | .emptying i => pure ((s.setSlot i { s.slot i with dirt := true }).give t i)

end InodeTable

inductive InodeAction (τ : Type) (n : ℕ) where
  /-- A call for a path from the root or the working directory: its first name and
  those after it. -/
  | call (t : τ) (call : NameCall) (absolute : Bool) (name : List UInt8)
      (path : List (List UInt8))
  | iput (t : τ) (i : Fin n)
  | sync (t : τ)
  /-- A task that is somewhere in the functions goes on. -/
  | run (t : τ) (may : Access → Bool)
  /-- A task in `find_entry` gets no block. -/
  | fail (t : τ) (may : Access → Bool)

namespace InodeTable

variable {τ : Type} {n : ℕ} [DecidableEq τ] (s : InodeTable τ n)

/-- The start of `get_dir`, which goes on as if `iget` had returned the directory. -/
def startDir (t : τ) (call : NameCall) (absolute : Bool) (name : List UInt8)
    (path : List (List UInt8)) : Except String (InodeTable τ n) :=
  let root := (s.task t).root
  let pwd := (s.task t).pwd
  if (s.slot root).count = 0 then throw "No root inode"
  else if (s.slot pwd).count = 0 then throw "No cwd inode"
  else
    let dir := if absolute then root else pwd
    pure ((s.setCount dir ((s.slot dir).count + 1)).setPc t (.got dir (.getDir call name path)))

/-- An action that the state does not admit changes nothing. -/
def exec : InodeAction τ n → Except String (InodeTable τ n)
  | .call t call absolute name path =>
      if (s.task t).pc = .idle then s.startDir t call absolute name path else pure s
  | .iput t i =>
      if (s.task t).pc = .idle ∧ i ∈ (s.task t).held then
        pure (s.setTask t
          { s.task t with held := (s.task t).held.erase i, pc := .putWait i .done })
      else pure s
  | .sync t =>
      if (s.task t).pc = .idle then pure (s.setPc t (.sync (List.finRange n) none)) else pure s
  | .run t may => s.resume t may
  | .fail t may =>
      match (s.task t).pc with
      | .finding call dir entries block name path =>
          pure (s.findFailed t may call dir entries block name path)
      | _ => pure s

/-- One action of a run.  A panic ends the run. -/
def next (r : Except String (InodeTable τ n)) (a : InodeAction τ n) :
    Except String (InodeTable τ n) :=
  r >>= fun s => s.exec a

end InodeTable

end MyJavaExample.Fs
