import Mathlib.Data.Fintype.Defs
import Mathlib.Data.Nat.Notation
import Mathlib.Logic.Function.Basic

/-!
# Directories and the calls that add names: `fs/namei.c`

A directory is the list of its entries, free ones included, so `i_size` is 16
times its length.  `open_namei` with `O_CREAT`, `sys_mknod`, `sys_mkdir` and
`sys_link` look for the name (`find_entry`) and add it (`add_entry`) if it is not
there.  A task gives up the processor where it reads a block and where it gets an
inode; in between it is not interrupted, so these are the steps of a call.  The
path up to the directory is walked before, and blocks can be read.  The first
entries of a new directory are written with its name, as it is not reached before.

`dirs` has no entries for a number that is not a directory.  `root` is
`current->root`, and `imount` the directory that a mounted root covers.
-/

namespace MyJavaExample.Fs

/-! ## Entries -/

def NAME_LEN : ℕ := 14

def DIR_ENTRIES_PER_BLOCK : ℕ := 64

/-- `struct dir_entry`. -/
structure DirEntry where
  inode : ℕ
  name : List UInt8
deriving DecidableEq

/-- `match`. -/
def DirEntry.matches (de : DirEntry) (name : List UInt8) : Bool :=
  de.inode ≠ 0 && name.length ≤ NAME_LEN &&
    !(name.length < NAME_LEN && de.name.getD name.length 0 ≠ 0) && de.name.take name.length = name

/-- The bytes that `add_entry` writes. -/
def padName (name : List UInt8) : List UInt8 := (List.range NAME_LEN).map fun i => name.getD i 0

def dot : List UInt8 := [46]

def dotDot : List UInt8 := [46, 46]

/-- The numbers of the entries of a block. -/
def blockEntries (block : ℕ) : List ℕ :=
  List.range' (DIR_ENTRIES_PER_BLOCK * block) DIR_ENTRIES_PER_BLOCK

/-- The part of `find_entry` for one block, where `entries` is the number of
entries to look at. -/
def findInBlock (dir : List DirEntry) (name : List UInt8) (entries block : ℕ) : Option DirEntry :=
  (blockEntries block).findSome? fun i =>
    if i < entries then dir[i]?.filter (·.matches name) else none

/-- The entry of a block that `add_entry` takes: a free one or one after the last. -/
def freeInBlock (dir : List DirEntry) (block : ℕ) : Option ℕ :=
  (blockEntries block).find? fun i => dir[i]?.all fun de => de.inode = 0

/-- The entry `i` is written; after the last one the directory grows. -/
def setEntry (dir : List DirEntry) (i : ℕ) (de : DirEntry) : List DirEntry :=
  if i < dir.length then dir.set i de else dir ++ [de]

/-! ## Calls -/

inductive CreateKind where
  /-- `open_namei` with `O_CREAT`, and `O_EXCL` or not. -/
  | openNamei (excl : Bool)
  | mknod
  | mkdir
  | link (oldinode : ℕ)
deriving DecidableEq

/-- The call makes a new inode. -/
def CreateKind.newInode : CreateKind → Bool
  | .link _ => false
  | _ => true

/-- A call; `permission(dir, MAY_WRITE)` is `permitted`. -/
structure CreateCall where
  kind : CreateKind
  dir : ℕ
  basename : List UInt8
  permitted : Bool
deriving DecidableEq

inductive CreatePc where
  /-- In `bread` of `find_entry`. -/
  | searching (name : List UInt8) (entries block : ℕ)
  /-- In `new_inode`, or what `sys_mkdir` does for the new directory. -/
  | allocating
  /-- In `bread` of `add_entry`. -/
  | adding (inode block : ℕ)
  /-- In the `iput` before the return; `created` if the name was added. -/
  | returning (created : Bool)
deriving DecidableEq

structure Names (τ : Type) where
  dirs : ℕ → List DirEntry
  /-- The inode numbers in use. -/
  inodes : List ℕ
  root : τ → ℕ
  imount : ℕ → Option ℕ
  task : τ → Option (CreateCall × CreatePc)
  /-- The names created by calls with `O_EXCL` that have returned. -/
  created : List (ℕ × List UInt8)

inductive CreateAction (τ : Type) where
  | call (t : τ) (call : CreateCall)
  /-- A block has been read in `find_entry`. -/
  | read (t : τ)
  /-- The inode number for the new entry, if there is one. -/
  | alloc (t : τ) (inode : Option ℕ)
  /-- A block has been read in `add_entry`; `space` if `create_block` finds one. -/
  | add (t : τ) (space : Bool)
  | ret (t : τ)

namespace Names

variable {τ : Type} [DecidableEq τ] (s : Names τ) (t : τ)

def setTask (x : Option (CreateCall × CreatePc)) : Names τ :=
  { s with task := Function.update s.task t x }

/-- The start of `find_entry`.  The number of entries is taken before `..` leads
out of a mounted root. -/
def findEntry (c : CreateCall) : Names τ :=
  let entries := (s.dirs c.dir).length
  let name := c.basename.take NAME_LEN
  if name = dotDot then
    if c.dir = s.root t then s.setTask t (some (c, .searching dot entries 0))
    else
      match s.imount c.dir with
      | some dir => s.setTask t (some ({ c with dir }, .searching name entries 0))
      | none => s.setTask t (some (c, .searching name entries 0))
  else s.setTask t (some (c, .searching name entries 0))

/-- The checks before `find_entry`. -/
def startCall (c : CreateCall) : Names τ :=
  if c.basename = [] then s.setTask t (some (c, .returning false))
  else
    match c.kind with
    | .openNamei _ => s.findEntry t c
    | _ => if c.permitted then s.findEntry t c else s.setTask t (some (c, .returning false))

/-- What follows a `find_entry` that found nothing. -/
def notFound (c : CreateCall) : Names τ :=
  match c.kind with
  | .openNamei _ =>
      if c.permitted then s.setTask t (some (c, .allocating))
      else s.setTask t (some (c, .returning false))
  | .link oldinode => s.setTask t (some (c, .adding oldinode 0))
  | _ => s.setTask t (some (c, .allocating))

def search (c : CreateCall) (name : List UInt8) (entries block : ℕ) : Names τ :=
  match findInBlock (s.dirs c.dir) name entries block with
  | some _ => s.setTask t (some (c, .returning false))
  | none =>
      if DIR_ENTRIES_PER_BLOCK * (block + 1) < entries then
        s.setTask t (some (c, .searching name entries (block + 1)))
      else s.notFound t c

/-- The new inode. -/
def allocated (c : CreateCall) (inode : ℕ) : Names τ :=
  { s with inodes := inode :: s.inodes }.setTask t (some (c, .adding inode 0))

/-- The entries of a new directory. -/
def newEntries (c : CreateCall) (inode : ℕ) : Names τ :=
  match c.kind with
  | .mkdir =>
      { s with dirs := Function.update s.dirs inode [⟨inode, padName dot⟩, ⟨c.dir, padName dotDot⟩] }
  | _ => s

/-- `iput` of the new inode, after its last link is gone. -/
def dropInode (c : CreateCall) (inode : ℕ) : Names τ :=
  if c.kind.newInode then { s with inodes := s.inodes.erase inode } else s

/-- `add_entry` in a block, and the write of the inode number after it. -/
def addEntry (c : CreateCall) (inode block : ℕ) (space : Bool) : Names τ :=
  match freeInBlock (s.dirs c.dir) block with
  | some i =>
      let dir := setEntry (s.dirs c.dir) i ⟨inode, padName c.basename⟩
      let s := { s with dirs := Function.update s.dirs c.dir dir }
      (s.newEntries c inode).setTask t (some (c, .returning true))
  | none =>
      if space then s.setTask t (some (c, .adding inode (block + 1)))
      else (s.dropInode c inode).setTask t (some (c, .returning false))

def leave (c : CreateCall) (created : Bool) : Names τ :=
  let s := s.setTask t none
  if created ∧ c.kind = .openNamei true then
    { s with created := (c.dir, padName c.basename) :: s.created }
  else s

/-- An action that is not possible changes nothing. -/
def next (s : Names τ) : CreateAction τ → Names τ
  | .call t c =>
      match s.task t with
      | none => if s.dirs c.dir = [] then s else s.startCall t c
      | some _ => s
  | .read t =>
      match s.task t with
      | some (c, .searching name entries block) => s.search t c name entries block
      | _ => s
  | .alloc t inode =>
      match s.task t, inode with
      | some (c, .allocating), some inode =>
          if inode = 0 ∨ inode ∈ s.inodes then s else s.allocated t c inode
      | some (c, .allocating), none => s.setTask t (some (c, .returning false))
      | _, _ => s
  | .add t space =>
      match s.task t with
      | some (c, .adding inode block) => s.addEntry t c inode block space
      | _ => s
  | .ret t =>
      match s.task t with
      | some (c, .returning created) => s.leave t c created
      | _ => s

/-- No two entries in use of a directory have one name. -/
def UniqueNames (dir : List DirEntry) : Prop :=
  dir.Pairwise fun de de' => de.inode ≠ 0 → de'.inode ≠ 0 → de.name ≠ de'.name

instance (dir : List DirEntry) : Decidable (UniqueNames dir) :=
  inferInstanceAs (Decidable (dir.Pairwise _))

/-- Names are unique in every directory, and of the calls with `O_EXCL` for one
name at most one has created it. -/
def Unique (s : Names τ) : Prop := (∀ d, UniqueNames (s.dirs d)) ∧ s.created.Nodup

/-- A call that has looked at the entry `i` already, or will not. -/
def Missed (i : ℕ) : CreatePc → Prop
  | .searching _ entries block => i < DIR_ENTRIES_PER_BLOCK * block ∨ entries ≤ i
  | .allocating => True
  | .adding _ _ => True
  | .returning _ => False

instance (i : ℕ) : ∀ pc, Decidable (Missed i pc)
  | .searching _ _ _ => inferInstanceAs (Decidable (_ ∨ _))
  | .allocating => isTrue trivial
  | .adding _ _ => isTrue trivial
  | .returning _ => isFalse fun h => h

/-- The call and the entry that `add_entry` takes when its block has been read. -/
def adds (s : Names τ) (t : τ) : Option (CreateCall × ℕ) :=
  match s.task t with
  | some (c, .adding _ block) => (freeInBlock (s.dirs c.dir) block).map fun i => (c, i)
  | _ => none

/-- Another call for the same name has missed the entry `i`. -/
def Rival (s : Names τ) (c : CreateCall) (i : ℕ) (u : τ) : Prop :=
  ∃ x ∈ s.task u, x.1.dir = c.dir ∧ padName x.1.basename = padName c.basename ∧ Missed i x.2

instance (s : Names τ) (c : CreateCall) (i : ℕ) (u : τ) : Decidable (s.Rival c i u) :=
  Option.decidableExistsMem (s.task u)

/-- No name is added that another call has missed, and may add too. -/
def NoneMissed (s : Names τ) : CreateAction τ → Prop
  | .add t _ => ∀ x ∈ s.adds t, ∀ u ≠ t, ¬s.Rival x.1 x.2 u
  | _ => True

instance [Fintype τ] (s : Names τ) : ∀ a, Decidable (s.NoneMissed a)
  | .add t _ => Option.decidableForallMem (s.adds t)
  | .call _ _ => isTrue trivial
  | .read _ => isTrue trivial
  | .alloc _ _ => isTrue trivial
  | .ret _ => isTrue trivial

end Names

end MyJavaExample.Fs
