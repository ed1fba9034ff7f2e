import MyJavaExample.Fs.Directory
import MyJavaExample.Fs.FileTable

/-!
# Links: the calls that make and remove names, in `fs/namei.c`

`open_namei` with `O_CREAT`, `sys_link`, `sys_unlink`, `sys_mkdir` and `sys_rmdir`
on a mounted device, one call at a time.  A directory is the list of its entries,
free ones included.  `inode` has the inodes whose bit is set in the map, and `count`
their `i_count`, with 0 for an inode that is not in memory.  The number of links is
an `unsigned char`.

`Env` is what else a call depends on: the process, and what the device has room for.
The blocks of a directory after the first one can be read, and there is a free slot
for an inode that is wanted.  A number that is not in use is not followed.
-/

namespace MyJavaExample.Fs

def ENOENT : ℤ := 2
def EACCES : ℤ := 13
def EEXIST : ℤ := 17
def ENOTDIR : ℤ := 20
def EISDIR : ℤ := 21
def ENOSPC : ℤ := 28
def ENOTEMPTY : ℤ := 39
def ERROR : ℤ := 99

/-! ## Inodes -/

/-- What the calls read of an inode: `S_ISDIR(i_mode)` and `i_nlinks`. -/
structure LinkInode where
  dir : Bool
  nlinks : UInt8
deriving DecidableEq

structure Volume where
  ninodes : ℕ
  inode : ℕ → Option LinkInode
  entries : ℕ → List DirEntry
  count : ℕ → ℕ

/-- The process that calls, and what the device has room for. -/
structure Env where
  root : ℕ
  pwd : ℕ
  suser : Bool
  /-- `permission` by the mode and the owner of an inode. -/
  mayExec : ℕ → Bool
  mayWrite : ℕ → Bool
  mayOpen : ℕ → Bool
  /-- The test of `S_ISVTX` for a directory and an inode in it. -/
  sticky : ℕ → ℕ → Bool
  /-- `bread` of the first block of a directory. -/
  readable : ℕ → Bool
  /-- `create_block` finds a block. -/
  space : Bool
  /-- `new_block` finds a block for a new directory, and it can be read. -/
  block : Bool
  blockReadable : Bool

namespace Volume

variable (s : Volume) (e : Env)

def nlinks (n : ℕ) : UInt8 := ((s.inode n).map LinkInode.nlinks).getD 0

def isDir (n : ℕ) : Bool := ((s.inode n).map LinkInode.dir).getD false

def setInode (n : ℕ) (i : LinkInode) : Volume :=
  { s with inode := Function.update s.inode n (some i) }

def setLinks (n : ℕ) (nlinks : UInt8) : Volume := s.setInode n ⟨s.isDir n, nlinks⟩

def setEntries (d : ℕ) (l : List DirEntry) : Volume :=
  { s with entries := Function.update s.entries d l }

/-- The entry `k` of the directory `d` is written. -/
def writeEntry (d k : ℕ) (de : DirEntry) : Volume :=
  s.setEntries d (setEntry (s.entries d) k de)

def setCount (n count : ℕ) : Volume := { s with count := Function.update s.count n count }

/-- `i_count++`. -/
def hold (n : ℕ) : Volume := s.setCount n (s.count n + 1)

def iget (n : ℕ) : Except String Volume :=
  match s.inode n with
  | none => throw "no inode"
  | some _ => pure (s.hold n)

/-- `truncate` and `free_inode`. -/
def freeInode (n : ℕ) : Volume where
  ninodes := s.ninodes
  inode := Function.update s.inode n none
  entries := Function.update s.entries n []
  count := Function.update s.count n 0

def iput (n : ℕ) : Except String Volume :=
  if s.count n = 0 then throw "iput: trying to free free inode"
  else if 1 < s.count n then pure (s.setCount n (s.count n - 1))
  else if s.nlinks n = 0 then pure (s.freeInode n)
  else pure (s.setCount n (s.count n - 1))

/-- `new_inode` takes the first number that is free. -/
def newInode : Option (ℕ × Volume) :=
  ((List.range' 1 s.ninodes).find? fun n => (s.inode n).isNone).map fun n =>
    (n, ((s.setInode n ⟨false, 1⟩).setEntries n []).setCount n 1)

def permission (n : ℕ) (may : ℕ → Bool) : Bool := s.nlinks n ≠ 0 && may n

/-! ## Entries -/

/-- `find_entry`: the place of the entry and the entry. -/
def findEntry (d : ℕ) (name : List UInt8) : Option (ℕ × DirEntry) :=
  let name := name.take NAME_LEN
  if name = [] ∨ e.readable d = false then none
  else
    let name := if name = dotDot ∧ d = e.root then dot else name
    ((s.entries d).findIdx? (·.matches name)).bind fun k =>
      (s.entries d)[k]?.map fun de => (k, de)

/-- `add_entry`, and the write of the inode number after it. -/
def addEntry (d : ℕ) (name : List UInt8) (inode : ℕ) : Option Volume :=
  if name.take NAME_LEN = [] ∨ e.readable d = false then none
  else
    match (s.entries d).findIdx? (·.inode = 0) with
    | some k => some (s.writeEntry d k ⟨inode, padName name⟩)
    | none =>
        if (s.entries d).length % DIR_ENTRIES_PER_BLOCK = 0 ∧ e.space = false then none
        else some (s.writeEntry d (s.entries d).length ⟨inode, padName name⟩)

/-- `de->inode = 0` -/
def clearEntry (d k : ℕ) (de : DirEntry) : Volume :=
  s.writeEntry d k { de with inode := 0 }

/-- `empty_dir`. -/
def emptyDir (n : ℕ) : Bool :=
  match s.entries n with
  | de₀ :: de₁ :: rest =>
      e.readable n && de₀.inode = n && de₁.inode ≠ 0 && de₀.name.takeWhile (· ≠ 0) = dot &&
        de₁.name.takeWhile (· ≠ 0) = dotDot && rest.all (·.inode = 0)
  | _ => false

/-! ## Paths -/

/-- The loop of `get_dir` over the names before the last one, in the directory `n`. -/
def walk : List (List UInt8) → ℕ → Volume → Except String (Option ℕ × Volume)
  | names, n, s =>
      if s.isDir n = false ∨ s.permission n e.mayExec = false then do
        let s ← s.iput n
        pure (none, s)
      else
        match names with
        | [] => pure (some n, s)
        | name :: names =>
            match s.findEntry e n name with
            | none => do
                let s ← s.iput n
                pure (none, s)
            | some (_, de) => do
                let s ← s.iput n
                let s ← s.iget de.inode
                walk names de.inode s

/-- `dir_namei`: the directory and the last name. -/
def dirNamei (pathname : List UInt8) : Except String (Option (ℕ × List UInt8) × Volume) :=
  if s.count e.root = 0 then throw "No root inode"
  else if s.count e.pwd = 0 then throw "No cwd inode"
  else
    match pathname with
    | [] => pure (none, s)
    | c :: rest => do
        let (start, names) :=
          if c = 47 then (e.root, rest.splitOn 47) else (e.pwd, (c :: rest).splitOn 47)
        let (dir, s) ← walk e names.dropLast start (s.hold start)
        pure (dir.map fun d => (d, names.getLast?.getD []), s)

def namei (pathname : List UInt8) : Except String (Option ℕ × Volume) := do
  let (found, s) ← s.dirNamei e pathname
  match found with
  | none => pure (none, s)
  | some (dir, basename) =>
      if basename = [] then pure (some dir, s)
      else
        match s.findEntry e dir basename with
        | none => do
            let s ← s.iput dir
            pure (none, s)
        | some (_, de) => do
            let s ← s.iput dir
            let s ← s.iget de.inode
            pure (some de.inode, s)

/-! ## Calls -/

/-- `iput(dir)` before an error. -/
def fail (dir : ℕ) (errno : ℤ) : Except String (ℤ × Volume) := do
  let s ← s.iput dir
  pure (-errno, s)

/-- `iput` of two inodes before an error. -/
def fail₂ (n n' : ℕ) (errno : ℤ) : Except String (ℤ × Volume) := do
  let s ← s.iput n
  s.fail n' errno

/-- `open_namei` with `O_CREAT`; `excl` is `O_EXCL`, and `writes` that the mode is
not read-only.  The inode stays in use. -/
def openNamei (pathname : List UInt8) (excl writes : Bool) : Except String (ℤ × Volume) := do
  let (found, s) ← s.dirNamei e pathname
  match found with
  | none => pure (-ENOENT, s)
  | some (dir, basename) =>
      if basename = [] then s.fail dir EISDIR
      else
        match s.findEntry e dir basename with
        | none =>
            if s.permission dir e.mayWrite = false then s.fail dir EACCES
            else
              match s.newInode with
              | none => s.fail dir ENOSPC
              | some (n, s) =>
                  match s.addEntry e dir basename n with
                  | none => (s.setLinks n (s.nlinks n - 1)).fail₂ n dir ENOSPC
                  | some s => do
                      let s ← s.iput dir
                      pure (0, s)
        | some (_, de) => do
            let s ← s.iput dir
            if excl then pure (-EEXIST, s)
            else
              let s ← s.iget de.inode
              if (s.isDir de.inode && writes) = true ∨ s.permission de.inode e.mayOpen = false then
                s.fail de.inode EPERM
              else pure (0, s)

/-- `sys_link` up to `oldinode->i_nlinks++`: the result, or the inode that gets a
link, which has its entry then. -/
def linkEntry (oldname newname : List UInt8) : Except String ((ℤ ⊕ ℕ) × Volume) := do
  let (old, s) ← s.namei e oldname
  match old with
  | none => pure (.inl (-ENOENT), s)
  | some oldinode =>
      let refuse := fun (s : Volume) (errno : ℤ) => do
        let s ← s.iput oldinode
        pure (.inl (-errno), s)
      let refuse₂ := fun (s : Volume) (dir : ℕ) (errno : ℤ) => do
        let s ← s.iput dir
        refuse s errno
      if s.isDir oldinode = true then refuse s EPERM
      else
        let (found, s) ← s.dirNamei e newname
        match found with
        | none => refuse s EACCES
        | some (dir, basename) =>
            if basename = [] then refuse₂ s dir EPERM
            else if s.permission dir e.mayWrite = false then refuse₂ s dir EACCES
            else
              match s.findEntry e dir basename with
              | some _ => refuse₂ s dir EEXIST
              | none =>
                  match s.addEntry e dir basename oldinode with
                  | none => refuse₂ s dir ENOSPC
                  | some s => do
                      let s ← s.iput dir
                      pure (.inr oldinode, s)

def sysLink (oldname newname : List UInt8) : Except String (ℤ × Volume) := do
  let (res, s) ← s.linkEntry e oldname newname
  match res with
  | .inl r => pure (r, s)
  | .inr oldinode => do
      let s ← (s.setLinks oldinode (s.nlinks oldinode + 1)).iput oldinode
      pure (0, s)

def sysUnlink (pathname : List UInt8) : Except String (ℤ × Volume) := do
  let (found, s) ← s.dirNamei e pathname
  match found with
  | none => pure (-ENOENT, s)
  | some (dir, basename) =>
      if basename = [] then s.fail dir ENOENT
      else if s.permission dir e.mayWrite = false then s.fail dir EPERM
      else
        match s.findEntry e dir basename with
        | none => s.fail dir ENOENT
        | some (k, de) => do
            let inode := de.inode
            let s ← s.iget inode
            if e.sticky dir inode = true then s.fail₂ dir inode EPERM
            else if s.isDir inode = true then s.fail₂ inode dir EPERM
            else
              -- "Deleting nonexistent file"
              let s := if s.nlinks inode = 0 then s.setLinks inode 1 else s
              let s := s.clearEntry dir k de
              let s ← (s.setLinks inode (s.nlinks inode - 1)).iput inode
              let s ← s.iput dir
              pure (0, s)

/-- `sys_mkdir` up to `dir->i_nlinks++`: the result, or the directory that gets a
link and the new one, which has its entry then. -/
def mkdirEntry (pathname : List UInt8) : Except String ((ℤ ⊕ ℕ × ℕ) × Volume) :=
  if e.suser = false then pure (.inl (-EPERM), s)
  else do
    let (found, s) ← s.dirNamei e pathname
    match found with
    | none => pure (.inl (-ENOENT), s)
    | some (dir, basename) =>
        let refuse := fun (s : Volume) (errno : ℤ) => do
          let s ← s.iput dir
          pure (.inl (-errno), s)
        -- the new inode has no mode yet, so nothing is truncated
        let drop := fun (n : ℕ) (s : Volume) (errno : ℤ) => do
          let s ← s.iput dir
          let s ← (s.setLinks n (s.nlinks n - 1)).iput n
          pure (.inl (-errno), s)
        if basename = [] then refuse s ENOENT
        else if s.permission dir e.mayWrite = false then refuse s EPERM
        else
          match s.findEntry e dir basename with
          | some _ => refuse s EEXIST
          | none =>
              match s.newInode with
              | none => refuse s ENOSPC
              | some (n, s) =>
                  if e.block = false then drop n s ENOSPC
                  else if e.blockReadable = false then drop n s ERROR
                  else
                    let s := (s.setInode n ⟨true, 2⟩).setEntries n
                      [⟨n, padName dot⟩, ⟨dir, padName dotDot⟩]
                    match s.addEntry e dir basename n with
                    -- the block of the new directory is freed here and in `iput`
                    | none => throw "free_block: bit already cleared"
                    | some s => pure (.inr (dir, n), s)

def sysMkdir (pathname : List UInt8) : Except String (ℤ × Volume) := do
  let (res, s) ← s.mkdirEntry e pathname
  match res with
  | .inl r => pure (r, s)
  | .inr (dir, n) => do
      let s ← (s.setLinks dir (s.nlinks dir + 1)).iput dir
      let s ← s.iput n
      pure (0, s)

def sysRmdir (pathname : List UInt8) : Except String (ℤ × Volume) :=
  if e.suser = false then pure (-EPERM, s)
  else do
    let (found, s) ← s.dirNamei e pathname
    match found with
    | none => pure (-ENOENT, s)
    | some (dir, basename) =>
        if basename = [] then s.fail dir ENOENT
        else if s.permission dir e.mayWrite = false then s.fail dir EPERM
        else
          match s.findEntry e dir basename with
          | none => s.fail dir ENOENT
          | some (k, de) => do
              let inode := de.inode
              let s ← s.iget inode
              if e.sticky dir inode = true then s.fail₂ dir inode EPERM
              else if 1 < s.count inode then s.fail₂ dir inode EPERM
              else if inode = dir then s.fail₂ inode dir EPERM
              else if s.isDir inode = false then s.fail₂ inode dir ENOTDIR
              else if s.emptyDir e inode = false then s.fail₂ inode dir ENOTEMPTY
              else
                let s := (s.clearEntry dir k de).setLinks inode 0
                let s ← (s.setLinks dir (s.nlinks dir - 1)).iput dir
                let s ← s.iput inode
                pure (0, s)

end Volume

/-! ## Runs -/

inductive LinkCall where
  | openNamei (e : Env) (pathname : List UInt8) (excl writes : Bool)
  | link (e : Env) (oldname newname : List UInt8)
  | unlink (e : Env) (pathname : List UInt8)
  | mkdir (e : Env) (pathname : List UInt8)
  | rmdir (e : Env) (pathname : List UInt8)
  /-- `iput` of an inode that has been in use. -/
  | put (n : ℕ)

def LinkCall.run (s : Volume) : LinkCall → Except String (ℤ × Volume)
  | .openNamei e pathname excl writes => s.openNamei e pathname excl writes
  | .link e oldname newname => s.sysLink e oldname newname
  | .unlink e pathname => s.sysUnlink e pathname
  | .mkdir e pathname => s.sysMkdir e pathname
  | .rmdir e pathname => s.sysRmdir e pathname
  | .put n => do
      let s ← s.iput n
      pure (0, s)

namespace Volume

/-- The state after a call.  After a panic nothing happens any more. -/
def next (s : Volume) (c : LinkCall) : Volume :=
  match c.run s with
  | .ok (_, s') => s'
  | .error _ => s

end Volume

end MyJavaExample.Fs
