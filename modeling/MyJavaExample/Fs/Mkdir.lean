import MyJavaExample.Fs.Inode
import MyJavaExample.Fs.Links

/-!
# `sys_mkdir` and the zones of the device

In `Volume.sysMkdir` it is a condition on the device whether there is a block for the
new directory and for its entry.  Here the calls of `new_block`, `free_block`,
`create_block` and `truncate` are made.  The entries of a directory are still those of
the volume: nothing reads them from a block.

An exit of `sys_mkdir` takes back by hand what the call has done so far.  `iput` gives
back the zones too, when the inode has a mode already.
-/

namespace MyJavaExample.Fs

open Lib

/-! ## The model -/

structure FileSystem where
  volume : Volume
  inode : ℕ → Inode
  device : Device

namespace FileSystem

variable (s : FileSystem) (e : Env)

def setVolume (volume : Volume) : FileSystem := { s with volume := volume }

def setInode (n : ℕ) (i : Inode) : FileSystem := { s with inode := Function.update s.inode n i }

def setDevice (device : Device) : FileSystem := { s with device := device }

def setLinks (n : ℕ) (nlinks : UInt8) : FileSystem := s.setVolume (s.volume.setLinks n nlinks)

/-- `memset` of an inode. -/
def noInode : Inode := ⟨0, 0, fun _ => 0, false⟩

/-- `iput`: the last reference to an inode without links frees its zones. -/
def iput (n : ℕ) : Except String FileSystem :=
  if s.volume.count n = 1 ∧ s.volume.nlinks n = 0 then do
    let (_, device) ← truncate (s.inode n) s.device
    let volume ← s.volume.iput n
    pure (((s.setDevice device).setInode n noInode).setVolume volume)
  else do
    let volume ← s.volume.iput n
    pure (s.setVolume volume)

/-- The entry `k` of `dir` gets the name and the number. -/
def writeEntry (dir k : ℕ) (name : List UInt8) (n : ℕ) : FileSystem :=
  s.setVolume (s.volume.writeEntry dir k ⟨n, padName name⟩)

/-- `add_entry`, and the write of the inode number after it: whether there is room, and
what it leaves. -/
def addEntry (dir : ℕ) (name : List UInt8) (n : ℕ) : Except String (Bool × FileSystem) :=
  if name.take NAME_LEN = [] ∨ e.readable dir = false then pure (false, s)
  else
    match (s.volume.entries dir).findIdx? (·.inode = 0) with
    | some k => pure (true, s.writeEntry dir k name n)
    | none => do
        let k := (s.volume.entries dir).length
        let size := (k + 1) * 16
        if k % DIR_ENTRIES_PER_BLOCK ≠ 0 then
          let s := s.setInode dir { s.inode dir with size := size, dirt := true }
          pure (true, s.writeEntry dir k name n)
        else
          let (block, i, device) ← createBlock (s.inode dir) (k / DIR_ENTRIES_PER_BLOCK : ℕ) s.device
          let s := s.setDevice device
          if block = 0 then pure (false, s.setInode dir i)
          else
            let s := s.setInode dir { i with size := size, dirt := true }
            pure (true, s.writeEntry dir k name n)

/-- `I_DIRECTORY | (mode & 0777 & ~current->umask)`. -/
def dirMode (mode umask : UInt16) : UInt16 := S_IFDIR ||| (mode &&& 0o777 &&& ~~~umask)

/-- `sys_mkdir` up to `dir->i_nlinks++`: the error, or the directory that gets a link and
the new one.  What comes after does not fail. -/
def mkdirEntry (pathname : List UInt8) (mode umask : UInt16) :
    Except String ((ℤ ⊕ ℕ × ℕ) × FileSystem) :=
  if e.suser = false then pure (.inl (-EPERM), s)
  else do
    let (found, volume) ← s.volume.dirNamei e pathname
    let s := s.setVolume volume
    match found with
    | none => pure (.inl (-ENOENT), s)
    | some (dir, basename) =>
        let refuse := fun (s : FileSystem) (errno : ℤ) => do
          let s ← s.iput dir
          pure (.inl (-errno), s)
        if basename = [] then refuse s ENOENT
        else if s.volume.permission dir e.mayWrite = false then refuse s EPERM
        else
          match s.volume.findEntry e dir basename with
          | some _ => refuse s EEXIST
          | none =>
              match s.volume.newInode with
              | none => refuse s ENOSPC
              | some (n, volume) => do
                  let s := (s.setVolume volume).setInode n { noInode with size := 32, dirt := true }
                  let (block, device) ← s.device.newBlock
                  let s := s.setDevice device
                  if block = 0 then do
                    let s ← s.iput dir
                    let s ← (s.setLinks n (s.volume.nlinks n - 1)).iput n
                    pure (.inl (-ENOSPC), s)
                  else
                    let s := s.setInode n ((s.inode n).setZone 0 block)
                    if e.blockReadable = false then do
                      let s ← s.iput dir
                      let device ← s.device.freeBlock block
                      let s ← ((s.setDevice device).setLinks n (s.volume.nlinks n - 1)).iput n
                      pure (.inl (-ERROR), s)
                    else do
                      let s := s.setVolume ((s.volume.setInode n ⟨true, 2⟩).setEntries n
                        [⟨n, padName dot⟩, ⟨dir, padName dotDot⟩])
                      let s := s.setInode n { s.inode n with mode := dirMode mode umask }
                      let (added, s) ← s.addEntry e dir basename n
                      if added = false then do
                        let s ← s.iput dir
                        let device ← s.device.freeBlock block
                        let s ← ((s.setDevice device).setLinks n 0).iput n
                        pure (.inl (-ENOSPC), s)
                      else pure (.inr (dir, n), s)

def sysMkdir (pathname : List UInt8) (mode umask : UInt16) : Except String (ℤ × FileSystem) := do
  let (res, s) ← s.mkdirEntry e pathname mode umask
  match res with
  | .inl r => pure (r, s)
  | .inr (dir, n) => do
      let s ← (s.setLinks dir (s.volume.nlinks dir + 1)).iput dir
      let s ← s.iput n
      pure (0, s)

end FileSystem

end MyJavaExample.Fs
