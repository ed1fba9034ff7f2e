import MyJavaExample.Fs.BlockMap
import MyJavaExample.Fs.Directory

/-!
# Scans of a directory: `find_entry`, `add_entry`, `empty_dir` in `fs/namei.c`

The three functions walk over the entries of a directory and read its blocks one
after the other.  `bh` is the block whose buffer they hold, and `de` the entry in
it; a use of a buffer pointer that is `NULL` is an error here.

A block of the directory that is missing or that cannot be read is skipped.  Then
`find_entry` and `add_entry` have no buffer, but they look at `b_data` of it; and
`empty_dir` releases the buffer of the block before once more.
-/

namespace MyJavaExample.Fs

open Lib

/-- Entry `i` of a directory block. -/
def Block.dirEntry (b : Block) (i : ℕ) : DirEntry where
  inode := b.short (8 * i)
  name := (List.range NAME_LEN).map fun k => b (16 * i + 2 + k)

def SIZEOF_DIR_ENTRY : ℕ := 16

/-! ## `find_entry` -/

/-- The loop of `find_entry`: the buffer and the entry that was found. -/
def findLoop (inode : Inode) (name : List UInt8) (entries : ℕ) :
    ℕ → ℕ → Option ℕ → ℕ → Device → Except String (Option (ℕ × ℕ) × Device)
  | 0, _, _, _, d => pure (none, d)
  | n + 1, i, bh, de, d =>
      if i < entries then
        match bh with
        | none => throw "null pointer"
        | some b =>
            let look := fun b de d =>
              if ((d.data b).dirEntry de).matches name then pure (some (b, de), d)
              else findLoop inode name entries n (i + 1) (some b) (de + 1) d
            if DIR_ENTRIES_PER_BLOCK ≤ de then do
              let d ← d.brelse b
              let (block, _, d) ← bmap inode (i / DIR_ENTRIES_PER_BLOCK : ℕ) d
              if block = 0 then findLoop inode name entries n (i + DIR_ENTRIES_PER_BLOCK) none de d
              else
                match d.bread block with
                | none => findLoop inode name entries n (i + DIR_ENTRIES_PER_BLOCK) none de d
                | some d => look block 0 d
            else look b de d
      else
        match bh with
        | none => pure (none, d)
        | some b => do pure (none, ← d.brelse b)

/-- The name that is looked for and the directory it is looked for in: `..` stays in
the root of the task, and leads from a mounted root to the directory that it
covers.  The mounted root itself is in use elsewhere. -/
def dotDotStart (isRoot : Bool) (covered : Option (Inode × Device)) (name : List UInt8)
    (inode : Inode) (d : Device) : List UInt8 × Inode × Device :=
  if name ≠ dotDot then (name, inode, d)
  else if isRoot then (dot, inode, d)
  else
    match covered with
    | none => (name, inode, d)
    | some (inode, d) => (name, inode, d)

/-- `find_entry` in the directory that it has got to. -/
def findIn (name : List UInt8) (entries : ℕ) (inode : Inode) (d : Device) :
    Except String (Option (ℕ × ℕ) × Device) :=
  if inode.zone 0 = 0 then pure (none, d)
  else
    match d.bread (inode.zone 0) with
    | none => pure (none, d)
    | some d => findLoop inode name entries (entries + 1) 0 (some (inode.zone 0)) 0 d

/-- `find_entry`; the directory is the one that was searched. -/
def findEntry (isRoot : Bool) (covered : Option (Inode × Device)) (name : List UInt8)
    (inode : Inode) (d : Device) : Except String (Option (ℕ × ℕ) × Inode × Device) :=
  let name := name.take NAME_LEN
  let entries := inode.size / SIZEOF_DIR_ENTRY
  if name = [] then pure (none, inode, d)
  else do
    let (name, inode, d) := dotDotStart isRoot covered name inode d
    let (bh, d) ← findIn name entries inode d
    pure (bh, inode, d)

/-! ## `add_entry` -/

/-- A round of `add_entry` once the buffer is there, at the entry `i`; `next` is the
next round. -/
def addLook (name : List UInt8) (i b de : ℕ) (inode : Inode) (d : Device)
    (next : Inode → Device → Except String (Option (ℕ × ℕ) × Inode × Device)) :
    Except String (Option (ℕ × ℕ) × Inode × Device) :=
  let (inode, d) :=
    if inode.size ≤ i * SIZEOF_DIR_ENTRY then
      ({ inode with size := (i + 1) * SIZEOF_DIR_ENTRY, dirt := true },
        d.setData b ((d.data b).setShort (8 * de) 0))
    else (inode, d)
  if ((d.data b).dirEntry de).inode = 0 then
    pure (some (b, de), inode, d.setData b
      ((d.data b).write (16 * de + 2) NAME_LEN fun k => (padName name).getD k 0))
  else next inode d

/-- The loop of `add_entry`. -/
def addLoop (name : List UInt8) :
    ℕ → ℕ → Option ℕ → ℕ → Inode → Device → Except String (Option (ℕ × ℕ) × Inode × Device)
  | 0, _, _, _, inode, d => pure (none, inode, d)
  | n + 1, i, bh, de, inode, d =>
      match bh with
      | none => throw "null pointer"
      | some b =>
          let look := fun b de inode d => addLook name i b de inode d
            fun inode d => addLoop name n (i + 1) (some b) (de + 1) inode d
          if DIR_ENTRIES_PER_BLOCK ≤ de then do
            let d ← d.brelse b
            let (block, inode, d) ← createBlock inode (i / DIR_ENTRIES_PER_BLOCK : ℕ) d
            if block = 0 then pure (none, inode, d)
            else
              match d.bread block with
              | none => addLoop name n (i + DIR_ENTRIES_PER_BLOCK) none de inode d
              | some d => look block 0 inode d
          else look b de inode d

def addEntry (name : List UInt8) (inode : Inode) (d : Device) :
    Except String (Option (ℕ × ℕ) × Inode × Device) :=
  let name := name.take NAME_LEN
  if name = [] then pure (none, inode, d)
  else if inode.zone 0 = 0 then pure (none, inode, d)
  else
    match d.bread (inode.zone 0) with
    | none => pure (none, inode, d)
    | some d =>
        -- Every round but the last one is for an entry within the directory.
        addLoop name (inode.size / SIZEOF_DIR_ENTRY + 3) 0 (some (inode.zone 0)) 0 inode d

/-! ## `empty_dir` -/

/-- The loop of `empty_dir`. -/
def emptyLoop (inode : Inode) (len : ℕ) : ℕ → ℕ → ℕ → ℕ → Device → Except String (Bool × Device)
  | 0, _, _, _, d => pure (true, d)
  | n + 1, nr, bh, de, d =>
      if nr < len then
        let look := fun bh de (d : Device) =>
          if ((d.data bh).dirEntry de).inode ≠ 0 then do pure (false, ← d.brelse bh)
          else emptyLoop inode len n (nr + 1) bh (de + 1) d
        if DIR_ENTRIES_PER_BLOCK ≤ de then do
          let d ← d.brelse bh
          let (block, _, d) ← bmap inode (nr / DIR_ENTRIES_PER_BLOCK : ℕ) d
          -- The buffer that has been released stays in `bh`.
          if block = 0 then emptyLoop inode len n (nr + DIR_ENTRIES_PER_BLOCK) bh de d
          else
            match d.bread block with
            | none => pure (false, d)
            | some d => look block 0 d
        else look bh de d
      else do pure (true, ← d.brelse bh)

/-- The first entries are those of the directory `num` itself and of its parent. -/
def startsWithDots (num : ℕ) (b : Block) : Prop :=
  (b.dirEntry 0).inode = num ∧ (b.dirEntry 1).inode ≠ 0 ∧
    (b.dirEntry 0).name.takeWhile (· ≠ 0) = dot ∧ (b.dirEntry 1).name.takeWhile (· ≠ 0) = dotDot

instance (num : ℕ) (b : Block) : Decidable (startsWithDots num b) :=
  inferInstanceAs (Decidable (_ ∧ _ ∧ _ ∧ _))

def emptyDir (num : ℕ) (inode : Inode) (d : Device) : Except String (Bool × Device) :=
  let len := inode.size / SIZEOF_DIR_ENTRY
  if len < 2 ∨ inode.zone 0 = 0 then pure (false, d)
  else
    match d.bread (inode.zone 0) with
    | none => pure (false, d)
    | some d =>
        if ¬startsWithDots num (d.data (inode.zone 0)) then pure (false, d)
        else emptyLoop inode len len 2 (inode.zone 0) 2 d

end MyJavaExample.Fs
