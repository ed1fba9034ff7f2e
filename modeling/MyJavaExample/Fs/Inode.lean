import MyJavaExample.Fs.Bitmap
import MyJavaExample.Lib.Int32

/-!
# Inodes and their blocks: `fs/inode.c`, `fs/truncate.c`, `fs/file_dev.c`

A mounted device is kept with one buffer for each block, which is what the cache
amounts to when no other task takes a buffer away.  The zone maps are the ones
in `s_zmap`; they are no data zones.  `readable` says for which blocks `bread`
succeeds: a new block is up to date, and so it does not have to be read.  `b_count` is
an `unsigned char`.  A block that is held 255 times has no reference left after one more
`bread`, and then `brelse` panics.

The times of an inode are left out.  Zone numbers are 16 bits wide.
-/

namespace MyJavaExample.Fs

open Lib

/-- `BLOCK_SIZE` bytes. -/
abbrev Block := ℕ → UInt8

def BLOCK_SIZE : ℕ := 1024

namespace Block

/-- `((unsigned short *) b_data)[i]`. -/
def short (b : Block) (i : ℕ) : ℕ := (b (2 * i)).toNat + 256 * (b (2 * i + 1)).toNat

def setShort (b : Block) (i v : ℕ) : Block :=
  Function.update (Function.update b (2 * i) (UInt8.ofNat v)) (2 * i + 1) (UInt8.ofNat (v / 256))

/-- The bytes of `buf` from `off` on, `c` of them. -/
def write (b : Block) (off c : ℕ) (buf : ℕ → UInt8) : Block := fun k =>
  if off ≤ k ∧ k < off + c then buf (k - off) else b k

def zero : Block := fun _ => 0

end Block

/-! ## The device -/

structure Device where
  sb : DSuperBlock
  zmap : ℕ → Option BlockData
  data : ℕ → Block
  count : ℕ → UInt8
  readable : ℕ → Bool

namespace Device

variable (d : Device)

def setCount (b : ℕ) (count : UInt8) : Device := { d with count := Function.update d.count b count }

def setData (b : ℕ) (data : Block) : Device := { d with data := Function.update d.data b data }

def setMap (i : ℕ) (m : BlockData) : Device := { d with zmap := Function.update d.zmap i (some m) }

def setReadable (b : ℕ) : Device := { d with readable := Function.update d.readable b true }

def bread (b : ℕ) : Option Device :=
  if d.readable b then some (d.setCount b (d.count b + 1)) else none

def brelse (b : ℕ) : Except String Device :=
  if d.count b = 0 then throw "Trying to free free buffer"
  else pure (d.setCount b (d.count b - 1))

/-- The loop of `new_block` over the slots from `i` on. -/
def findSlot : ℕ → ℕ → Option (ℕ × BlockData × ℕ)
  | 0, _ => none
  | n + 1, i =>
      match d.zmap i with
      | none => findSlot n (i + 1)
      | some m =>
          let j := findFirstZero m
          if j < 8192 then some (i, m, j) else findSlot n (i + 1)

def newBlock : Except String (ℕ × Device) :=
  match d.findSlot 8 0 with
  | none => pure (0, d)
  | some (i, m, j) =>
      let (res, m) := setBit j m
      if res then throw "new_block: bit already set"
      else
        let d := d.setMap i m
        let j := ZoneDev.zoneBlock d.sb i j
        if d.sb.nzones.toNat ≤ j then pure (0, d)
        else
          let j := ZoneDev.blocknr j
          if d.count j + 1 ≠ 1 then throw "new block: count is != 1"
          else pure (j, (d.setData j .zero).setReadable j)

/-- The part of `free_block` after the buffer of the block has been dropped. -/
def freeBit (block : ℕ) : Except String Device :=
  let block := block + 1 - d.sb.firstdatazone.toNat
  match d.zmap (block / 8192) with
  | none => throw "null pointer"
  | some m =>
      let (res, m) := clearBit (block % 8192) m
      if res then throw "free_block: bit already cleared"
      else pure (d.setMap (block / 8192) m)

def freeBlock (block : ℕ) : Except String Device :=
  if block < d.sb.firstdatazone.toNat ∨ d.sb.nzones.toNat ≤ block then
    throw "trying to free block not in datazone"
  else if d.count block + 1 ≠ 1 then
    -- The reference that `get_hash_table` took is not given back.
    pure (d.setCount block (d.count block + 1))
  else d.freeBit block

end Device

/-! ## Inodes -/

def S_IFMT : UInt16 := 0o170000
def S_IFREG : UInt16 := 0o100000
def S_IFDIR : UInt16 := 0o040000

structure Inode where
  mode : UInt16
  size : ℕ
  zone : ℕ → ℕ
  dirt : Bool

namespace Inode

def setZone (inode : Inode) (i z : ℕ) : Inode :=
  { inode with zone := Function.update inode.zone i z, dirt := true }

end Inode

/-- `if (create && !z) z = new_block(dev)`. -/
def zoneOrNew (create : Bool) (z : ℕ) (d : Device) : Except String (ℕ × Device) :=
  if create ∧ z = 0 then d.newBlock else pure (z, d)

/-- `i_zone[i]`, with a new block where there is none. -/
def inodeZone (create : Bool) (i : ℕ) (inode : Inode) (d : Device) :
    Except String (ℕ × Inode × Device) :=
  if create ∧ inode.zone i = 0 then do
    let (z, d) ← d.newBlock
    let z := z % 65536
    pure (z, if z = 0 then inode else inode.setZone i z, d)
  else pure (inode.zone i, inode, d)

/-- Entry `i` of the indirect block `b`, with a new block where there is none.  An
indirect block that cannot be read has none. -/
def indirect (create : Bool) (b i : ℕ) (d : Device) : Except String (ℕ × Device) :=
  match d.bread b with
  | none => pure (0, d)
  | some d => do
      let (z, d) ← zoneOrNew create ((d.data b).short i) d
      let d := if z = (d.data b).short i then d else d.setData b ((d.data b).setShort i z)
      pure (z, ← d.brelse b)

/-- The number of blocks that `_bmap` can map. -/
def BLOCKS : ℕ := 7 + 512 + 512 * 512

/-- `_bmap`. -/
def bmapOr (create : Bool) (inode : Inode) (block : ℤ) (d : Device) :
    Except String (ℕ × Inode × Device) :=
  if block < 0 then throw "_bmap: block<0"
  else if BLOCKS ≤ block then throw "_bmap: block>big"
  else
    let block := block.toNat
    if block < 7 then inodeZone create block inode d
    else if block - 7 < 512 then do
      let (z, inode, d) ← inodeZone create 7 inode d
      if z = 0 then pure (0, inode, d)
      else
        let (i, d) ← indirect create z (block - 7) d
        pure (i, inode, d)
    else do
      let block := block - 7 - 512
      let (z, inode, d) ← inodeZone create 8 inode d
      if z = 0 then pure (0, inode, d)
      else
        let (i, d) ← indirect create z (block / 512) d
        if i = 0 then pure (0, inode, d)
        else
          let (i, d) ← indirect create i (block % 512) d
          pure (i, inode, d)

def bmap (inode : Inode) (block : ℤ) (d : Device) : Except String (ℕ × Inode × Device) :=
  bmapOr false inode block d

def createBlock (inode : Inode) (block : ℤ) (d : Device) : Except String (ℕ × Inode × Device) :=
  bmapOr true inode block d

/-! ## `truncate` -/

/-- The loops of `free_ind` and `free_dind`: `free` of the entries from `i` on, `n`
of them, of the indirect block `b`. -/
def freeEntries (free : ℕ → Device → Except String Device) (b : ℕ) :
    ℕ → ℕ → Device → Except String Device
  | 0, _, d => pure d
  | n + 1, i, d => do
      let z := (d.data b).short i
      let d ← if z = 0 then pure d else free z d
      freeEntries free b n (i + 1) d

/-- An indirect block: its entries if it can be read, then the block itself. -/
def freeWith (free : ℕ → Device → Except String Device) (block : ℕ) (d : Device) :
    Except String Device :=
  if block = 0 then pure d
  else
    match d.bread block with
    | none => d.freeBlock block
    | some d => do
        let d ← freeEntries free block 512 0 d
        let d ← d.brelse block
        d.freeBlock block

def freeInd (block : ℕ) (d : Device) : Except String Device :=
  freeWith (fun z d => d.freeBlock z) block d

def freeDind (block : ℕ) (d : Device) : Except String Device := freeWith freeInd block d

/-- The direct zones from `i` on, `n` of them. -/
def freeDirect : ℕ → ℕ → Inode → Device → Except String (Inode × Device)
  | 0, _, inode, d => pure (inode, d)
  | n + 1, i, inode, d => do
      if inode.zone i = 0 then freeDirect n (i + 1) inode d
      else
        let d ← d.freeBlock (inode.zone i)
        freeDirect n (i + 1) { inode with zone := Function.update inode.zone i 0 } d

def truncate (inode : Inode) (d : Device) : Except String (Inode × Device) :=
  if ¬(inode.mode &&& S_IFMT = S_IFREG ∨ inode.mode &&& S_IFMT = S_IFDIR) then pure (inode, d)
  else do
    let (inode, d) ← freeDirect 7 0 inode d
    let d ← freeInd (inode.zone 7) d
    let d ← freeDind (inode.zone 8) d
    pure ({ inode with
      zone := Function.update (Function.update inode.zone 7 0) 8 0
      size := 0
      dirt := true }, d)

/-! ## Reading and writing -/

/-- What `file_read` leaves: what is left, `f_pos`, and the bytes it has put into
the buffer. -/
structure ReadResult where
  left : ℤ
  fPos : ℤ
  bytes : List UInt8
  dev : Device

/-- The loop of `file_read`.  Every round reads a byte at least. -/
def fileReadLoop (inode : Inode) : ℕ → ℤ → ℤ → Device → Except String ReadResult
  | 0, left, fPos, d => pure ⟨left, fPos, [], d⟩
  | n + 1, left, fPos, d => do
      if left = 0 then pure ⟨left, fPos, [], d⟩
      else
        let (nr, _, d) ← bmap inode (fPos.tdiv BLOCK_SIZE) d
        let off := fPos.tmod BLOCK_SIZE
        let chars := min (BLOCK_SIZE - off) left
        let next := fun (bytes : List UInt8) (d : Device) => do
          let r ← fileReadLoop inode n (left - chars) (toInt32 (fPos + chars)) d
          pure { r with bytes := bytes ++ r.bytes }
        if nr = 0 then next (List.replicate chars.toNat 0) d
        else
          match d.bread nr with
          | none => pure ⟨left, fPos, [], d⟩
          | some d =>
              let bytes := (List.range chars.toNat).map fun k => d.data nr (off.toNat + k)
              next bytes (← d.brelse nr)

/-- `file_read`: the result and what it leaves. -/
def fileRead (inode : Inode) (fPos count : ℤ) (d : Device) : Except String (ℤ × ReadResult) :=
  if count ≤ 0 then pure (0, ⟨count, fPos, [], d⟩)
  else do
    let r ← fileReadLoop inode count.toNat count fPos d
    pure (if count - r.left ≠ 0 then count - r.left else -99, r)

/-- What `file_write` leaves: the bytes written and the position after them. -/
structure WriteResult where
  i : ℤ
  pos : ℤ
  inode : Inode
  dev : Device

/-- The loop of `file_write`, where `buf` is the buffer. -/
def fileWriteLoop (buf : ℕ → UInt8) (count : ℤ) :
    ℕ → ℤ → ℤ → Inode → Device → Except String WriteResult
  | 0, i, pos, inode, d => pure ⟨i, pos, inode, d⟩
  | n + 1, i, pos, inode, d => do
      if count ≤ i then pure ⟨i, pos, inode, d⟩
      else
        let (block, inode, d) ← createBlock inode (pos.tdiv BLOCK_SIZE) d
        if block = 0 then pure ⟨i, pos, inode, d⟩
        else
          match d.bread block with
          | none => pure ⟨i, pos, inode, d⟩
          | some d =>
              let off := pos.tmod BLOCK_SIZE
              let c := min (BLOCK_SIZE - off) (count - i)
              let pos := toInt32 (pos + c)
              let inode := if (pos % 2 ^ 32).toNat > inode.size then
                { inode with size := (pos % 2 ^ 32).toNat, dirt := true } else inode
              let data := (d.data block).write off.toNat c.toNat fun k => buf (i.toNat + k)
              let d ← (d.setData block data).brelse block
              fileWriteLoop buf count n (i + c) pos inode d

/-- `file_write`: the result, the new `f_pos` and what it leaves. -/
def fileWrite (buf : ℕ → UInt8) (append : Bool) (fPos count : ℤ) (inode : Inode) (d : Device) :
    Except String (ℤ × ℤ × WriteResult) := do
  let start := if append then toInt32 inode.size else fPos
  let r ← fileWriteLoop buf count count.toNat 0 start inode d
  pure (if r.i ≠ 0 then r.i else -1, if append then fPos else r.pos, r)

end MyJavaExample.Fs
