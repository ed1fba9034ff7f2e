import Mathlib.Algebra.Ring.Int.Defs
import MyJavaExample.Lib.Bitmap
import MyJavaExample.Lib.Run

/-!
# The zone bitmap (`fs/bitmap.c`)

A mounted device keeps the buffers of its zone map blocks in `s_zmap`.  A bit
of the map stands for a zone: bit `i` of all maps together for zone
`i + s_firstdatazone - 1`, so that bit 0 stands for no data zone and is set by
`read_super`.

The map buffers are buffers of the cache like those of the data zones.  Nothing
in the superblock keeps a data zone from being a map block; what keeps
`new_block` from clearing one is that their reference counts are not zero.
-/

namespace MyJavaExample.Fs

open Lib

/-- The 1024 bytes of a block in 32-bit words. -/
abbrev BlockData := Bitmap 256 32

/-- `clear_block`: what is left in the block. -/
def clearBlock : BlockData := fun _ => 0

/-! ## Bits -/

/-- `btsl` with `setb`: the bit is set, and its old value is returned. -/
def setBit (nr : ℕ) (addr : BlockData) : Bool × BlockData := (addr.bit nr, addr.insert nr)

/-- `btrl` with `setnb`: the result tells that the bit was clear. -/
def clearBit (nr : ℕ) (addr : BlockData) : Bool × BlockData := (!addr.bit nr, addr.erase nr)

/-- `bsfl`: the lowest bit that is set, or nothing for zero. -/
def bsf (v : BitVec 32) : Option ℕ := (List.range 32).find? fun i => v.getLsbD i

/-- `lodsl`: the word at bit `ecx`. -/
def lods (addr : BlockData) (ecx : ℕ) : BitVec 32 :=
  if h : ecx / 32 < 256 then addr ⟨ecx / 32, h⟩ else 0

/-- The loop of `find_first_zero` from bit `ecx` on, with `n` words to go. -/
def findFirstZeroFrom (addr : BlockData) : ℕ → ℕ → ℕ
  | 0, ecx => ecx
  | n + 1, ecx =>
      match bsf (~~~lods addr ecx) with
      | some edx => ecx + edx
      | none => findFirstZeroFrom addr n (ecx + 32)

def findFirstZero (addr : BlockData) : ℕ := findFirstZeroFrom addr 256 0

theorem bsf_eq_some {v : BitVec 32} {d : ℕ} (h : bsf v = some d) : d < 32 ∧ v.getLsbD d = true :=
  ⟨List.mem_range.1 (List.mem_of_find?_eq_some h), List.find?_some h⟩

/-- Below 8192 the result is a bit that is clear. -/
theorem bit_findFirstZeroFrom {addr : BlockData} {n k : ℕ} (hn : n + k = 256)
    (h : findFirstZeroFrom addr n (32 * k) < 8192) :
    addr.bit (findFirstZeroFrom addr n (32 * k)) = false := by
  induction n generalizing k with
  | zero =>
      simp only [findFirstZeroFrom] at h
      omega
  | succ n ih =>
      simp only [findFirstZeroFrom] at h ⊢
      have hk : k < 256 := by omega
      split at h
      next edx hbsf =>
        obtain ⟨hlt, hbit⟩ := bsf_eq_some hbsf
        have hdiv : (32 * k + edx) / 32 = k := by omega
        have hmod : (32 * k + edx) % 32 = edx := by omega
        have hword : 32 * k / 32 = k := by omega
        simpa [Bitmap.bit, lods, hdiv, hmod, hword, hk, hlt] using hbit
      next hbsf =>
        have hsucc : 32 * k + 32 = 32 * (k + 1) := by omega
        rw [hsucc] at h ⊢
        exact ih (by omega) h

theorem bit_findFirstZero {addr : BlockData} (h : findFirstZero addr < 8192) :
    addr.bit (findFirstZero addr) = false :=
  bit_findFirstZeroFrom (n := 256) (k := 0) rfl h

/-! ## The cache -/

structure Buf where
  count : UInt8
  uptodate : Bool
  dirt : Bool
  data : BlockData

/-- The buffers of the device's blocks. -/
abbrev Buffers := ℕ → Option Buf

namespace Buffers

def update (c : Buffers) (block : ℕ) (bh : Buf) : Buffers := fun b => if b = block then some bh else c b

/-- The cache once the buffer of `victim` has been taken for another block; only
a buffer that nobody uses is taken. -/
def evict (c : Buffers) (victim : Option ℕ) : Buffers := fun b =>
  match c b with
  | some bh => if victim = some b ∧ bh.count = 0 then none else some bh
  | none => none

/-- `getblk` always finds a buffer.  One taken from another block keeps its old
contents `stale`. -/
def getblk (c : Buffers) (victim : Option ℕ) (stale : BlockData) (block : ℕ) : Buf × Buffers :=
  match c block with
  | some bh =>
      let bh := { bh with count := bh.count + 1 }
      (bh, c.update block bh)
  | none =>
      let bh := ⟨1, false, false, stale⟩
      (bh, (c.evict victim).update block bh)

def getHashTable (c : Buffers) (block : ℕ) : Option Buf :=
  (c block).map fun bh => { bh with count := bh.count + 1 }

/-- `brelse` of a buffer in use. -/
def brelse (c : Buffers) (block : ℕ) (bh : Buf) : Buffers :=
  c.update block { bh with count := bh.count - 1 }

/-- `bread`: the buffer of the block with the contents that `disk` has, unless
the buffer is up to date or the block cannot be read. -/
def bread (c : Buffers) (victim : Option ℕ) (disk : ℕ → Option BlockData) (block : ℕ) :
    Option Buffers :=
  let (bh, c) := c.getblk victim clearBlock block
  if bh.uptodate then some c
  else
    match disk block with
    | some data => some (c.update block { bh with uptodate := true, data := data })
    | none => none

/-- The loops of `read_super`: `n` blocks from `block` on. -/
def breadAll (victim : ℕ → Option ℕ) (disk : ℕ → Option BlockData) :
    ℕ → ℕ → Buffers → Option Buffers
  | 0, _, c => some c
  | n + 1, block, c => do
      let c ← c.bread (victim block) disk block
      breadAll victim disk n (block + 1) c

/-- `b_data[0] |= 1` in the buffer of a slot. -/
def setFirst (c : Buffers) (slot : Option ℕ) : Option Buffers := do
  let block ← slot
  let bh ← c block
  pure (c.update block { bh with data := bh.data.insert 0 })

end Buffers

/-! ## The superblock -/

def SUPER_MAGIC : UInt16 := 0x137F

/-- What the functions here read of `struct d_super_block`. -/
structure DSuperBlock where
  imapBlocks : UInt16
  zmapBlocks : UInt16
  firstdatazone : UInt16
  nzones : UInt16
  magic : UInt16

/-- A mounted device. -/
structure ZoneDev where
  sb : DSuperBlock
  cache : Buffers

namespace ZoneDev

/-- The block whose buffer is in slot `i` of `s_imap`. -/
def imap (sb : DSuperBlock) (i : ℕ) : Option ℕ :=
  if i < sb.imapBlocks.toNat then some (2 + i) else none

/-- The block whose buffer is in slot `i` of `s_zmap`. -/
def zmap (sb : DSuperBlock) (i : ℕ) : Option ℕ :=
  if i < sb.zmapBlocks.toNat then some (2 + sb.imapBlocks.toNat + i) else none

/-- The contents of the zone map in slot `i`. -/
def zoneMap (z : ZoneDev) (i : ℕ) : Option BlockData := do
  let block ← zmap z.sb i
  let bh ← z.cache block
  pure bh.data

/-- `read_super`.  The map blocks stay in use as long as the device is
mounted. -/
def readSuper (sb : DSuperBlock) (victim : ℕ → Option ℕ) (disk : ℕ → Option BlockData)
    (c : Buffers) : Option ZoneDev := do
  guard (sb.magic = SUPER_MAGIC)
  let c ← Buffers.breadAll victim disk sb.imapBlocks.toNat 2 c
  let c ← Buffers.breadAll victim disk sb.zmapBlocks.toNat (2 + sb.imapBlocks.toNat) c
  let c ← c.setFirst (imap sb 0)
  let c ← c.setFirst (zmap sb 0)
  pure ⟨sb, c⟩

/-- The loop of `new_block` over the slots from `i` on: the first slot whose map
has a bit that is clear, with its buffer and the bit. -/
def findSlot (z : ZoneDev) : ℕ → ℕ → Option (ℕ × ℕ × Buf × ℕ)
  | 0, _ => none
  | n + 1, i =>
      match zmap z.sb i with
      | none => findSlot z n (i + 1)
      | some block =>
          match z.cache block with
          | none => findSlot z n (i + 1)
          | some bh =>
              let j := findFirstZero bh.data
              if j < 8192 then some (i, block, bh, j) else findSlot z n (i + 1)

/-- The block that a bit stands for, an `int`: bit 0 stands for block -1 if
`s_firstdatazone` is 0. -/
def zoneBlock (sb : DSuperBlock) (i j : ℕ) : ℤ := j + (i * 8192 + sb.firstdatazone.toNat - 1)

/-- The number of a block in the cache, where `b_blocknr` is an `unsigned long`. -/
def blocknr (block : ℤ) : ℕ := (block % 2 ^ 32).toNat

theorem blocknr_natCast {b : ℕ} (h : b < 2 ^ 32) : blocknr b = b := by
  unfold blocknr
  omega

def newBlock (z : ZoneDev) (victim : Option ℕ) (stale : BlockData) : Except String (ℕ × ZoneDev) :=
  match z.findSlot 8 0 with
  | none => pure (0, z)
  | some (i, block, bh, j) =>
      let (res, data) := setBit j bh.data
      if res then throw "new_block: bit already set"
      else
        let cache := z.cache.update block { bh with data, dirt := true }
        let j := zoneBlock z.sb i j
        if z.sb.nzones.toNat ≤ j then pure (0, { z with cache })
        else
          let j := blocknr j
          let (bh, cache) := cache.getblk victim stale j
          if bh.count ≠ 1 then throw "new block: count is != 1"
          else
            let bh := { bh with data := clearBlock, uptodate := true, dirt := true }
            pure (j, { z with cache := cache.brelse j bh })

/-- The part of `free_block` after the buffer of the block has been dropped. -/
def freeBit (z : ZoneDev) (block : ℕ) : Except String ZoneDev :=
  let block := block + 1 - z.sb.firstdatazone.toNat
  match zmap z.sb (block / 8192) with
  | none => throw "null pointer"
  | some b =>
      match z.cache b with
      | none => throw "null pointer"
      | some bh =>
          let (res, data) := clearBit (block % 8192) bh.data
          if res then throw "free_block: bit already cleared"
          else pure { z with cache := z.cache.update b { bh with data, dirt := true } }

def freeBlock (z : ZoneDev) (block : ℕ) : Except String ZoneDev :=
  if block < z.sb.firstdatazone.toNat ∨ z.sb.nzones.toNat ≤ block then
    throw "trying to free block not in datazone"
  else
    match z.cache.getHashTable block with
    | none => z.freeBit block
    | some bh =>
        -- The reference that `get_hash_table` took is not given back here.
        if bh.count ≠ 1 then pure { z with cache := z.cache.update block bh }
        else
          let bh := { bh with dirt := false, uptodate := false }
          freeBit { z with cache := z.cache.brelse block bh } block

end ZoneDev

/-! ## Runs -/

/-- A mounted device with the blocks that `new_block` has returned and that have
not been freed yet. -/
structure Zones where
  dev : ZoneDev
  allocated : List ℕ
  panicked : Option String

/-- Between the calls the rest of the kernel uses the cache. -/
inductive ZoneAction where
  | newBlock (victim : Option ℕ) (stale : BlockData)
  | freeBlock (block : ℕ)
  | other (cache : Buffers)

namespace Zones

def step (w : Zones) (a : ZoneAction) : Zones :=
  if w.panicked.isSome then w
  else
    match a with
    | .newBlock victim stale =>
        match w.dev.newBlock victim stale with
        | .error e => { w with panicked := some e }
        | .ok (j, dev) =>
            { w with dev, allocated := if j = 0 then w.allocated else j :: w.allocated }
    | .freeBlock block =>
        match w.dev.freeBlock block with
        | .error e => { w with panicked := some e }
        | .ok dev => { w with dev, allocated := w.allocated.erase block }
    | .other cache => { w with dev := { w.dev with cache } }

/-- Blocks are freed that were allocated and that are not in use in the cache.
The rest of the kernel leaves the map blocks in use and as they are. -/
def Valid (w : Zones) : ZoneAction → Prop
  | .newBlock _ _ => True
  | .freeBlock block =>
      block ∈ w.allocated ∧ ∀ bh, w.dev.cache block = some bh → bh.count = 0
  | .other cache => ∀ i block bh, ZoneDev.zmap w.dev.sb i = some block →
      w.dev.cache block = some bh → ∃ bh', cache block = some bh' ∧ bh'.count ≠ 0 ∧
        bh'.data = bh.data

end Zones

end MyJavaExample.Fs
