import MyJavaExample.Fs.FileTable
import MyJavaExample.Fs.Inode
import MyJavaExample.Lib.Outcome
import MyJavaExample.Lib.Run

/-!
# Offsets of open files: `fs/read_write.c`

`sys_lseek` looks at the sign of the new position only, and `sys_read` stops at
the end of the file.  Nothing keeps `sys_write` from a position behind the last
block that an inode can map: then `_bmap` panics.
-/

namespace MyJavaExample.Fs

open Lib

/-- An open regular file with its inode and its device. -/
structure OpenFile where
  seekable : Bool
  append : Bool
  fPos : ℤ
  inode : Inode
  dev : Device

/-- The arguments of the calls on the file.  Between them the rest of the system
changes the inode and the device. -/
inductive FileCall where
  | lseek (offset origin : Int32)
  | read (count : Int32)
  | write (buf : ℕ → UInt8) (count : Int32)
  | other (inode : Inode) (dev : Device)

namespace OpenFile

def sysLseek (f : OpenFile) (offset origin : ℤ) : ℤ × OpenFile :=
  if !f.seekable then (-EBADF, f)
  else if origin = 0 then
    if offset < 0 then (-EINVAL, f) else (offset, { f with fPos := offset })
  else if origin = 1 then
    let tmp := toInt32 (f.fPos + offset)
    if tmp < 0 then (-EINVAL, f) else (tmp, { f with fPos := tmp })
  else if origin = 2 then
    let tmp := toInt32 (f.inode.size + offset)
    if tmp < 0 then (-EINVAL, f) else (tmp, { f with fPos := tmp })
  else (-EINVAL, f)

/-- `sys_read` of a regular file; `count + f_pos` and `i_size - f_pos` are
unsigned. -/
def sysRead (f : OpenFile) (count : ℤ) : Except String (ℤ × List UInt8 × OpenFile) :=
  if count < 0 then pure (-EINVAL, [], f)
  else if count = 0 then pure (0, [], f)
  else
    let count :=
      if (count + f.fPos) % 2 ^ 32 > f.inode.size then toInt32 (f.inode.size - f.fPos) else count
    if count ≤ 0 then pure (0, [], f)
    else do
      let (ret, r) ← fileRead f.inode f.fPos count f.dev
      pure (ret, r.bytes, { f with fPos := r.fPos, dev := r.dev })

/-- `sys_write` of a regular file. -/
def sysWrite (f : OpenFile) (buf : ℕ → UInt8) (count : ℤ) : Except String (ℤ × OpenFile) :=
  if count < 0 then pure (-EINVAL, f)
  else if count = 0 then pure (0, f)
  else do
    let (ret, fPos, r) ← fileWrite buf f.append f.fPos count f.inode f.dev
    pure (ret, { f with fPos, inode := r.inode, dev := r.dev })

def call (f : OpenFile) : FileCall → Except String OpenFile
  | .lseek offset origin => pure (f.sysLseek offset.toInt origin.toInt).2
  | .read count => do
      let (_, _, f) ← f.sysRead count.toInt
      pure f
  | .write buf count => do
      let (_, f) ← f.sysWrite buf count.toInt
      pure f
  | .other inode dev => pure { f with inode, dev }

/-- A call of a run.  A panic ends the run. -/
def next (r : Except String OpenFile) (c : FileCall) : Except String OpenFile :=
  r >>= fun f => f.call c

end OpenFile

/-! ## Panics -/

/-- The panics of `_bmap`. -/
def BmapPanic (e : String) : Prop := e = "_bmap: block<0" ∨ e = "_bmap: block>big"

instance (e : String) : Decidable (BmapPanic e) := inferInstanceAs (Decidable (_ ∨ _))

/-- The first byte that no block of a file holds. -/
def FILE_LIMIT : ℤ := BLOCKS * BLOCK_SIZE

section Panics

variable {α : Type} {d : Device} {inode : Inode}

/-- The computation does not panic in `_bmap`. -/
abbrev Calm (P : α → Prop) : Except String α → Prop := Ends P fun e => ¬BmapPanic e

theorem Device.brelse_calm (b : ℕ) : Calm (fun _ => True) (d.brelse b) :=
  .ite (fun _ => .throw (by decide)) fun _ => .pure trivial

theorem Device.newBlock_calm : Calm (fun _ => True) d.newBlock := by
  unfold newBlock
  split
  next => exact .pure trivial
  next =>
    dsimp only
    exact .ite (fun _ => .throw (by decide)) fun _ => .ite (fun _ => .pure trivial) fun _ =>
      .ite (fun _ => .throw (by decide)) fun _ => .pure trivial

theorem zoneOrNew_calm (create : Bool) (z : ℕ) : Calm (fun _ => True) (zoneOrNew create z d) :=
  .ite (fun _ => Device.newBlock_calm) fun _ => .pure trivial

theorem inodeZone_calm (create : Bool) (i : ℕ) : Calm (fun _ => True) (inodeZone create i inode d) :=
  .ite (fun _ => Device.newBlock_calm.bind fun _ _ => .pure trivial) fun _ => .pure trivial

theorem indirect_calm (create : Bool) (b i : ℕ) : Calm (fun _ => True) (indirect create b i d) := by
  unfold indirect
  cases d.bread b with
  | none => exact .pure trivial
  | some d =>
      exact (zoneOrNew_calm create _).bind fun _ _ =>
        (Device.brelse_calm _).bind fun _ _ => .pure trivial

theorem bmapOr_calm (create : Bool) {block : ℤ} (h : 0 ≤ block) (hlt : block < BLOCKS) :
    Calm (fun _ => True) (bmapOr create inode block d) := by
  unfold bmapOr
  refine .ite (fun hneg => absurd h (Int.not_le.2 hneg)) fun _ =>
    .ite (fun hbig => absurd hlt (Int.not_lt.2 hbig)) fun _ => ?_
  refine .ite (fun _ => inodeZone_calm _ _) fun _ => .ite (fun _ => ?_) fun _ => ?_
  · refine (inodeZone_calm _ _).bind fun _ _ => .ite (fun _ => .pure trivial) fun _ => ?_
    exact (indirect_calm _ _ _).bind fun _ _ => .pure trivial
  · refine (inodeZone_calm _ _).bind fun _ _ => .ite (fun _ => .pure trivial) fun _ => ?_
    refine (indirect_calm _ _ _).bind fun _ _ => .ite (fun _ => .pure trivial) fun _ => ?_
    exact (indirect_calm _ _ _).bind fun _ _ => .pure trivial

/-- The block of a position before the limit is one that `_bmap` can map. -/
theorem bmapOr_calm_of_lt (create : Bool) {pos : ℤ} (h : 0 ≤ pos) (hlt : pos < FILE_LIMIT) :
    Calm (fun _ => True) (bmapOr create inode (pos.tdiv BLOCK_SIZE) d) := by
  unfold FILE_LIMIT BLOCKS BLOCK_SIZE at hlt
  rw [Int.tdiv_eq_ediv_of_nonneg h]
  apply bmapOr_calm
  · unfold BLOCK_SIZE
    omega
  · unfold BLOCKS BLOCK_SIZE
    omega

/-- A round of either loop moves on by a byte at least, and not past the end. -/
theorem chunk_bounds {pos left : ℤ} (h : 0 ≤ pos) (hleft : 0 < left)
    (hend : pos + left ≤ FILE_LIMIT) :
    0 < min (BLOCK_SIZE - pos.tmod BLOCK_SIZE) left ∧
      min (BLOCK_SIZE - pos.tmod BLOCK_SIZE) left ≤ left ∧
      toInt32 (pos + min (BLOCK_SIZE - pos.tmod BLOCK_SIZE) left) =
        pos + min (BLOCK_SIZE - pos.tmod BLOCK_SIZE) left := by
  unfold FILE_LIMIT BLOCKS BLOCK_SIZE at hend
  rw [Int.tmod_eq_emod_of_nonneg h]
  unfold BLOCK_SIZE
  refine ⟨by omega, by omega, toInt32_of_range (by omega) (by omega)⟩

theorem fileReadLoop_calm {n : ℕ} {left fPos : ℤ} (hpos : 0 ≤ fPos) (hleft : 0 ≤ left)
    (hend : fPos + left ≤ FILE_LIMIT) :
    Calm (fun r => fPos ≤ r.fPos ∧ r.fPos ≤ fPos + left) (fileReadLoop inode n left fPos d) := by
  induction n generalizing left fPos d with
  | zero => exact .pure (by dsimp only; omega)
  | succ n ih =>
      refine .ite (fun hzero => .pure (by dsimp only; omega)) fun hne => ?_
      obtain ⟨hchunk, hle, hwrap⟩ := chunk_bounds hpos (by omega) hend
      refine (bmapOr_calm_of_lt false hpos (by omega)).bind ?_
      rintro ⟨nr, -, d⟩ -
      dsimp only
      generalize min (BLOCK_SIZE - fPos.tmod BLOCK_SIZE) left = chars at hchunk hle hwrap
      have hnext (bytes : List UInt8) (d : Device) :
          Calm (fun r => fPos ≤ r.fPos ∧ r.fPos ≤ fPos + left)
            (do let r ← fileReadLoop inode n (left - chars) (toInt32 (fPos + chars)) d
                pure { r with bytes := bytes ++ r.bytes }) := by
        rw [hwrap]
        refine (ih (by omega) (by omega) (by omega)).bind fun r hr => .pure ?_
        dsimp only
        omega
      refine .ite (fun _ => hnext _ d) fun _ => ?_
      cases d.bread nr with
      | none => exact .pure (by dsimp only; omega)
      | some d => exact (Device.brelse_calm _).bind fun d _ => hnext _ d

theorem fileWriteLoop_calm {n : ℕ} {buf : ℕ → UInt8} {count i pos : ℤ} (hpos : 0 ≤ pos)
    (hi : i ≤ count) (hend : pos + (count - i) ≤ FILE_LIMIT) :
    Calm (fun r => pos ≤ r.pos ∧ r.pos ≤ pos + (count - i))
      (fileWriteLoop buf count n i pos inode d) := by
  induction n generalizing i pos inode d with
  | zero => exact .pure (by dsimp only; omega)
  | succ n ih =>
      refine .ite (fun hle => .pure (by dsimp only; omega)) fun hlt => ?_
      obtain ⟨hchunk, hle, hwrap⟩ := chunk_bounds hpos (by omega) hend
      refine (bmapOr_calm_of_lt true hpos (by omega)).bind ?_
      rintro ⟨block, inode, d⟩ -
      refine .ite (fun _ => .pure (by dsimp only; omega)) fun _ => ?_
      cases d.bread block with
      | none => exact .pure (by dsimp only; omega)
      | some d =>
          dsimp only
          refine (Device.brelse_calm _).bind fun d _ => ?_
          rw [hwrap]
          refine (ih (by omega) (by omega) (by omega)).imp fun r hr => ?_
          omega

end Panics

/-! ## Runs -/

namespace OpenFile

/-- The file after `open`. -/
def opened (seekable append : Bool) (inode : Inode) (dev : Device) : OpenFile :=
  ⟨seekable, append, 0, inode, dev⟩

/-- Where a call writes. -/
def start (f : OpenFile) : ℤ := if f.append then toInt32 f.inode.size else f.fPos

/-- What is written ends before the limit, and what is read of the file too. -/
def Within (f : OpenFile) : FileCall → Prop
  | .lseek _ _ => True
  | .read count => count.toInt ≤ 0 ∨ f.inode.size ≤ f.fPos ∨
      min (count.toInt + f.fPos) f.inode.size ≤ FILE_LIMIT
  | .write _ count => count.toInt ≤ 0 ∨ 0 ≤ f.start ∧ f.start + count.toInt ≤ FILE_LIMIT
  | .other _ _ => True

instance (f : OpenFile) : (c : FileCall) → Decidable (f.Within c)
  | .lseek _ _ => inferInstanceAs (Decidable True)
  | .read _ => inferInstanceAs (Decidable (_ ∨ _ ∨ _))
  | .write _ _ => inferInstanceAs (Decidable (_ ∨ _ ∧ _))
  | .other _ _ => inferInstanceAs (Decidable True)

variable {f : OpenFile}

/-- `f_pos` is a signed number that is not negative. -/
def PosOk (f : OpenFile) : Prop := 0 ≤ f.fPos ∧ f.fPos < 2 ^ 31

theorem PosOk.sysLseek (h : f.PosOk) (offset origin : Int32) :
    (f.sysLseek offset.toInt origin.toInt).2.PosOk := by
  have hoffset := offset.toInt_lt
  have hupper (x : ℤ) : toInt32 x < 2 ^ 31 := toInt32_upper x
  unfold PosOk at h
  unfold OpenFile.sysLseek PosOk
  dsimp only
  split
  next => exact h
  next =>
    split
    next =>
      split
      next => exact h
      next hneg => exact ⟨Int.not_lt.1 hneg, hoffset⟩
    next =>
      split
      next =>
        split
        next => exact h
        next hneg => exact ⟨Int.not_lt.1 hneg, hupper _⟩
      next =>
        split
        next =>
          split
          next => exact h
          next hneg => exact ⟨Int.not_lt.1 hneg, hupper _⟩
        next => exact h

theorem PosOk.sysRead (h : f.PosOk) {count : Int32} (hc : f.Within (.read count)) :
    Calm (fun r => r.2.2.PosOk) (f.sysRead count.toInt) := by
  obtain ⟨hpos, hlt⟩ := h
  have hcount := count.toInt_lt
  simp only [Within] at hc
  generalize count.toInt = c at hc hcount ⊢
  refine .ite (fun _ => .pure ⟨hpos, hlt⟩) fun hneg => .ite (fun _ => .pure ⟨hpos, hlt⟩) fun hzero => ?_
  dsimp only
  have hsum : (c + f.fPos) % 2 ^ 32 = c + f.fPos := by omega
  rw [hsum]
  -- The number of bytes that are left to read.
  have hclamp : (if c + f.fPos > f.inode.size then toInt32 (f.inode.size - f.fPos) else c) =
      min (c + f.fPos) f.inode.size - f.fPos := by
    split
    next hgt =>
      rw [toInt32_of_range (by omega) (by omega)]
      omega
    next hle => omega
  rw [hclamp]
  refine .ite (fun _ => .pure ⟨hpos, hlt⟩) fun hleft => ?_
  have hend : min (c + f.fPos) f.inode.size ≤ FILE_LIMIT := by omega
  refine (Ends.bind (P := fun r => f.fPos ≤ r.2.fPos ∧ r.2.fPos ≤ FILE_LIMIT) ?_ ?_)
  · refine .ite (fun hno => absurd hno hleft) fun _ => ?_
    refine (fileReadLoop_calm hpos (by omega) (by omega)).bind fun r hr => .pure ?_
    dsimp only
    omega
  · rintro ⟨ret, r⟩ hr
    refine .pure ?_
    unfold FILE_LIMIT BLOCKS BLOCK_SIZE at hr
    unfold PosOk
    dsimp only at hr ⊢
    omega

theorem PosOk.sysWrite (h : f.PosOk) {buf : ℕ → UInt8} {count : Int32}
    (hc : f.Within (.write buf count)) : Calm (fun r => r.2.PosOk) (f.sysWrite buf count.toInt) := by
  obtain ⟨hpos, hlt⟩ := h
  simp only [Within] at hc
  generalize count.toInt = c at hc ⊢
  refine .ite (fun _ => .pure ⟨hpos, hlt⟩) fun hneg => .ite (fun _ => .pure ⟨hpos, hlt⟩) fun hzero => ?_
  have hstart : 0 ≤ f.start ∧ f.start + c ≤ FILE_LIMIT := by omega
  refine (Ends.bind (P := fun r => 0 ≤ r.2.1 ∧ r.2.1 < 2 ^ 31) ?_ ?_)
  · refine (fileWriteLoop_calm (i := 0) hstart.1 (by omega) (by rw [sub_zero]; exact hstart.2)).bind
      fun r hr => .pure ?_
    have hend := hstart.2
    unfold FILE_LIMIT BLOCKS BLOCK_SIZE at hend
    dsimp only
    split
    next => exact ⟨hpos, hlt⟩
    next => omega
  · rintro ⟨ret, fPos, r⟩ hr
    exact .pure hr

/-! ## Whole runs -/

/-- `_bmap` has not panicked. -/
def NoBmapPanic (r : Except String OpenFile) : Prop := Calm (fun _ => True) r

/-- Every call is within the limit; after a panic there are none. -/
def WithinStep (r : Except String OpenFile) (c : FileCall) : Prop := ∀ f ∈ r.toOption, f.Within c

instance (r : Except String OpenFile) (c : FileCall) : Decidable (WithinStep r c) :=
  match r with
  | .ok f => decidable_of_iff (f.Within c) (by simp [WithinStep, Except.toOption])
  | .error _ => isTrue fun _ h => by cases h

theorem PosOk.call (h : f.PosOk) {c : FileCall} (hc : f.Within c) : Calm PosOk (f.call c) := by
  cases c with
  | lseek offset origin => exact .pure (h.sysLseek offset origin)
  | read count => exact (h.sysRead hc).bind fun _ hr => .pure hr
  | write buf count => exact (h.sysWrite hc).bind fun _ hr => .pure hr
  | other inode dev => exact .pure h

theorem calm_next {r : Except String OpenFile} {c : FileCall} (h : Calm PosOk r)
    (hc : WithinStep r c) : Calm PosOk (next r c) := by
  cases r with
  | error e => exact h
  | ok f => exact PosOk.call h (hc f rfl)

/-- In a run whose calls write and read within the limit, `_bmap` never
panics. -/
theorem offsets_never_panic (seekable append : Bool) (inode : Inode) (dev : Device)
    (cs : List FileCall) (h : EachStep next WithinStep (.ok (opened seekable append inode dev)) cs) :
    Always next NoBmapPanic (.ok (opened seekable append inode dev)) cs := by
  have hstart : Calm PosOk (.ok (opened seekable append inode dev)) :=
    show (0 : ℤ) ≤ 0 ∧ (0 : ℤ) < 2 ^ 31 by decide
  exact h.always (I := Calm PosOk) (fun r hr => hr.imp fun _ _ => trivial)
    (fun r c hr hc => calm_next hr hc) hstart

/-- A call that begins to write at the limit or after it panics, whatever is on
the device. -/
theorem write_panics {buf : ℕ → UInt8} {count : Int32} (hcount : 0 < count.toInt)
    (hstart : FILE_LIMIT ≤ f.start) : f.call (.write buf count) = .error "_bmap: block>big" := by
  have hbig : BLOCKS ≤ f.start.tdiv BLOCK_SIZE := by
    unfold FILE_LIMIT BLOCKS BLOCK_SIZE at hstart
    rw [Int.tdiv_eq_ediv_of_nonneg (by omega)]
    unfold BLOCKS BLOCK_SIZE
    omega
  have hpanic : createBlock f.inode (f.start.tdiv BLOCK_SIZE) f.dev = .error "_bmap: block>big" := by
    unfold createBlock bmapOr
    rw [if_neg (by omega), if_pos hbig]
    rfl
  obtain ⟨n, hn⟩ : ∃ n, count.toInt.toNat = n + 1 := ⟨count.toInt.toNat - 1, by omega⟩
  have hloop : fileWriteLoop buf count.toInt count.toInt.toNat 0 f.start f.inode f.dev =
      .error "_bmap: block>big" := by
    rw [hn, fileWriteLoop, if_neg (by omega), hpanic]
    rfl
  simp only [call, sysWrite, fileWrite]
  rw [if_neg (by omega), if_neg (by omega)]
  unfold OpenFile.start at hloop
  rw [hloop]
  rfl

def emptyInode : Inode := ⟨S_IFREG, 0, fun _ => 0, false⟩

/-- A device with 100 zones, all free. -/
def emptyDevice : Device where
  sb := ⟨1, 1, 10, 110, SUPER_MAGIC⟩
  zmap := fun i => if i = 0 then some fun w => if w.val = 0 then 1#32 else 0#32 else none
  data := fun _ => .zero
  count := fun _ => 0
  readable := fun _ => true

/-- Seek, write and read back. -/
theorem offsets_never_panic_small : Always next NoBmapPanic
    (.ok (opened true false emptyInode emptyDevice))
    [.lseek 1000 0, .write (fun _ => 65) 100, .lseek 0 0, .read 2000] :=
  offsets_never_panic true false emptyInode emptyDevice _ (by decide +kernel)

/-- Seek to the limit and write a byte. -/
theorem write_at_limit : ¬Always next NoBmapPanic (.ok (opened true false emptyInode emptyDevice))
    [.lseek 268966912 0, .write (fun _ => 65) 1] := by
  intro h
  have hpanic : [.lseek 268966912 0, .write (fun _ => 65) 1].foldl next
      (.ok (opened true false emptyInode emptyDevice)) = .error "_bmap: block>big" := rfl
  have hlast := h.last
  rw [hpanic] at hlast
  exact hlast (.inr rfl)

end OpenFile

end MyJavaExample.Fs
