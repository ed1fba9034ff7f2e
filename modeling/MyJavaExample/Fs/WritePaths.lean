import MyJavaExample.Fs.FileTable
import MyJavaExample.Fs.Inode
import MyJavaExample.Fs.Pipe
import MyJavaExample.Lib.Reading
import MyJavaExample.Tty.Write

/-!
# The five ways of a write: `fs/read_write.c`, `fs/pipe.c`, `fs/char_dev.c`, `fs/block_dev.c`, `fs/file_dev.c`

What `sys_write` does after the loop over the buffer at its head.  Each kind of
file takes the bytes of the buffer with `get_fs_byte`, in order, and this is all
it does to the memory of the caller.

Other tasks change a file where the call sleeps on it.  A list says what the call
finds each time it goes on; when the list is used up, the call still sleeps.
-/

namespace MyJavaExample.Fs

open Lib

def EIO : ℤ := 5
def ENODEV : ℤ := 19

def S_IFCHR : UInt16 := 0o020000
def S_IFBLK : UInt16 := 0o060000

/-! ## What is written -/

/-- What `sys_write` looks at before it knows the kind of the file. -/
structure FileDesc where
  fMode : UInt16
  append : Bool
  /-- `i_pipe`. -/
  iPipe : Bool

/-- The inode of a pipe, with the tail and the count that the writer finds each
time it is woken up. -/
structure PipeBuf where
  head : ℕ
  tail : ℕ
  page : ℕ → UInt8
  iCount : ℕ
  sigpipe : Bool
  wakes : List (ℕ × ℕ)

/-- The terminals.  For each round of the outer loop of `tty_write`, `rounds` has
the queue after `sleep_if_full` and whether there is a signal. -/
structure Terminals where
  tty : ℤ
  below : UInt8 → Bool
  oflag : ℕ → UInt32
  crFlag : Bool
  put : List UInt8
  rounds : List (Tty.TtyQueue × Bool)

structure Disk where
  data : ℤ → Block
  readable : ℤ → Bool

/-- The descriptors of the caller, and what the file that is written consists of. -/
structure Targets where
  filp : ℕ → Option FileDesc
  fPos : ℤ
  inode : Inode
  dev : Device
  pipe : PipeBuf
  terminals : Terminals
  ports : List (ℤ × UInt8)
  disk : ℕ → Disk
  /-- The bytes that were stored in a pipe or in a buffer, in the order of the
  stores. -/
  stored : List UInt8

inductive CallEnd where
  | returns (ret : ℤ)
  | sleeps
  /-- The task exits in a fault. -/
  | exits
  | panics (message : String)

/-- A call that takes the bytes of the buffer. -/
abbrev Writing := Reading CallEnd Targets UInt8

/-- `*(p++) = get_fs_byte(buf++)` for the bytes `bs`. -/
def writeBytes (b : Block) (off : ℕ) (bs : List UInt8) : Block :=
  b.write off bs.length fun k => bs.getD k 0

/-! ## Pipes -/

namespace PipeBuf

/-- `PIPE_SIZE`. -/
def size (p : PipeBuf) : ℕ := (p.head + PAGE_SIZE - p.tail) % PAGE_SIZE

def room (p : PipeBuf) : ℕ := PAGE_SIZE - 1 - p.size

/-- The inner loop: how the call ends, if it does not find room. -/
def waitRoom (written : ℕ) : List (ℕ × ℕ) → PipeBuf → Option CallEnd × PipeBuf
  | wakes, p =>
      if p.room ≠ 0 then (none, { p with wakes })
      else if p.iCount ≠ 2 then
        (some (.returns (if written = 0 then -1 else written)), { p with sigpipe := true, wakes })
      else
        match wakes with
        | [] => (some .sleeps, { p with wakes := [] })
        | (tail, iCount) :: wakes => waitRoom written wakes { p with tail, iCount }

end PipeBuf

/-- The bytes `bs` go to the page of the pipe from `size` on. -/
def Targets.storePipe (w : Targets) (p : PipeBuf) (size : ℕ) (bs : List UInt8) : Targets :=
  { w with pipe := { p with page := writeBytes p.page size bs }, stored := w.stored ++ bs }

/-- `write_pipe`.  Every round takes a byte at least. -/
def writePipe : ℕ → ℕ → ℕ → Targets → Writing
  | 0, _, written, w => .ended (.returns written) w
  | n + 1, count, written, w =>
      if count = 0 then .ended (.returns written) w
      else
        match w.pipe.waitRoom written w.pipe.wakes with
        | (some e, p) => .ended e { w with pipe := p }
        | (none, p) =>
            let chars := min (min (PAGE_SIZE - p.head) count) p.room
            let head := (p.head + chars) % PAGE_SIZE
            .chars (w.storePipe { p with head } p.head)
              (writePipe n (count - chars) (written + chars)) chars []

/-! ## Character devices -/

def rwPort : ℕ → ℤ → Targets → Writing
  | 0, i, w => .ended (.returns (i - w.fPos)) { w with fPos := i }
  | n + 1, i, w =>
      if 65536 ≤ i then .ended (.returns (i - w.fPos)) { w with fPos := i }
      else .get w fun b => rwPort n (i + 1) { w with ports := w.ports ++ [(i, b)] }

/-- What the inner loop of `tty_write` has changed. -/
def Targets.setFilling (w : Targets) (f : Tty.Filling) : Targets :=
  { w with terminals := { w.terminals with crFlag := f.crFlag, put := f.put } }

/-- The inner loop of `tty_write`.  A newline that a carriage return was put for
is read again: it is the byte that is left in `rest`. -/
def ttyFill (channel : ℕ) (next : Tty.Filling → ℕ → Writing) (w : Targets) :
    ℕ → Tty.Filling → ℕ → Writing
  | 0, f, nr => next f nr
  | n + 1, f, nr =>
      if nr = 0 ∨ f.queue.full then next f nr
      else
        let round := fun (f : Tty.Filling) =>
          let f := f.putByte w.terminals.below (w.terminals.oflag channel)
          ttyFill channel next w n f (if f.rest = [] then nr - 1 else nr)
        if f.rest = [] then .get (w.setFilling f) fun c => round { f with rest := [c] }
        else round f

/-- The outer loop of `tty_write`. -/
def ttyRounds (channel count : ℕ) :
    List (Tty.TtyQueue × Bool) → List UInt8 → ℕ → Targets → Writing
  | [], _, nr, w => .ended (if nr = 0 then .returns count else .sleeps) w
  | (queue, signal) :: rounds, rest, nr, w =>
      if nr = 0 ∨ signal then .ended (.returns ((count : ℤ) - nr)) w
      else
        ttyFill channel (fun f nr => ttyRounds channel count rounds f.rest nr (w.setFilling f)) w
          Tty.TTY_BUF_SIZE ⟨w.terminals.crFlag, queue, rest, w.terminals.put, false⟩ nr

def ttyWrite (channel count : ℕ) (w : Targets) : Writing :=
  if channel > 2 then .ended (.returns (-1)) w
  else ttyRounds channel count w.terminals.rounds [] count w

def rwTty (count : ℕ) (w : Targets) : Writing :=
  if w.terminals.tty < 0 then .ended (.returns (-EPERM)) w
  else ttyWrite w.terminals.tty.toNat count w

/-- `rw_memory`: `/dev/null` takes everything, and the ports follow it. -/
def rwMemory (minor count : ℕ) (w : Targets) : Writing :=
  if minor = 3 then .ended (.returns count) w
  else if minor = 4 then rwPort count w.fPos w
  else .ended (.returns (- EIO)) w

/-- `rw_char`, with the entries of `crw_table` that are there. -/
def rwChar (dev count : ℕ) (w : Targets) : Writing :=
  match dev / 256 with
  | 1 => rwMemory (dev % 256) count w
  | 4 => ttyWrite (dev % 256) count w
  | 5 => rwTty count w
  | _ => .ended (.returns (-ENODEV)) w

/-! ## Block devices -/

/-- The bytes `bs` go to a block of a device from `offset` on. -/
def Targets.storeDisk (w : Targets) (dev : ℕ) (block : ℤ) (offset : ℕ) (bs : List UInt8) : Targets :=
  let d := w.disk dev
  let data := Function.update d.data block (writeBytes (d.data block) offset bs)
  { w with disk := Function.update w.disk dev { d with data }, stored := w.stored ++ bs }

/-- The loop of `block_write`.  A block that is written as a whole is not read. -/
def blockWriteLoop (dev : ℕ) : ℕ → ℤ → ℕ → ℕ → ℕ → Targets → Writing
  | 0, _, _, _, written, w => .ended (.returns written) w
  | n + 1, block, offset, count, written, w =>
      if count = 0 then .ended (.returns written) w
      else
        let chars := min (BLOCK_SIZE - offset) count
        if chars ≠ BLOCK_SIZE ∧ (w.disk dev).readable block = false then
          .ended (.returns (if written = 0 then - EIO else written)) w
        else
          let w := { w with fPos := toInt32 (w.fPos + chars) }
          .chars (w.storeDisk dev block offset)
            (blockWriteLoop dev n (block + 1) 0 (count - chars) (written + chars)) chars []

def blockWrite (dev count : ℕ) (w : Targets) : Writing :=
  blockWriteLoop dev count (w.fPos / BLOCK_SIZE) (w.fPos % BLOCK_SIZE).toNat count 0 w

/-! ## Regular files -/

/-- The bytes `bs` go to the buffer of a block of the file from `off` on. -/
def Targets.storeFile (w : Targets) (block off : ℕ) (bs : List UInt8) : Targets :=
  { w with
    dev := w.dev.setData block (writeBytes (w.dev.data block) off bs)
    stored := w.stored ++ bs }

/-- The end of `file_write`. -/
def fileWritten (append : Bool) (i pos : ℤ) (w : Targets) : Writing :=
  .ended (.returns (if i ≠ 0 then i else -1)) { w with fPos := if append then w.fPos else pos }

/-- `fileWriteLoop`, with the bytes taken from the buffer one by one. -/
def fileLoop (append : Bool) (count : ℤ) : ℕ → ℤ → ℤ → Targets → Writing
  | 0, i, pos, w => fileWritten append i pos w
  | n + 1, i, pos, w =>
      if count ≤ i then fileWritten append i pos w
      else
        match createBlock w.inode (pos.tdiv BLOCK_SIZE) w.dev with
        | .error e => .ended (.panics e) w
        | .ok (block, inode, dev) =>
            if block = 0 then fileWritten append i pos { w with inode, dev }
            else
              match dev.bread block with
              | none => fileWritten append i pos { w with inode, dev }
              | some dev =>
                  let off := pos.tmod BLOCK_SIZE
                  let c := min (BLOCK_SIZE - off) (count - i)
                  let pos := toInt32 (pos + c)
                  let inode := if (pos % 2 ^ 32).toNat > inode.size then
                    { inode with size := (pos % 2 ^ 32).toNat, dirt := true } else inode
                  let next := fun (w : Targets) =>
                    match w.dev.brelse block with
                    | .error e => .ended (.panics e) w
                    | .ok dev => fileLoop append count n (i + c) pos { w with dev }
                  .chars (Targets.storeFile { w with inode, dev } block off.toNat) next c.toNat []

def writeRegular (append : Bool) (count : ℤ) (w : Targets) : Writing :=
  fileLoop append count count.toNat 0 (if append then toInt32 w.inode.size else w.fPos) w

/-! ## `sys_write` -/

/-- The file of a descriptor. -/
def Targets.file (w : Targets) (fd : ℕ) : Option FileDesc := if fd < NR_OPEN then w.filp fd else none

/-- `sys_write` after its first loop. -/
def writeCall (fd : ℕ) (count : ℤ) (w : Targets) : Writing :=
  match if count < 0 then none else w.file fd with
  | none => .ended (.returns (-EINVAL)) w
  | some file =>
      if count = 0 then .ended (.returns 0) w
      else if file.iPipe then
        if file.fMode &&& 2 ≠ 0 then writePipe count.toNat count.toNat 0 w
        else .ended (.returns (- EIO)) w
      else if w.inode.mode &&& S_IFMT = S_IFCHR then rwChar (w.inode.zone 0) count.toNat w
      else if w.inode.mode &&& S_IFMT = S_IFBLK then blockWrite (w.inode.zone 0) count.toNat w
      else if w.inode.mode &&& S_IFMT = S_IFREG then writeRegular file.append count w
      else .ended (.returns (-EINVAL)) w

/-! ## What is stored -/

section Stored

variable {start bs : List UInt8} {total n count written : ℕ} {w : Targets}

/-- The bytes that were read, `total` at most, are stored. -/
def Stored (start : List UInt8) (total : ℕ) (bs : List UInt8) (w : Targets) : Prop :=
  bs.length ≤ total ∧ w.stored = start ++ bs

/-- No byte is stored. -/
def NotStored (start : List UInt8) (total : ℕ) (bs : List UInt8) (w : Targets) : Prop :=
  bs.length ≤ total ∧ w.stored = start

/-- A round of one of the loops that store what they read. -/
theorem stored_round {store : List UInt8 → Targets} {next : Targets → Writing}
    (hw : w.stored = start ++ bs) (htotal : bs.length + n ≤ total)
    (hstore : ∀ ds, (store ds).stored = w.stored ++ ds)
    (hnext : ∀ ds, ds.length = n → (store ds).stored = start ++ (bs ++ ds) →
      (next (store ds)).Along (Stored start total) (bs ++ ds)) :
    (Reading.chars store next n []).Along (Stored start total) bs := by
  have hstored (ds : List UInt8) : (store ds).stored = start ++ (bs ++ ds) := by
    rw [hstore, hw, List.append_assoc]
  refine Reading.along_chars (fun ds hds => ⟨?_, hstored ds⟩) fun ds hds => hnext ds hds (hstored ds)
  rw [List.length_append]
  omega

theorem writePipe_stored (hw : w.stored = start ++ bs) (htotal : bs.length + count ≤ total) :
    (writePipe n count written w).Along (Stored start total) bs := by
  induction n generalizing count written w bs with
  | zero => exact ⟨by omega, hw⟩
  | succ n ih =>
      rw [writePipe]
      split
      next => exact ⟨by omega, hw⟩
      next hcount =>
        cases w.pipe.waitRoom written w.pipe.wakes with
        | mk e p =>
            cases e with
            | some e => exact ⟨by omega, hw⟩
            | none =>
                refine stored_round hw (by omega) (fun ds => rfl) fun ds hds hstored => ih hstored ?_
                rw [List.length_append]
                omega

theorem blockWriteLoop_stored {dev offset : ℕ} {block : ℤ} (hw : w.stored = start ++ bs)
    (htotal : bs.length + count ≤ total) :
    (blockWriteLoop dev n block offset count written w).Along (Stored start total) bs := by
  induction n generalizing block offset count written w bs with
  | zero => exact ⟨by omega, hw⟩
  | succ n ih =>
      rw [blockWriteLoop]
      split
      next => exact ⟨by omega, hw⟩
      next hcount =>
        dsimp only
        split
        next => exact ⟨by omega, hw⟩
        next =>
          refine stored_round hw (by omega) (fun ds => rfl) fun ds hds hstored => ih hstored ?_
          rw [List.length_append]
          omega

theorem fileLoop_stored {append : Bool} {count i pos : ℤ} (hw : w.stored = start ++ bs)
    (htotal : bs.length + (count - i).toNat ≤ total) :
    (fileLoop append count n i pos w).Along (Stored start total) bs := by
  induction n generalizing i pos w bs with
  | zero => exact ⟨by omega, hw⟩
  | succ n ih =>
      rw [fileLoop]
      split
      next => exact ⟨by omega, hw⟩
      next hi =>
        split
        next => exact ⟨by omega, hw⟩
        next block inode dev hblock =>
          split
          next => exact ⟨by omega, hw⟩
          next =>
            split
            next => exact ⟨by omega, hw⟩
            next dev hbread =>
              refine stored_round hw ?_ (fun ds => rfl) fun ds hds hstored => ?_
              · omega
              · split
                next => exact ⟨by rw [List.length_append]; omega, hstored⟩
                next dev hbrelse =>
                  have hoff : pos.tmod BLOCK_SIZE < BLOCK_SIZE := Int.tmod_lt_of_pos pos (by decide)
                  refine ih hstored ?_
                  rw [List.length_append]
                  omega

theorem rwPort_notStored {i : ℤ} (hw : w.stored = start) (htotal : bs.length + n ≤ total) :
    (rwPort n i w).Along (NotStored start total) bs := by
  induction n generalizing i w bs with
  | zero => exact ⟨by omega, hw⟩
  | succ n ih =>
      rw [rwPort]
      split
      next => exact ⟨by omega, hw⟩
      next =>
        refine ⟨⟨by omega, hw⟩, fun b => ih hw ?_⟩
        rw [List.length_append, List.length_singleton]
        omega

/-- A round of the inner loop of `tty_write` is done with the byte, or leaves it. -/
theorem putByte_rest {below : UInt8 → Bool} {oflag : UInt32} {f : Tty.Filling} {c : UInt8}
    (h : f.rest = [c]) : (f.putByte below oflag).rest = [] ∨ (f.putByte below oflag).rest = [c] := by
  unfold Tty.Filling.putByte
  rw [h]
  dsimp only
  split
  next =>
    generalize (if c = 13 ∧ Tty.flag oflag Tty.OCRNL then (10 : UInt8)
      else if c = 10 ∧ Tty.flag oflag Tty.ONLRET then 13 else c) = c'
    split
    next => exact .inr rfl
    next => exact .inl rfl
  next => exact .inl rfl

/-- The bytes that were read and the number of those that are left: the byte that
is read again counts as left. -/
structure BytesLeft (total : ℕ) (bs rest : List UInt8) (nr : ℕ) : Prop where
  sum : bs.length + nr = total + rest.length
  one : rest.length ≤ 1
  le : rest.length ≤ nr

theorem BytesLeft.length_le {rest : List UInt8} {nr : ℕ} (h : BytesLeft total bs rest nr) :
    bs.length ≤ total := by
  have hsum := h.sum
  have hle := h.le
  omega

theorem ttyFill_notStored {channel nr : ℕ} {next : Tty.Filling → ℕ → Writing} {f : Tty.Filling}
    (hw : w.stored = start)
    (hnext : ∀ f nr bs, BytesLeft total bs f.rest nr → (next f nr).Along (NotStored start total) bs)
    (hf : BytesLeft total bs f.rest nr) :
    (ttyFill channel next w n f nr).Along (NotStored start total) bs := by
  induction n generalizing f nr bs with
  | zero => exact hnext f nr bs hf
  | succ n ih =>
      -- a round on a byte, whether it was read just now or is read again
      have hround (f : Tty.Filling) (c : UInt8) (bs : List UInt8) (hrest : f.rest = [c])
          (hf : BytesLeft total bs f.rest nr) :
          let f' := f.putByte w.terminals.below (w.terminals.oflag channel)
          (ttyFill channel next w n f' (if f'.rest = [] then nr - 1 else nr)).Along
            (NotStored start total) bs := by
        intro f'
        obtain ⟨hsum, hone, hle⟩ := hf
        rw [hrest, List.length_singleton] at hsum hle
        have hrest' : f'.rest = [] ∨ f'.rest = [c] := putByte_rest hrest
        refine ih ?_
        rcases hrest' with hrest' | hrest'
        · rw [if_pos hrest', hrest']
          exact ⟨by simp only [List.length_nil]; omega, Nat.zero_le 1, Nat.zero_le _⟩
        · rw [if_neg (by rw [hrest']; exact List.cons_ne_nil c []), hrest']
          exact ⟨hsum, le_rfl, hle⟩
      rw [ttyFill]
      split
      next => exact hnext f nr bs hf
      next hno =>
        dsimp only
        split
        next hrest =>
          have hsum := hf.sum
          rw [hrest, List.length_nil] at hsum
          refine ⟨⟨hf.length_le, hw⟩, fun c => hround _ c (bs ++ [c]) rfl ⟨?_, le_rfl, ?_⟩⟩
          · rw [List.length_append]
            simp only [List.length_singleton]
            omega
          · simp only [List.length_singleton]
            omega
        next hrest =>
          obtain ⟨c, hc⟩ : ∃ c, f.rest = [c] := by
            have hone := hf.one
            match hmatch : f.rest with
            | [] => exact absurd hmatch hrest
            | [c] => exact ⟨c, rfl⟩
            | _ :: _ :: _ => simp [hmatch] at hone
          exact hround f c bs hc hf

theorem ttyRounds_notStored {channel nr : ℕ} {rounds : List (Tty.TtyQueue × Bool)}
    {rest : List UInt8} (hw : w.stored = start) (h : BytesLeft total bs rest nr) :
    (ttyRounds channel count rounds rest nr w).Along (NotStored start total) bs := by
  induction rounds generalizing rest nr w bs with
  | nil => exact ⟨h.length_le, hw⟩
  | cons round rounds ih =>
      rw [ttyRounds]
      split
      next => exact ⟨h.length_le, hw⟩
      next => exact ttyFill_notStored hw (fun f nr bs hf => ih hw hf) h

theorem rwChar_notStored {dev : ℕ} : (rwChar dev count w).Along (NotStored w.stored count) [] := by
  have hended (e : CallEnd) : (Reading.ended e w : Writing).Along (NotStored w.stored count) [] :=
    ⟨Nat.zero_le _, rfl⟩
  have htty (channel : ℕ) : (ttyWrite channel count w).Along (NotStored w.stored count) [] := by
    unfold ttyWrite
    split
    next => exact hended _
    next => exact ttyRounds_notStored rfl ⟨by simp, Nat.zero_le 1, Nat.zero_le count⟩
  unfold rwChar
  split
  next =>
    unfold rwMemory
    split
    next => exact hended _
    next =>
      split
      next => exact rwPort_notStored rfl (Nat.zero_add count).le
      next => exact hended _
  next => exact htty _
  next =>
    unfold rwTty
    split
    next => exact hended _
    next => exact htty _
  next => exact hended _

/-- What a write has stored is the beginning of what it has read, and it does not
read more than `count` bytes. -/
def Copied (start : List UInt8) (count : ℕ) (bs : List UInt8) (w : Targets) : Prop :=
  bs.length ≤ count ∧ ∃ t, t <+: bs ∧ w.stored = start ++ t

theorem Stored.copied (h : Stored start total bs w) : Copied start total bs w :=
  ⟨h.1, bs, List.prefix_rfl, h.2⟩

theorem NotStored.copied (h : NotStored start total bs w) : Copied start total bs w :=
  ⟨h.1, [], List.nil_prefix, by rw [h.2, List.append_nil]⟩

theorem writeCall_copied (fd : ℕ) (count : ℤ) (w : Targets) :
    (writeCall fd count w).Along (Copied w.stored count.toNat) [] := by
  have hended (e : CallEnd) :
      (Reading.ended e w : Writing).Along (Copied w.stored count.toNat) [] :=
    ⟨Nat.zero_le _, [], List.nil_prefix, (List.append_nil _).symm⟩
  have hstart : w.stored = w.stored ++ [] := (List.append_nil _).symm
  have hzero (k : ℕ) : ([] : List UInt8).length + k ≤ k := (Nat.zero_add k).le
  unfold writeCall
  split
  next => exact hended _
  next file hfile =>
    split
    next => exact hended _
    next =>
      split
      next =>
        split
        next => exact (writePipe_stored hstart (hzero _)).imp fun bs w h => h.copied
        next => exact hended _
      next =>
        split
        next => exact rwChar_notStored.imp fun bs w h => h.copied
        next =>
          split
          next => exact (blockWriteLoop_stored hstart (hzero _)).imp fun bs w h => h.copied
          next =>
            split
            next =>
              refine (fileLoop_stored hstart ?_).imp fun bs w h => h.copied
              rw [Int.sub_zero]
              exact hzero _
            next => exact hended _

end Stored

end MyJavaExample.Fs
