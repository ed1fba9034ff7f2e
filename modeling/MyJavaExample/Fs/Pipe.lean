import Mathlib.Data.Int.Notation
import MyJavaExample.Lib.Ring
import MyJavaExample.Lib.Run

/-!
# Pipes: `fs/pipe.c`

One reader and one writer.  A task runs until it sleeps, which it may do in
`sleep_on` and at every byte it transfers: `get_fs_byte` may fault before it has
the byte, and `put_fs_byte` when the byte was already taken from the page.
Being woken up is left out: a sleeping task may be run at any time and looks at
the pipe again.

`supplied` are the bytes that the writer was given room for, `received` those
that are in the memory of the reader.
-/

namespace MyJavaExample.Fs

open Lib

def PAGE_SIZE : ℕ := 4096

/-- Where the reader is.  `size` and `chars` are the index and the number of the
bytes that are left of its part of the page. -/
inductive Reader where
  | idle
  | sleeping (count read : ℕ)
  | putting (byte : UInt8) (size chars count read : ℕ)

/-- Where the writer is.  `chunk` is what is left of the bytes it has room for
and `rest` the bytes after them. -/
inductive Writer where
  | idle
  | sleeping (buf : List UInt8) (written : ℕ)
  | getting (size : ℕ) (chunk rest : List UInt8) (written : ℕ)

structure Pipe where
  /-- `PIPE_HEAD` and `PIPE_TAIL`. -/
  head : ℕ
  tail : ℕ
  /-- The page at `i_size`. -/
  page : ℕ → UInt8
  iCount : ℕ
  reader : Reader
  writer : Writer
  readRet : ℤ
  writeRet : ℤ
  sigpipe : Bool
  received : List UInt8
  supplied : List UInt8

namespace Pipe

variable (p : Pipe)

/-- `PIPE_SIZE`. -/
def size : ℕ := (p.head + PAGE_SIZE - p.tail) % PAGE_SIZE

/-- A byte is taken from the page; `put_fs_byte` comes next. -/
def readByte (size chars count read : ℕ) : Pipe :=
  { p with reader := .putting (p.page size) (size + 1) (chars - 1) count read }

/-- The loop of `read_pipe`. -/
def readPipe (count read : ℕ) : Pipe :=
  if count = 0 then { p with reader := .idle, readRet := read }
  else if p.size = 0 then
    if p.iCount ≠ 2 then { p with reader := .idle, readRet := read }
    else { p with reader := .sleeping count read }
  else
    let chars := min (min (PAGE_SIZE - p.tail) count) p.size
    let size := p.tail
    let p := { p with tail := (p.tail + chars) % PAGE_SIZE }
    p.readByte size chars (count - chars) (read + chars)

/-- `put_fs_byte` and the loop up to the next one. -/
def putFsByte (byte : UInt8) (size chars count read : ℕ) : Pipe :=
  let p := { p with received := p.received ++ [byte] }
  if chars = 0 then p.readPipe count read else p.readByte size chars count read

/-- The loop of `write_pipe`. -/
def writePipe (buf : List UInt8) (written : ℕ) : Pipe :=
  if buf = [] then { p with writer := .idle, writeRet := written }
  else if PAGE_SIZE - 1 - p.size = 0 then
    if p.iCount ≠ 2 then
      { p with writer := .idle, writeRet := if written = 0 then -1 else written, sigpipe := true }
    else { p with writer := .sleeping buf written }
  else
    let chars := min (min (PAGE_SIZE - p.head) buf.length) (PAGE_SIZE - 1 - p.size)
    { p with
      head := (p.head + chars) % PAGE_SIZE
      supplied := p.supplied ++ buf.take chars
      writer := .getting p.head (buf.take chars) (buf.drop chars) (written + chars) }

/-- `get_fs_byte`, the store, and the loop up to the next one. -/
def getFsByte (size : ℕ) (chunk rest : List UInt8) (written : ℕ) : Pipe :=
  match chunk with
  | [] => p.writePipe rest written
  | byte :: chunk =>
      let p := { p with page := Function.update p.page size byte }
      if chunk = [] then p.writePipe rest written
      else { p with writer := .getting (size + 1) chunk rest written }

end Pipe

inductive PipeAction where
  /-- The reader calls `read_pipe`. -/
  | read (count : ℕ)
  /-- The writer calls `write_pipe`. -/
  | write (buf : List UInt8)
  | runReader
  | runWriter
  /-- Another task changes the number of the users of the inode. -/
  | setCount (iCount : ℕ)

namespace Pipe

/-- An action that the state does not admit changes nothing. -/
def next (p : Pipe) : PipeAction → Pipe
  | .read count =>
      match p.reader with
      | .idle => p.readPipe count 0
      | _ => p
  | .write buf =>
      match p.writer with
      | .idle => p.writePipe buf 0
      | _ => p
  | .runReader =>
      match p.reader with
      | .idle => p
      | .sleeping count read => p.readPipe count read
      | .putting byte size chars count read => p.putFsByte byte size chars count read
  | .runWriter =>
      match p.writer with
      | .idle => p
      | .sleeping buf written => p.writePipe buf written
      | .getting size chunk rest written => p.getFsByte size chunk rest written
  | .setCount iCount => { p with iCount }

/-- A new pipe, with any bytes in its page. -/
def init (page : ℕ → UInt8) : Pipe where
  head := 0
  tail := 0
  page := page
  iCount := 2
  reader := .idle
  writer := .idle
  readRet := 0
  writeRet := 0
  sigpipe := false
  received := []
  supplied := []

/-- What the reader gets is what the writer supplied, in order, and the pipe
holds at most 4095 bytes. -/
structure Fifo (p : Pipe) : Prop where
  received_prefix : p.received <+: p.supplied
  size_le : p.size ≤ 4095

/-! ## Which cells of the page a step uses -/

/-- The cell that the loop of `read_pipe` takes a byte from. -/
def readCell (p : Pipe) (count : ℕ) : Option ℕ :=
  if count = 0 ∨ p.size = 0 then none else some p.tail

/-- The cell that a byte is taken from. -/
def loads (p : Pipe) : PipeAction → Option ℕ
  | .read count =>
      match p.reader with
      | .idle => p.readCell count
      | _ => none
  | .runReader =>
      match p.reader with
      | .idle => none
      | .sleeping count _ => p.readCell count
      | .putting _ size chars count _ => if chars = 0 then p.readCell count else some size
  | _ => none

/-- The cell that a byte is stored in. -/
def stores (p : Pipe) : PipeAction → Option ℕ
  | .runWriter =>
      match p.writer with
      | .getting size _ _ _ => some size
      | _ => none
  | _ => none

end Pipe

/-- The reader has still to take the byte of this cell. -/
def Reader.ToTake : Reader → ℕ → Prop
  | .putting _ size chars _ _, cell => size ≤ cell ∧ cell < size + chars
  | _, _ => False

/-- The writer has still to store the byte of this cell. -/
def Writer.ToFill : Writer → ℕ → Prop
  | .getting size chunk _ _, cell => size ≤ cell ∧ cell < size + chunk.length
  | _, _ => False

instance : ∀ r cell, Decidable (Reader.ToTake r cell)
  | .idle, _ => inferInstanceAs (Decidable False)
  | .sleeping _ _, _ => inferInstanceAs (Decidable False)
  | .putting _ _ _ _ _, _ => inferInstanceAs (Decidable (_ ∧ _))

instance : ∀ w cell, Decidable (Writer.ToFill w cell)
  | .idle, _ => inferInstanceAs (Decidable False)
  | .sleeping _ _, _ => inferInstanceAs (Decidable False)
  | .getting _ _ _ _, _ => inferInstanceAs (Decidable (_ ∧ _))

namespace Pipe

/-- No byte is taken before it is stored, and no byte is stored in the place of
one that is still to be taken. -/
def InOrder (p : Pipe) (a : PipeAction) : Prop :=
  (∀ cell ∈ p.loads a, ¬p.writer.ToFill cell) ∧ ∀ cell ∈ p.stores a, ¬p.reader.ToTake cell

instance (p : Pipe) (a : PipeAction) : Decidable (p.InOrder a) :=
  inferInstanceAs (Decidable (_ ∧ _))

end Pipe

end MyJavaExample.Fs
