import Mathlib.Data.Nat.Digits.Defs
import MyJavaExample.Vfs.ModelList

/-!
# The virtual file system: `PhoneGameVFS/MyVFS.java`

The state is the bytes of the file `myvfs`, the text of the file `record` and
the model list in memory.  Each call of a public method comes with the disk file
it names, as it is at the time of the call.  Calls on the two files of the file
system itself succeed.  A disk file may be missing, refuse to be opened, or
fail while it is read; where the source catches the `IOException` of such a call
and goes on, so does the model.

Methods that can throw return the exception with the state it leaves behind.
-/

namespace MyJavaExample.Vfs

open Java Lib

/-! ## Files on the disk -/

inductive DiskFile where
  | missing
  /-- The file exists but opening it throws. -/
  | unopenable (length : ℕ)
  /-- Reading the byte at `bad` throws. -/
  | damaged (content : List UInt8) (bad : ℕ)
  | readable (content : List UInt8)

namespace DiskFile

def length : DiskFile → ℕ
  | missing => 0
  | unopenable length => length
  | damaged content _ => content.length
  | readable content => content.length

/-- The bytes a `read` of `n` bytes delivers at `pos`, `none` for an
`IOException`.  No byte is delivered at the end of the file. -/
def readAt : DiskFile → ℕ → ℕ → Option (List UInt8)
  | missing, _, _ => none
  | unopenable _, _, _ => none
  | damaged content bad, pos, n =>
      if pos ≤ bad ∧ bad < pos + ((content.drop pos).take n).length then none
      else some ((content.drop pos).take n)
  | readable content, pos, n => some ((content.drop pos).take n)

end DiskFile

/-! ## The record file -/

/-- `Integer.toString`. -/
def intToString : ℤ → List Char
  | .ofNat n => Nat.toDigits 10 n
  | .negSucc n => '-' :: Nat.toDigits 10 (n + 1)

/-- The line of the record file for an entry. -/
def Entry.line (e : Entry) : List Char :=
  e.filename ++ ' ' :: intToString e.off ++ ' ' :: intToString e.len ++ ['\n']

/-- The text that `writeModelList` writes. -/
def writeModelList (ml : ModelList) : List Char :=
  ml.entries.flatMap fun e => if ml.size ≠ 0 then e.line else []

/-- The lines `BufferedReader.readLine` returns, when `acc` has been read of the
first one.  A line ends with a line feed, a carriage return, or both. -/
def readLines : List Char → List Char → List (List Char)
  | [], acc => if acc = [] then [] else [acc]
  | '\n' :: cs, acc => acc :: readLines cs []
  | '\r' :: '\n' :: cs, acc => acc :: readLines cs []
  | '\r' :: cs, acc => acc :: readLines cs []
  | c :: cs, acc => readLines cs (acc ++ [c])

/-- `split(" ")`: trailing empty strings are left out, unless there is no space
at all. -/
def split (s : List Char) : List (List Char) :=
  if ' ' ∈ s then ((s.splitOn ' ').reverse.dropWhile List.isEmpty).reverse else [s]

section Parser

-- `Character.digit(c, 10)`, which knows more digits than those of ASCII
variable (digit : Char → Option ℕ)

/-- The value of a string of digits, read after `acc`. -/
def parseDigits : List Char → ℕ → Option ℕ
  | [], acc => some acc
  | c :: cs, acc => (digit c).bind fun d => parseDigits cs (10 * acc + d)

/-- The value of a non-empty string of digits with its sign, if it is an
`int`. -/
def signedValue (sign : ℤ) (cs : List Char) : Except JExn ℤ :=
  if cs = [] then .error .numberFormat
  else
    match parseDigits digit cs 0 with
    | none => .error .numberFormat
    | some n => if toInt32 (sign * n) = sign * n then .ok (sign * n) else .error .numberFormat

/-- `Integer.valueOf`. -/
def valueOf : List Char → Except JExn ℤ
  | '-' :: cs => signedValue digit (-1) cs
  | '+' :: cs => signedValue digit 1 cs
  | cs => signedValue digit 1 cs

/-- The model of one line. -/
def parseRecord (record : List Char) : Except JExn Entry :=
  match split record with
  | [] => .error .arrayIndexOutOfBounds
  | [_] => .error .arrayIndexOutOfBounds
  | v₀ :: v₁ :: vs => do
      let off ← valueOf digit v₁
      match vs with
      | [] => .error .arrayIndexOutOfBounds
      | v₂ :: _ => do
          let len ← valueOf digit v₂
          pure ⟨v₀, off, len⟩

/-- The lines of the record file are read into a list. -/
def readModels : List (List Char) → ModelList → Except JExn ModelList
  | [], ml => .ok ml
  | record :: records, ml => do
      let e ← parseRecord digit record
      let ml ← ml.addModel e.filename e.off e.len
      readModels records ml

/-- `initDiskFileDir` on a directory with this record file.  A record file that
does not exist yet is created empty. -/
def initDiskFileDir (record : List Char) : Except JExn ModelList :=
  readModels digit (readLines record []) ModelList.new

end Parser

/-! ## The state -/

structure VFS where
  myvfs : List UInt8
  record : List Char
  ml : ModelList

/-- After `initDiskFileDir` on an empty directory. -/
def VFS.empty : VFS := { myvfs := [], record := [], ml := .new }

/-- What a method returns and the state it leaves. -/
abbrev Outcome : Type := Except JExn Unit × VFS

/-! ## `addDiskFile` -/

/-- The loop that appends the file to `myvfs`, 1024 bytes at a time, and whether
it ended without an `IOException`. -/
def appendLoop : ℕ → DiskFile → ℕ → List UInt8 → Bool × List UInt8
  | 0, _, _, myvfs => (true, myvfs)
  | fuel + 1, file, pos, myvfs =>
      match file.readAt pos 1024 with
      | none => (false, myvfs)
      | some [] => (true, myvfs)
      | some bs => appendLoop fuel file (pos + bs.length) (myvfs ++ bs)

def addDiskFile (filename : Name) (file : DiskFile) (s : VFS) : Outcome :=
  match file with
  | .missing => (.ok (), s)
  | .unopenable _ => (.ok (), s)
  | file =>
      match appendLoop (file.length + 1) file 0 s.myvfs with
      | (false, myvfs) => (.ok (), { s with myvfs })
      | (true, myvfs) =>
          let e : Entry :=
            ⟨filename, toInt32 ((myvfs.length : ℤ) - file.length), toInt32 file.length⟩
          match s.ml.addModel e.filename e.off e.len with
          | .error ex => (.error ex, { s with myvfs })
          | .ok ml => (.ok (), { myvfs, ml, record := s.record ++ e.line })

/-! ## `deleteDiskFile` -/

/-- The number of bytes the next turn of a copying loop asks for. -/
def chunk (len n : ℤ) : ℤ := if toInt32 (len - n) < 1024 then toInt32 (len - n) else 1024

/-- `bs` is stored into `data` from `i` on. -/
def overwrite (data : List UInt8) (i : ℕ) (bs : List UInt8) : List UInt8 :=
  data.take i ++ bs ++ data.drop (i + bs.length)

/-- The loop that reads `rest` into `data`. -/
def readLoop : ℕ → List UInt8 → List UInt8 → ℤ → ℤ → Except JExn (List UInt8)
  | 0, data, _, _, _ => .ok data
  | fuel + 1, data, rest, n, len =>
      if n < len then
        if n < 0 ∨ chunk len n < 0 ∨ chunk len n > data.length - n then .error .indexOutOfBounds
        else
          readLoop fuel (overwrite data n.toNat (rest.take (chunk len n).toNat))
            (rest.drop (chunk len n).toNat) (toInt32 (n + 1024)) len
      else .ok data

/-- The loop `data[i] = data[i+len]` up to `stop`. -/
def moveLoop : ℕ → List UInt8 → ℤ → ℤ → ℤ → Except JExn (List UInt8)
  | 0, data, _, _, _ => .ok data
  | fuel + 1, data, i, len, stop =>
      if i < stop then
        let j := toInt32 (i + len)
        if 0 ≤ i ∧ i < data.length ∧ 0 ≤ j ∧ j < data.length then
          moveLoop fuel (data.set i.toNat (data.getD j.toNat 0)) (toInt32 (i + 1)) len stop
        else .error .arrayIndexOutOfBounds
      else .ok data

/-- The loop that writes `data` to the truncated file. -/
def writeLoop : ℕ → List UInt8 → ℤ → ℤ → List UInt8 → Except JExn Unit × List UInt8
  | 0, _, _, _, out => (.ok (), out)
  | fuel + 1, data, n, len, out =>
      if n < len then
        if n < 0 ∨ chunk len n < 0 ∨ chunk len n > data.length - n then
          (.error .indexOutOfBounds, out)
        else
          writeLoop fuel data (toInt32 (n + 1024)) len
            (out ++ (data.drop n.toNat).take (chunk len n).toNat)
      else (.ok (), out)

/-- The turns of a loop over `len` bytes, with room for the turn in which `n`
has overflowed. -/
def turns (len : ℤ) : ℕ := len.toNat / 1024 + 2

/-- The part of `deleteDiskFile` that takes the bytes of a model out. -/
def deleteBytes (myvfs : List UInt8) (off len : ℤ) : Except JExn Unit × List UInt8 :=
  let vfsFileLen := toInt32 myvfs.length
  if vfsFileLen < 0 then (.error .negativeArraySize, myvfs)
  else
    match readLoop (turns vfsFileLen) (List.replicate vfsFileLen.toNat 0) myvfs 0 vfsFileLen with
    | .error e => (.error e, myvfs)
    | .ok data =>
        if len = vfsFileLen then (.ok (), [])
        else
          match moveLoop (myvfs.length - len - off).toNat data off len (myvfs.length - len) with
          | .error e => (.error e, myvfs)
          | .ok data =>
              let vfsFileLen := toInt32 (vfsFileLen - len)
              writeLoop (turns vfsFileLen) data 0 vfsFileLen []

/-- The end of `deleteDiskFile`, after the bytes were taken out. -/
def deleteRecord (s : VFS) (model : ℕ) : Except JExn Unit × List UInt8 → Outcome
  | (.error e, myvfs) => (.error e, { s with myvfs })
  | (.ok _, myvfs) =>
      match s.ml.deleteModel model with
      | .error e => (.error e, { s with myvfs })
      | .ok ml => (.ok (), { myvfs, ml, record := writeModelList ml })

def deleteDiskFile (filename : Name) (s : VFS) : Outcome :=
  match s.ml.findModel filename with
  | none => (.ok (), s)
  | some model =>
      deleteRecord s model (deleteBytes s.myvfs (s.ml.heap model).off (s.ml.heap model).len)

/-! ## `compareDiskFile` -/

/-- `len` bytes, filled up with zeros. -/
def pad (len : ℕ) (bs : List UInt8) : List UInt8 := bs ++ List.replicate (len - bs.length) 0

def compareDiskFile (filename : Name) (file : DiskFile) (s : VFS) : Except JExn Bool :=
  match s.ml.findModel filename with
  | none => .ok false
  | some model =>
      let m := s.ml.heap model
      let len := toInt32 file.length
      if len ≠ m.len then .ok false
      else if len < 0 then .error .negativeArraySize
      else
        let data := pad len.toNat ((file.readAt 0 len.toNat).getD [])
        -- seeking a negative position throws an `IOException`, which is caught
        let data2 := pad len.toNat
          (if m.off < 0 then [] else (s.myvfs.drop m.off.toNat).take len.toNat)
        .ok (data == data2)

/-! ## `updateDiskFile` -/

/-- The loop `data3[i++] = src[j]` up to `stop`. -/
def copyLoop : ℕ → List UInt8 → ℤ → ℤ → List UInt8 × ℕ → Except JExn (List UInt8 × ℕ)
  | 0, _, _, _, dst => .ok dst
  | fuel + 1, src, j, stop, (data3, i) =>
      if j < stop then
        if 0 ≤ j ∧ j < src.length ∧ i < data3.length then
          copyLoop fuel src (j + 1) stop (data3.set i (src.getD j.toNat 0), i + 1)
        else .error .arrayIndexOutOfBounds
      else .ok (data3, i)

/-- The three loops that put `data` into the place of `mlen` bytes of `data2`. -/
def spliceLoops (data2 data : List UInt8) (off mlen len len2 len3 : ℤ) :
    Except JExn (List UInt8) := do
  let dst ← copyLoop off.toNat data2 0 off (List.replicate len3.toNat 0, 0)
  let dst ← copyLoop len.toNat data 0 len dst
  let start := toInt32 (off + mlen)
  let dst ← copyLoop (len2 - start).toNat data2 start len2 dst
  return dst.1

/-- The part of `updateDiskFile` that computes the new bytes of `myvfs`; `none`
when it returns before. -/
def updateBytes (myvfs : List UInt8) (off mlen : ℤ) (file : DiskFile) :
    Except JExn (Option (List UInt8)) :=
  let len := toInt32 file.length
  if len < 0 then .error .negativeArraySize
  else
    let data := file.readAt 0 len.toNat
    if (data.map List.length).any (· ≠ len.toNat) then .ok none
    else
      let len2 := toInt32 myvfs.length
      if len2 < 0 then .error .negativeArraySize
      else
        let data2 := myvfs.take len2.toNat
        if data2.length ≠ len2.toNat then .ok none
        else
          let len3 := toInt32 (len2 - mlen + len)
          if len3 < 0 then .error .negativeArraySize
          else
            -- after an `IOException` the array is still all zero
            let data := data.getD (List.replicate len.toNat 0)
            (spliceLoops data2 data off mlen len len2 len3).map some

/-- The end of `updateDiskFile`, after the new bytes were computed. -/
def updateRecord (s : VFS) (filename : Name) (off len : ℤ) :
    Except JExn (Option (List UInt8)) → Outcome
  | .error e => (.error e, s)
  | .ok none => (.ok (), s)
  | .ok (some myvfs) =>
      let ml := s.ml.updateModel filename off len
      (.ok (), { myvfs, ml, record := writeModelList ml })

def updateDiskFile (filename : Name) (file : DiskFile) (s : VFS) : Outcome :=
  match s.ml.findModel filename with
  | none => (.ok (), s)
  | some model =>
      match compareDiskFile filename file s with
      | .error e => (.error e, s)
      | .ok true => (.ok (), s)
      | .ok false =>
          let m := s.ml.heap model
          updateRecord s filename m.off (toInt32 file.length) (updateBytes s.myvfs m.off m.len file)

/-! ## Calls -/

/-- A call of one of the public methods, with the disk file as it is at the
time of the call. -/
inductive Call where
  | add (filename : Name) (file : DiskFile)
  | delete (filename : Name)
  | update (filename : Name) (file : DiskFile)

def Call.exec : Call → VFS → Outcome
  | add filename file => addDiskFile filename file
  | delete filename => deleteDiskFile filename
  | update filename file => updateDiskFile filename file

/-- The state after a call, whether it returns or throws. -/
def VFS.step (s : VFS) (c : Call) : VFS := (c.exec s).2

end MyJavaExample.Vfs
