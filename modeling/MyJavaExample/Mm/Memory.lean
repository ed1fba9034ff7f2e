import Mathlib.Algebra.Ring.Nat
import Mathlib.Data.Nat.Notation
import Mathlib.Logic.Function.Basic

/-!
# Physical pages and page tables: `mm/memory.c`

A physical page is known by its number, the address without its last 12 bits.
The page directory is at address 0.  A page is kept in two views, as a table of
1024 entries and as 4096 bytes; an entry is kept as its frame and the bits the
code looks at.  The accessed bit, the user bit and the translation buffer are
left out: no decision of the code depends on them.

`panic` ends a run with its message.  `oom` makes the current task exit; the
functions here only report it.
-/

namespace MyJavaExample.Mm

def LOW_MEM : ℕ := 0x100
def PAGING_PAGES : ℕ := 3840
def USED : ℕ := 100

/-! ## Entries -/

structure Entry where
  frame : ℕ
  present : Bool
  writable : Bool
  dirty : Bool
deriving DecidableEq, Repr

namespace Entry

/-- The word 0. -/
def zero : Entry := ⟨0, false, false, false⟩

/-- `page | 7`. -/
def user (page : ℕ) : Entry := ⟨page, true, true, false⟩

/-- `entry & ~2`. -/
def protect (e : Entry) : Entry := { e with writable := false }

end Entry

/-! ## The state -/

structure Memory where
  /-- `mem_map`, by page number. -/
  memMap : ℕ → ℕ
  /-- `HIGH_MEMORY`, as a page number. -/
  highMemory : ℕ
  pgDir : ℕ → Entry
  table : ℕ → ℕ → Entry
  bytes : ℕ → ℕ → UInt8

namespace Memory

variable (m : Memory)

def setCount (page count : ℕ) : Memory := { m with memMap := Function.update m.memMap page count }

def setDir (d : ℕ) (e : Entry) : Memory := { m with pgDir := Function.update m.pgDir d e }

def setEntry (t i : ℕ) (e : Entry) : Memory :=
  { m with table := Function.update m.table t (Function.update (m.table t) i e) }

/-- `rep ; stosl` over the page. -/
def clearPage (page : ℕ) : Memory :=
  { m with table := Function.update m.table page fun _ => .zero
           bytes := Function.update m.bytes page fun _ => 0 }

/-- `copy_page`. -/
def copyPage (old new : ℕ) : Memory :=
  { m with table := Function.update m.table new (m.table old)
           bytes := Function.update m.bytes new (m.bytes old) }

/-- `mem_map[page]++` on an `unsigned char`. -/
def incCount (page : ℕ) : Memory := m.setCount page ((m.memMap page + 1) % 256)

/-- `mem_map[page]--` on an `unsigned char`. -/
def decCount (page : ℕ) : Memory := m.setCount page ((m.memMap page + 255) % 256)

end Memory

/-- The index into the page directory of a linear address. -/
def dirIndex (address : ℕ) : ℕ := address / 2 ^ 22 % 1024

/-- The index into the page table of a linear address. -/
def tableIndex (address : ℕ) : ℕ := address / 2 ^ 12 % 1024

/-! ## Pages -/

/-- The last of the first `n` pages with the count 0. -/
def findFree (memMap : ℕ → ℕ) : ℕ → Option ℕ
  | 0 => none
  | n + 1 => if memMap (LOW_MEM + n) = 0 then some (LOW_MEM + n) else findFree memMap n

def getFreePage (m : Memory) : Option (ℕ × Memory) :=
  (findFree m.memMap PAGING_PAGES).map fun page => (page, (m.setCount page 1).clearPage page)

def freePage (page : ℕ) (m : Memory) : Except String Memory :=
  if page < LOW_MEM then .ok m
  else if page ≥ m.highMemory then .error "trying to free nonexistent page"
  else if m.memMap page ≠ 0 then .ok (m.decCount page)
  else .error "trying to free free page"

/-! ## `free_page_tables` -/

def freeEntry (t i : ℕ) (m : Memory) : Except String Memory := do
  let m ← if (m.table t i).present then freePage (m.table t i).frame m else pure m
  return m.setEntry t i .zero

/-- `n` entries of a table from `i` on. -/
def freeEntries (t : ℕ) : ℕ → ℕ → Memory → Except String Memory
  | 0, _, m => .ok m
  | n + 1, i, m => do freeEntries t n (i + 1) (← freeEntry t i m)

def freeDir (d : ℕ) (m : Memory) : Except String Memory :=
  if (m.pgDir d).present then do
    let t := (m.pgDir d).frame
    let m ← freeEntries t 1024 0 m
    let m ← freePage t m
    return m.setDir d .zero
  else .ok m

def freeDirs : ℕ → ℕ → Memory → Except String Memory
  | 0, _, m => .ok m
  | n + 1, d, m => do freeDirs n (d + 1) (← freeDir d m)

/-- The number of directory entries a segment needs. -/
def dirCount (size : ℕ) : ℕ := (size + 0x3fffff) % 2 ^ 32 / 2 ^ 22

def freePageTables (start size : ℕ) (m : Memory) : Except String Memory :=
  if start % 2 ^ 22 ≠ 0 then .error "free_page_tables called with wrong alignment"
  else if start = 0 then .error "Trying to free up swapper memory space"
  else freeDirs (dirCount size) (start / 2 ^ 22) m

/-! ## `copy_page_tables` -/

def copyEntry (source target i : ℕ) (m : Memory) : Memory :=
  let thisPage := m.table source i
  if thisPage.present then
    let thisPage := thisPage.protect
    let m := m.setEntry target i thisPage
    -- the word is greater than `LOW_MEM`, its present bit included
    if thisPage.frame ≥ LOW_MEM then (m.setEntry source i thisPage).incCount thisPage.frame
    else m
  else m

def copyEntries (source target : ℕ) : ℕ → ℕ → Memory → Memory
  | 0, _, m => m
  | n + 1, i, m => copyEntries source target n (i + 1) (copyEntry source target i m)

/-- `n` entries of the directory, `nr` entries of each table.  The result `false`
stands for -1. -/
def copyDirs (nr : ℕ) : ℕ → ℕ → ℕ → Memory → Except String (Bool × Memory)
  | 0, _, _, m => .ok (true, m)
  | n + 1, d, d', m =>
      if (m.pgDir d').present then .error "copy_page_tables: already exist"
      else if ¬(m.pgDir d).present then copyDirs nr n (d + 1) (d' + 1) m
      else
        match getFreePage m with
        | none => .ok (false, m)
        | some (t, m) =>
            let m := m.setDir d' (.user t)
            copyDirs nr n (d + 1) (d' + 1) (copyEntries (m.pgDir d).frame t nr 0 m)

def copyPageTables (start target size : ℕ) (m : Memory) : Except String (Bool × Memory) :=
  if start % 2 ^ 22 ≠ 0 ∨ target % 2 ^ 22 ≠ 0 then
    .error "copy_page_tables called with wrong alignment"
  else
    copyDirs (if start = 0 then 0xA0 else 1024) (dirCount size) (start / 2 ^ 22) (target / 2 ^ 22) m

/-! ## Mapping one page -/

/-- `put_page`, `none` for the result 0.  The two warnings are left out. -/
def putPage (page address : ℕ) (m : Memory) : Option Memory :=
  let d := dirIndex address
  if (m.pgDir d).present then
    some (m.setEntry (m.pgDir d).frame (tableIndex address) (.user page))
  else
    (getFreePage m).map fun (t, m) =>
      (m.setDir d (.user t)).setEntry t (tableIndex address) (.user page)

/-- `un_wp_page`, `none` when it runs out of memory. -/
def unWpPage (t i : ℕ) (m : Memory) : Option Memory :=
  let old := (m.table t i).frame
  if old ≥ LOW_MEM ∧ m.memMap old = 1 then
    some (m.setEntry t i { m.table t i with writable := true })
  else
    (getFreePage m).map fun (new, m) =>
      let m := if old ≥ LOW_MEM then m.decCount old else m
      (m.setEntry t i (.user new)).copyPage old new

def doWpPage (address : ℕ) (m : Memory) : Option Memory :=
  unWpPage (m.pgDir (dirIndex address)).frame (tableIndex address) m

def writeVerify (address : ℕ) (m : Memory) : Option Memory :=
  let dir := m.pgDir (dirIndex address)
  let e := m.table dir.frame (tableIndex address)
  if dir.present ∧ e.present ∧ ¬e.writable then unWpPage dir.frame (tableIndex address) m
  else some m

/-- What a function that can run out of memory leaves. -/
inductive Outcome where
  | done (m : Memory)
  | oom (m : Memory)
  | panic (message : String)

/-- A page that could not be put is freed before the task exits. -/
def freeAndOom (page : ℕ) (m : Memory) : Outcome :=
  match freePage page m with
  | .ok m => .oom m
  | .error message => .panic message

def getEmptyPage (address : ℕ) (m : Memory) : Outcome :=
  match getFreePage m with
  | none => .oom m
  | some (tmp, m) =>
      match putPage tmp address m with
      | some m => .done m
      | none => freeAndOom tmp m

/-! ## Sharing -/

/-- The result of `try_to_share`. -/
inductive Sharing where
  | shared (m : Memory)
  | notShared
  | oom
  | panic (message : String)

/-- The last part of `try_to_share`, with both tables there. -/
def shareEntry (source target i : ℕ) (m : Memory) : Sharing :=
  if (m.table target i).present then .panic "try_to_share: to_page already exists"
  else
    let m := m.setEntry source i (m.table source i).protect
    let m := m.setEntry target i (m.table source i)
    .shared (m.incCount (m.table source i).frame)

/-- `try_to_share` for the relative `address`, from the task that starts at
`source` to the one that starts at `target`. -/
def tryToShare (address source target : ℕ) (m : Memory) : Sharing :=
  let d := dirIndex address + dirIndex source
  let d' := dirIndex address + dirIndex target
  let i := tableIndex address
  if ¬(m.pgDir d).present then .notShared
  else
    let e := m.table (m.pgDir d).frame i
    if ¬(e.present ∧ ¬e.dirty) then .notShared
    else if e.frame ≥ m.highMemory ∨ e.frame < LOW_MEM then .notShared
    else if (m.pgDir d').present then shareEntry (m.pgDir d).frame (m.pgDir d').frame i m
    else
      match getFreePage m with
      | none => .oom
      | some (t, m) => shareEntry (m.pgDir d).frame t i (m.setDir d' (.user t))

end MyJavaExample.Mm
