import Mathlib.Algebra.Ring.Nat
import Mathlib.Data.List.Basic
import Mathlib.Logic.Function.Basic

/-!
# The arguments of `execve`: `copy_strings` of `fs/exec.c`

`do_execve` copies the strings of the environment and the arguments into up to
32 pages, from the top down: `p` is the position of the last byte copied, and a
page is allocated when `p` comes into it.  The bytes of a page are reached
through `pag` and `offset`, which are looked up anew at each page boundary and
at the begin of each call.

The guard `p-len < 0` compares unsigned numbers and never holds.  So a call that
has some room left and needs more runs over the front of the pages: `p` wraps
around and `page` is indexed far outside.  A call that begins with no room left
returns zero.
-/

namespace MyJavaExample.Exec

def PAGE_SIZE : ℕ := 4096

def MAX_ARG_PAGES : ℕ := 32

/-- `PAGE_SIZE*MAX_ARG_PAGES-4`, where `p` begins. -/
def ARG_SIZE : ℕ := 131068

def ENOMEM : ℤ := 12

/-- A page of `page[]`: its frame, which `get_free_page` gave, and its bytes.
Nobody else uses the frame. -/
structure ArgPage where
  frame : ℕ
  data : ℕ → UInt8

/-- The variables of `copy_strings` and the pages.  `requests` counts the calls
of `get_free_page` and `allocated` has the frames that it gave. -/
structure Copy where
  page : Fin MAX_ARG_PAGES → Option ArgPage
  allocated : List ℕ
  requests : ℕ
  p : UInt32
  pag : Option (Fin MAX_ARG_PAGES)
  offset : ℤ

/-- How `copy_strings` ends in the middle: it returns zero, or it reads `page[]`
outside its bounds. -/
inductive Stop where
  | zero (c : Copy)
  | outside

/-- A string without its terminator. -/
structure CString where
  bytes : List UInt8
  noZero : ∀ b ∈ bytes, b ≠ 0

namespace CString

/-- The bytes of the string, the terminator too. -/
def terminated (s : CString) : List UInt8 := s.bytes ++ [0]

end CString

/-- What the first line of a script gives. -/
structure Script where
  i_name : CString
  i_arg : Option CString
  /-- The error if the interpreter cannot be executed. -/
  refused : Option ℤ

/-- The strings of a call of `execve`.  The file itself has passed the checks. -/
structure ExecArgs where
  filename : CString
  argv : List CString
  envp : List CString
  script : Option Script

/-- How `do_execve` goes on from the copying. -/
inductive ExecResult where
  | returns (retval : ℤ) (freed : List ℕ) (c : Copy)
  | pointOfNoReturn (c : Copy)
  | outside

namespace Copy

def start : Copy where
  page _ := none
  allocated := []
  requests := 0
  p := 131068
  pag := none
  offset := 0

/-- `*(pag + offset) = b` -/
def store (c : Copy) (b : UInt8) : Copy :=
  match c.pag with
  | none => c
  | some i =>
      { c with
        page := Function.update c.page i ((c.page i).map fun g =>
          { g with data := Function.update g.data c.offset.toNat b }) }

section

-- the results of the calls of `get_free_page`, one after the other
variable (getFreePage : ℕ → Option ℕ)

/-- The branch `--offset < 0`, for the position `c.p`. -/
def lookup (c : Copy) : Except Stop Copy :=
  if h : c.p.toNat / PAGE_SIZE < MAX_ARG_PAGES then
    let i : Fin MAX_ARG_PAGES := ⟨c.p.toNat / PAGE_SIZE, h⟩
    let c := { c with pag := some i, offset := ((c.p.toNat % PAGE_SIZE : ℕ) : ℤ) }
    match c.page i with
    | some _ => pure c
    | none =>
        match getFreePage c.requests with
        | none => throw (.zero { c with requests := c.requests + 1 })
        | some frame =>
            pure { c with
              page := Function.update c.page i (some ⟨frame, fun _ => 0⟩)
              allocated := frame :: c.allocated
              requests := c.requests + 1 }
  else throw .outside

/-- The body of `while (len)`. -/
def copyByte (c : Copy) (b : UInt8) : Except Stop Copy := do
  let c := { c with p := c.p - 1, offset := c.offset - 1 }
  let c ← if c.offset < 0 then c.lookup getFreePage else pure c
  pure (c.store b)

/-- The body of `while (argc-- > 0)`: one string, from its terminator on down. -/
def copyString (c : Copy) (str : CString) : Except Stop Copy :=
  if c.p - UInt32.ofNat str.terminated.length < 0 then throw (.zero c)
  else str.terminated.reverse.foldlM (copyByte getFreePage) c

/-- `copy_strings`; the result is in `p`. -/
def copyStrings (c : Copy) (argv : List CString) : Except Unit Copy :=
  if c.p = 0 then pure c
  else
    match argv.reverse.foldlM (copyString getFreePage) { c with pag := none, offset := 0 } with
    | .ok c => pure c
    | .error (.zero c) => pure { c with p := 0 }
    | .error .outside => throw ()

/-- The frames that the loop at `exec_error1` gives back. -/
def freed (c : Copy) : List ℕ :=
  (List.finRange MAX_ARG_PAGES).filterMap fun i => (c.page i).map ArgPage.frame

end

end Copy

namespace ExecArgs

variable (e : ExecArgs) (getFreePage : ℕ → Option ℕ)

/-- The calls of `copy_strings`, in order. -/
def calls : List (List CString) :=
  match e.script with
  | none => [e.envp, e.argv]
  | some script =>
      [e.envp, e.argv.tail, [e.filename]] ++ script.i_arg.toList.map (fun i_arg => [i_arg]) ++
        [[script.i_name]]

def copyArgs : Except Unit Copy := e.calls.foldlM (Copy.copyStrings getFreePage) .start

/-- `do_execve` from the copying of the arguments on. -/
def doExecve : ExecResult :=
  match e.copyArgs getFreePage with
  | .error _ => .outside
  | .ok c =>
      if c.p = 0 then .returns (-ENOMEM) c.freed c
      else
        match e.script.bind Script.refused with
        | some retval => .returns retval c.freed c
        | none => .pointOfNoReturn c

end ExecArgs

end MyJavaExample.Exec
