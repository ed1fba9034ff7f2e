import Mathlib.Data.Fintype.Card
import MyJavaExample.Lib.Int32

/-!
# Named semaphores: `kernel/sem.c`

The table `ksem` of `MAX_SEM_NUM` semaphores and its system calls.  A name is a
C string, kept in a `char[MAX_NAME_LEN]` that `strncpy` fills without a
terminator, so a stored name is read up to the first zero byte of its array.
The interrupt flag is part of the state, since every call runs between `cli`
and `sti`.

The value `none` of `sysSemOpen` is undefined behaviour: a name longer than its
array, or a full table, where the source indexes `ksem` by the variable
`unused` it never assigned.

A wait and a post have a loop each.  The part of the call before its loop and
one test of its loop condition are separate functions, because the tests are
the points where another task may run.
-/

namespace MyJavaExample.Kernel

open Lib (toInt32)

/-! ## C strings -/

/-- The bytes of a C string, without its terminating zero. -/
abbrev CString : Type := { l : List UInt8 // 0 ∉ l }

/-- The C string that starts at the beginning of a `char` array. -/
def cstr (a : List UInt8) : List UInt8 := a.takeWhile (· ≠ 0)

def strlen (n : CString) : ℕ := n.1.length

/-- `strncpy(dest, src, count)` for `count ≤ sizeof(dest)`. -/
def strncpy (dest : List UInt8) (src : CString) (count : ℕ) : List UInt8 :=
  (src.1 ++ List.replicate count 0).take count ++ dest.drop count

/-! ## The table -/

def MAX_SEM_NUM : ℕ := 10

def MAX_NAME_LEN : ℕ := 10

/-- The number of a task in the task table. -/
abbrev TaskNr : Type := ℕ

/-- `struct sem_st`. -/
structure SemSt where
  name : List UInt8
  head : Option TaskNr
  use : ℤ
  semV : ℤ
deriving DecidableEq, Repr

/-- An index of `ksem`. -/
abbrev SemId : Type := Fin MAX_SEM_NUM

/-- The variables of `sem.c` and the interrupt flag of the processor. -/
structure SemState where
  ksem : SemId → SemSt
  init : Bool
  intr : Bool

/-- The semaphores before the first call: static storage is zero. -/
def SemState.boot : SemState where
  ksem := fun _ => ⟨List.replicate MAX_NAME_LEN 0, none, 0, 0⟩
  init := false
  intr := true

def cli (s : SemState) : SemState := { s with intr := false }

def sti (s : SemState) : SemState := { s with intr := true }

/-- The first call of `sys_sem_open` clears the table. -/
def initKsem (s : SemState) : SemState :=
  if s.init then s
  else
    { s with
      ksem := fun i =>
        { s.ksem i with name := List.replicate MAX_NAME_LEN 0, use := 0, head := none }
      init := true }

/-- Write one slot of the table. -/
def setSem (s : SemState) (i : SemId) (x : SemSt) : SemState :=
  { s with ksem := Function.update s.ksem i x }

@[simp] theorem setSem_self (s : SemState) (i : SemId) (x : SemSt) :
    (setSem s i x).ksem i = x := by
  simp [setSem]

theorem setSem_ne (s : SemState) {i j : SemId} (x : SemSt) (h : j ≠ i) :
    (setSem s i x).ksem j = s.ksem j := by
  simp [setSem, h]

@[simp] theorem setSem_init (s : SemState) (i : SemId) (x : SemSt) :
    (setSem s i x).init = s.init := rfl

@[simp] theorem cli_ksem (s : SemState) : (cli s).ksem = s.ksem := rfl

@[simp] theorem cli_init (s : SemState) : (cli s).init = s.init := rfl

@[simp] theorem sti_ksem (s : SemState) : (sti s).ksem = s.ksem := rfl

@[simp] theorem sti_init (s : SemState) : (sti s).init = s.init := rfl

/-! ## `sys_sem_open` -/

/-- What the search loop of `sys_sem_open` ends with. -/
inductive Search where
  /-- The index of a slot with the wanted name. -/
  | found (i : SemId)
  /-- No slot has the name; the last value of the variable `unused`, if it was
      assigned. -/
  | missing (unused : Option SemId)
deriving DecidableEq

/-- The search loop over the remaining indices. -/
def search (ksem : SemId → SemSt) (name : CString) :
    List SemId → Option SemId → Search
  | [], unused => .missing unused
  | i :: is, unused =>
      if cstr (ksem i).name = name.1 then .found i
      else search ksem name is (if (ksem i).use = 0 then some i else unused)

theorem search_found {ksem : SemId → SemSt} {n : CString} :
    ∀ {is : List SemId} {u : Option SemId} {i : SemId},
      search ksem n is u = .found i → cstr (ksem i).name = n.1
  | [], _, _, h => by simp [search] at h
  | j :: is, u, i, h => by
      simp only [search] at h
      split at h
      next hj =>
        cases h
        exact hj
      next => exact search_found h

/-- Once `unused` is assigned it stays assigned. -/
theorem search_some {ksem : SemId → SemSt} {n : CString} :
    ∀ {is : List SemId} {j : SemId} {w : Option SemId},
      search ksem n is (some j) = .missing w → w ≠ none
  | [], j, w, h => by
      simp only [search, Search.missing.injEq] at h
      simp [← h]
  | i :: is, j, w, h => by
      simp only [search] at h
      split at h
      next => cases h
      next =>
        split at h
        next => exact search_some h
        next => exact search_some h

/-- When the loop ends without a match, no slot has the name, and `unused` is
an unused slot if there is one. -/
theorem search_missing {ksem : SemId → SemSt} {n : CString} :
    ∀ {is : List SemId} {u w : Option SemId}, search ksem n is u = .missing w →
      (∀ j ∈ u, (ksem j).use = 0) →
      (∀ i ∈ is, cstr (ksem i).name ≠ n.1) ∧ (∀ j ∈ w, (ksem j).use = 0) ∧
        (w = none → ∀ i ∈ is, (ksem i).use ≠ 0)
  | [], u, w, h, hu => by
      simp only [search, Search.missing.injEq] at h
      subst h
      exact ⟨by simp, hu, by simp⟩
  | j :: is, u, w, h, hu => by
      simp only [search] at h
      split at h
      next => cases h
      next hj =>
        by_cases hz : (ksem j).use = 0
        · rw [if_pos hz] at h
          obtain ⟨h1, h2, h3⟩ := search_missing h (by simpa using hz)
          refine ⟨List.forall_mem_cons.2 ⟨hj, h1⟩, h2, fun hw => ?_⟩
          exact absurd hw (search_some h)
        · rw [if_neg hz] at h
          obtain ⟨h1, h2, h3⟩ := search_missing h hu
          exact ⟨List.forall_mem_cons.2 ⟨hj, h1⟩, h2,
            fun hw => List.forall_mem_cons.2 ⟨hz, h3 hw⟩⟩

/-- `sys_sem_open(name, value)`, where a null pointer is `none`. -/
def sysSemOpen (name : Option CString) (value : ℤ) (s : SemState) : Option (ℤ × SemState) :=
  match name with
  | none => some (-1, s)
  | some n =>
      if strlen n = 0 ∨ value < 0 then some (-1, s)
      else
        let s := initKsem (cli s)
        match search s.ksem n (List.finRange MAX_SEM_NUM) none with
        | .found i => some (i, s)
        | .missing none => none
        | .missing (some u) =>
            if MAX_NAME_LEN < strlen n then none
            else
              let x := { s.ksem u with
                name := strncpy (s.ksem u).name n (strlen n), use := 1, semV := value }
              -- the loop variable has run to the end of the table
              some (MAX_SEM_NUM, sti (setSem s u x))

/-! ## `sys_sem_wait` and `sys_sem_post` -/

/-- How far a call gets before its loop: it returns at once, or it enters the
loop on a slot. -/
inductive Entry where
  | returns (v : ℤ) (s : SemState)
  | loops (i : SemId) (s : SemState)

/-- The part of `sys_sem_wait` and `sys_sem_post` before the loop.  They differ
in what they add to `sem_v`. -/
def semEnter (delta : ℤ) (sem : ℤ) (s : SemState) : Entry :=
  if h : 0 ≤ sem ∧ sem < MAX_SEM_NUM then
    let i : SemId := ⟨sem.toNat, by omega⟩
    let s := cli s
    if (s.ksem i).use = 0 then .returns (-1) s
    else .loops i (setSem s i { s.ksem i with semV := toInt32 ((s.ksem i).semV + delta) })
  else .returns (-1) s

/-- `sys_sem_wait` up to its loop. -/
def sysSemWaitEnter : ℤ → SemState → Entry := semEnter (-1)

/-- `sys_sem_post` up to its loop. -/
def sysSemPostEnter : ℤ → SemState → Entry := semEnter 1

/-- The loop condition of `sys_sem_wait`. -/
def waitBlocked (s : SemState) (i : SemId) : Bool := decide ((s.ksem i).semV < 0)

/-- The loop condition of `sys_sem_post`. -/
def postBlocked (s : SemState) (i : SemId) : Bool := decide ((s.ksem i).semV ≤ 0)

end MyJavaExample.Kernel
