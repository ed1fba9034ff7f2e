import Mathlib.Data.Int.Notation
import Mathlib.Data.List.Basic
import MyJavaExample.Mm.Memory

/-!
# Tasks and shared memory: `mm/shm.c`

Of a task only what the memory management reads is kept.  Both segments of a
task have one base, `start_code`.
-/

namespace MyJavaExample.Mm

def PAGE_SIZE : ℕ := 4096
def MAX_SHARE_MEMORY_SIZE : ℕ := 100
def EINVAL : ℤ := 22
def ENOMEM : ℤ := 12

structure Task where
  /-- The page of the task structure. -/
  page : ℕ
  pid : ℤ
  startCode : ℕ
  codeLimit : ℕ
  dataLimit : ℕ
  endData : ℕ
  executable : Option ℕ
  shareMemoryNum : ℕ
  zombie : Bool
deriving DecidableEq

structure ShareMemory where
  key : ℤ
  shmid : ℤ
  virtualAddress : ℕ
  page : ℕ
  pid : ℤ

/-- The static variables of `shm.c`.  `shareNum` is never used. -/
structure Shm where
  shareMemoryArr : ℕ → ShareMemory
  init : Bool

namespace Shm

/-- Before the first call. -/
def zero : Shm := ⟨fun _ => ⟨0, 0, 0, 0, 0⟩, false⟩

def initKeyArrIfNot (shm : Shm) : Shm :=
  if shm.init then shm
  else
    { shareMemoryArr := fun i => { shm.shareMemoryArr i with shmid := -1 }
      init := true }

/-- The first index of the array whose element satisfies `p`. -/
def find (shm : Shm) (p : ShareMemory → Bool) : Option ℕ :=
  (List.range MAX_SHARE_MEMORY_SIZE).find? fun i => p (shm.shareMemoryArr i)

def getShmid (shm : Shm) (key : ℤ) : Option ℕ :=
  shm.find fun slot => slot.shmid ≠ -1 ∧ slot.key = key

def getFreeShm (shm : Shm) : Option ℕ := shm.find fun slot => slot.shmid = -1

end Shm

/-- What `sys_shmget` returns and leaves. -/
structure ShmgetResult where
  ret : ℤ
  current : Task
  mem : Memory
  shm : Shm

/-- The end of `sys_shmget`: the page is mapped and the element is filled in. -/
def shmMap (key : ℤ) (page index : ℕ) (current : Task) (m : Memory) (shm : Shm) : ShmgetResult :=
  let virtualAddress := (current.endData + current.shareMemoryNum * PAGE_SIZE) % 2 ^ 32
  let linearAddress := (current.startCode + virtualAddress) % 2 ^ 32
  match putPage page linearAddress m with
  | none => ⟨-ENOMEM, current, m, shm⟩
  | some m =>
      { ret := index
        current := { current with shareMemoryNum := current.shareMemoryNum + 1 }
        mem := m
        shm := { shm with
          shareMemoryArr := Function.update shm.shareMemoryArr index
            ⟨key, index, virtualAddress, page, current.pid⟩ } }

def sysShmget (key : ℤ) (size : ℕ) (current : Task) (m : Memory) (shm : Shm) : ShmgetResult :=
  let shm := shm.initKeyArrIfNot
  if size > PAGE_SIZE then ⟨-EINVAL, current, m, shm⟩
  else
    match shm.getShmid key with
    | some shmIndex =>
        let slot := shm.shareMemoryArr shmIndex
        if slot.pid = current.pid then ⟨slot.shmid, current, m, shm⟩
        else shmMap key slot.page shmIndex current m shm
    | none =>
        match getFreePage m with
        | none => ⟨-ENOMEM, current, m, shm⟩
        | some (page, m) =>
            match shm.getFreeShm with
            | none => ⟨-ENOMEM, current, m, shm⟩
            | some availableShmIndex => shmMap key page availableShmIndex current m shm

/-- `sys_shmat`: the address, or an error as a negative number. -/
def sysShmat (shmid : ℤ) (shm : Shm) : ℤ × Shm :=
  let shm := shm.initKeyArrIfNot
  if shmid < 0 ∨ shmid ≥ MAX_SHARE_MEMORY_SIZE then (-EINVAL, shm)
  else
    match shm.find fun slot => slot.shmid = shmid with
    | none => (-EINVAL, shm)
    | some i => ((shm.shareMemoryArr i).virtualAddress, shm)

/-! ## What the calls do -/

/-- The address at which `sys_shmget` maps the page. -/
def Task.shmAddress (current : Task) : ℕ :=
  (current.endData + current.shareMemoryNum * PAGE_SIZE) % 2 ^ 32

namespace Shm

def setSlot (shm : Shm) (index : ℕ) (slot : ShareMemory) : Shm :=
  { shm with shareMemoryArr := Function.update shm.shareMemoryArr index slot }

@[simp]
theorem setSlot_self (shm : Shm) (index : ℕ) (slot : ShareMemory) :
    (shm.setSlot index slot).shareMemoryArr index = slot :=
  Function.update_self ..

theorem setSlot_of_ne (shm : Shm) {i index : ℕ} (h : i ≠ index) (slot : ShareMemory) :
    (shm.setSlot index slot).shareMemoryArr i = shm.shareMemoryArr i :=
  Function.update_of_ne h ..

variable {shm : Shm} {i : ℕ} {q : ShareMemory → Bool}

theorem find_some (h : shm.find q = some i) :
    i < MAX_SHARE_MEMORY_SIZE ∧ q (shm.shareMemoryArr i) := by
  have hq := List.find?_some h
  exact ⟨List.mem_range.1 (List.mem_of_find?_eq_some h), hq⟩

theorem find_none (h : shm.find q = none) (hi : i < MAX_SHARE_MEMORY_SIZE) :
    ¬q (shm.shareMemoryArr i) :=
  List.find?_eq_none.1 h i (List.mem_range.2 hi)

/-- The only slot with a property is found. -/
theorem find_eq_some (hi : i < MAX_SHARE_MEMORY_SIZE) (hq : q (shm.shareMemoryArr i))
    (hunique : ∀ j < MAX_SHARE_MEMORY_SIZE, q (shm.shareMemoryArr j) → j = i) :
    shm.find q = some i := by
  cases h : shm.find q with
  | none => exact absurd hq (find_none h hi)
  | some j =>
      obtain ⟨hj, hqj⟩ := find_some h
      rw [hunique j hj hqj]

theorem getShmid_some {key : ℤ} (h : shm.getShmid key = some i) :
    i < MAX_SHARE_MEMORY_SIZE ∧ (shm.shareMemoryArr i).shmid ≠ -1 ∧
      (shm.shareMemoryArr i).key = key := by
  obtain ⟨hi, hq⟩ := find_some h
  exact ⟨hi, by simpa using hq⟩

theorem getShmid_none {key : ℤ} (h : shm.getShmid key = none) (hi : i < MAX_SHARE_MEMORY_SIZE)
    (hid : (shm.shareMemoryArr i).shmid ≠ -1) : (shm.shareMemoryArr i).key ≠ key := by
  intro hkey
  exact find_none h hi (by simp [hid, hkey])

theorem getFreeShm_some (h : shm.getFreeShm = some i) :
    i < MAX_SHARE_MEMORY_SIZE ∧ (shm.shareMemoryArr i).shmid = -1 := by
  obtain ⟨hi, hq⟩ := find_some h
  exact ⟨hi, by simpa using hq⟩

theorem getFreeShm_none (h : shm.getFreeShm = none) (hi : i < MAX_SHARE_MEMORY_SIZE) :
    (shm.shareMemoryArr i).shmid ≠ -1 := by
  intro hid
  exact find_none h hi (by simp [hid])

end Shm

/-- What `sys_shmget` can do: it fails, it finds the caller's own slot, or it
maps a page and fills in a slot. -/
theorem sysShmget_cases {key : ℤ} {size : ℕ} {current : Task} {m : Memory} {shm : Shm}
    {r : ShmgetResult} (hr : sysShmget key size current m shm = r) :
    (r.ret < 0 ∧ r.current = current ∧ r.shm = shm.initKeyArrIfNot ∧
      (r.mem = m ∨ ∃ p, getFreePage m = some (p, r.mem))) ∨
    (∃ i, shm.initKeyArrIfNot.getShmid key = some i ∧
      (shm.initKeyArrIfNot.shareMemoryArr i).pid = current.pid ∧ size ≤ PAGE_SIZE ∧
      r = ⟨(shm.initKeyArrIfNot.shareMemoryArr i).shmid, current, m, shm.initKeyArrIfNot⟩) ∨
    (∃ index page m₁, size ≤ PAGE_SIZE ∧
      (shm.initKeyArrIfNot.getShmid key = some index ∧ m₁ = m ∧
          (shm.initKeyArrIfNot.shareMemoryArr index).page = page ∧
          (shm.initKeyArrIfNot.shareMemoryArr index).pid ≠ current.pid ∨
        shm.initKeyArrIfNot.getShmid key = none ∧ getFreePage m = some (page, m₁) ∧
          shm.initKeyArrIfNot.getFreeShm = some index) ∧
      putPage page ((current.startCode + current.shmAddress) % 2 ^ 32) m₁ = some r.mem ∧
      r.ret = index ∧ r.current = { current with shareMemoryNum := current.shareMemoryNum + 1 } ∧
      r.shm = shm.initKeyArrIfNot.setSlot index
        ⟨key, index, current.shmAddress, page, current.pid⟩) := by
  have hmap : ∀ page index m₁, shmMap key page index current m₁ shm.initKeyArrIfNot = r →
      (r.ret < 0 ∧ r.current = current ∧ r.shm = shm.initKeyArrIfNot ∧ r.mem = m₁) ∨
      putPage page ((current.startCode + current.shmAddress) % 2 ^ 32) m₁ = some r.mem ∧
      r.ret = index ∧ r.current = { current with shareMemoryNum := current.shareMemoryNum + 1 } ∧
      r.shm = shm.initKeyArrIfNot.setSlot index
        ⟨key, index, current.shmAddress, page, current.pid⟩ := by
    intro page index m₁ hmap
    unfold shmMap at hmap
    dsimp only at hmap
    split at hmap
    next =>
      subst hmap
      exact .inl ⟨show -ENOMEM < 0 by decide, rfl, rfl, rfl⟩
    next m' hput =>
      subst hmap
      exact .inr ⟨hput, rfl, rfl, rfl⟩
  unfold sysShmget at hr
  dsimp only at hr
  split at hr
  next =>
    subst hr
    exact .inl ⟨show -EINVAL < 0 by decide, rfl, rfl, .inl rfl⟩
  next hsize =>
    have hsize := Nat.not_lt.1 hsize
    split at hr
    next index hid =>
      split at hr
      next hpid => exact .inr (.inl ⟨index, hid, hpid, hsize, hr.symm⟩)
      next hpid =>
        rcases hmap _ _ _ hr with ⟨h₁, h₂, h₃, h₄⟩ | hmapped
        · exact .inl ⟨h₁, h₂, h₃, .inl h₄⟩
        · exact .inr (.inr ⟨index, _, m, hsize, .inl ⟨hid, rfl, rfl, hpid⟩, hmapped⟩)
    next hid =>
      split at hr
      next =>
        subst hr
        exact .inl ⟨show -ENOMEM < 0 by decide, rfl, rfl, .inl rfl⟩
      next page m₁ hget =>
        split at hr
        next =>
          subst hr
          exact .inl ⟨show -ENOMEM < 0 by decide, rfl, rfl, .inr ⟨page, hget⟩⟩
        next index hfree =>
          rcases hmap _ _ _ hr with ⟨h₁, h₂, h₃, h₄⟩ | hmapped
          · exact .inl ⟨h₁, h₂, h₃, .inr ⟨page, h₄ ▸ hget⟩⟩
          · exact .inr (.inr ⟨index, page, m₁, hsize, .inr ⟨hid, hget, hfree⟩, hmapped⟩)

end MyJavaExample.Mm
