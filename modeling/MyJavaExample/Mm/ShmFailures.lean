import MyJavaExample.Mm.Consistency
import MyJavaExample.Mm.Shm

/-!
# What a failing `sys_shmget` leaves behind

For a new key the page is allocated first.  If there is no free slot then, or no
page for the page table that maps it, the call fails and keeps the page.  Every
other failure comes before the first change (`shmMap_eq_of_none`,
`sysShmget_unchanged_iff`).
-/

namespace MyJavaExample.Mm

/-! ## Free pages -/

/-- `get_free_page` can return the page. -/
def Memory.Free (m : Memory) (p : ℕ) : Prop :=
  LOW_MEM ≤ p ∧ p < LOW_MEM + PAGING_PAGES ∧ m.memMap p = 0

section Pages

variable {m m' : Memory} {p q : ℕ}

theorem findFree_lt {memMap : ℕ → ℕ} {n : ℕ} (h : findFree memMap n = some p) :
    p < LOW_MEM + n := by
  induction n with
  | zero => cases h
  | succ n ih =>
      rw [findFree] at h
      split at h
      next =>
        cases h
        omega
      next =>
        have := ih h
        omega

theorem findFree_none {memMap : ℕ → ℕ} {n i : ℕ} (h : findFree memMap n = none) (hi : i < n) :
    memMap (LOW_MEM + i) ≠ 0 := by
  induction n with
  | zero => cases hi
  | succ n ih =>
      rw [findFree] at h
      split at h
      next => cases h
      next hn =>
        rcases Nat.lt_succ_iff_lt_or_eq.1 hi with hlt | rfl
        · exact ih h hlt
        · exact hn

theorem getFreePage_free (h : getFreePage m = some (p, m')) : m.Free p := by
  obtain ⟨hlow, hfree, -⟩ := getFreePage_some h
  obtain ⟨p', hp', heq⟩ := Option.map_eq_some_iff.1 h
  cases heq
  exact ⟨hlow, findFree_lt hp', hfree⟩

theorem getFreePage_none (h : getFreePage m = none) : ¬m.Free p := by
  rintro ⟨hlow, hlt, hfree⟩
  obtain ⟨i, rfl⟩ := Nat.exists_eq_add_of_le hlow
  exact findFree_none (Option.map_eq_none_iff.1 h) (by omega) hfree

/-- The other free pages stay free. -/
theorem getFreePage_free_iff (h : getFreePage m = some (p, m')) :
    m'.Free q ↔ m.Free q ∧ q ≠ p := by
  obtain ⟨-, -, rfl⟩ := getFreePage_some h
  unfold Memory.Free Memory.clearPage Memory.setCount
  by_cases hq : q = p
  · subst hq
    simp
  · simp [hq]

/-- `put_page` fails when it needs a page for a table and there is none. -/
theorem putPage_eq_none {page address : ℕ} :
    putPage page address m = none ↔
      ¬(m.pgDir (dirIndex address)).present ∧ getFreePage m = none := by
  unfold putPage
  dsimp only
  split
  next hd => simp [hd]
  next hd => simp [hd]

end Pages

/-! ## The call -/

/-- The memory map, the page tables in the directory, the initialised slots and
the caller are as before the call. -/
structure Unchanged (current : Task) (m : Memory) (shm : Shm) (r : ShmgetResult) : Prop where
  memMap : r.mem.memMap = m.memMap
  pgDir : r.mem.pgDir = m.pgDir
  tables : ∀ d, (m.pgDir d).present → r.mem.table (m.pgDir d).frame = m.table (m.pgDir d).frame
  slots : r.shm.shareMemoryArr = shm.initKeyArrIfNot.shareMemoryArr
  current : r.current = current

theorem unchanged_fail (ret : ℤ) (current : Task) (m : Memory) (shm : Shm) :
    Unchanged current m shm ⟨ret, current, m, shm.initKeyArrIfNot⟩ :=
  ⟨rfl, rfl, fun _ _ => rfl, rfl, rfl⟩

/-- The linear address at which `sys_shmget` maps the page. -/
def Task.shmLinear (current : Task) : ℕ := (current.startCode + current.shmAddress) % 2 ^ 32

/-- A slot has the key. -/
def Shm.HasKey (shm : Shm) (key : ℤ) : Prop :=
  ∃ i < MAX_SHARE_MEMORY_SIZE,
    (shm.shareMemoryArr i).shmid ≠ -1 ∧ (shm.shareMemoryArr i).key = key

/-- A slot is free. -/
def Shm.HasRoom (shm : Shm) : Prop :=
  ∃ i < MAX_SHARE_MEMORY_SIZE, (shm.shareMemoryArr i).shmid = -1

/-- The call takes no page, or it has what it needs to map the page it takes: a
slot, and a page table or a second page for one. -/
def KeepsNoPage (key : ℤ) (size : ℕ) (current : Task) (m : Memory) (shm : Shm) : Prop :=
  PAGE_SIZE < size ∨ shm.initKeyArrIfNot.HasKey key ∨ (∀ p, ¬m.Free p) ∨
    shm.initKeyArrIfNot.HasRoom ∧
      ((m.pgDir (dirIndex current.shmLinear)).present ∨ ∃ p q, p ≠ q ∧ m.Free p ∧ m.Free q)

section Call

variable {key : ℤ} {size page index : ℕ} {current : Task} {m m₁ : Memory} {shm : Shm}

theorem shmMap_eq_of_none (h : putPage page current.shmLinear m = none) :
    shmMap key page index current m shm = ⟨-ENOMEM, current, m, shm⟩ := by
  unfold Task.shmLinear Task.shmAddress at h
  unfold shmMap
  simp only [h]

theorem shmMap_ret {m' : Memory} (h : putPage page current.shmLinear m = some m') :
    (shmMap key page index current m shm).ret = index := by
  unfold Task.shmLinear Task.shmAddress at h
  unfold shmMap
  simp only [h]

/-- When mapping a page fails, nothing has changed since it was begun. -/
theorem shmMap_unchanged
    (h : (shmMap key page index current m shm.initKeyArrIfNot).ret < 0) :
    Unchanged current m shm (shmMap key page index current m shm.initKeyArrIfNot) := by
  cases hput : putPage page current.shmLinear m with
  | none =>
      rw [shmMap_eq_of_none hput]
      exact unchanged_fail _ _ _ _
  | some m' =>
      rw [shmMap_ret hput] at h
      omega

/-- A call that fails with a page taken has changed the memory map. -/
theorem not_unchanged_of_taken {ret : ℤ} (h : getFreePage m = some (page, m₁)) :
    ¬Unchanged current m shm ⟨ret, current, m₁, shm.initKeyArrIfNot⟩ := by
  obtain ⟨-, hfree, rfl⟩ := getFreePage_some h
  intro hu
  have := congrFun hu.memMap page
  simp [Memory.clearPage, Memory.setCount, hfree] at this

/-- With a page taken, mapping it fails exactly when there is no page table for
it and no second page for one. -/
theorem putPage_taken_none (h : getFreePage m = some (page, m₁)) :
    putPage page current.shmLinear m₁ = none ↔
      ¬((m.pgDir (dirIndex current.shmLinear)).present ∨
        ∃ p q, p ≠ q ∧ m.Free p ∧ m.Free q) := by
  have hdir : m₁.pgDir = m.pgDir := by
    obtain ⟨-, -, rfl⟩ := getFreePage_some h
    rfl
  rw [putPage_eq_none, hdir, not_or]
  refine and_congr_right fun _ => ⟨?_, fun hno => ?_⟩
  · rintro hnone ⟨p, q, hpq, hp, hq⟩
    -- one of two free pages is not the one that was taken
    by_cases hpp : p = page
    · have hqp : q ≠ page := fun hqp => hpq (hpp.trans hqp.symm)
      exact getFreePage_none hnone ((getFreePage_free_iff h).2 ⟨hq, hqp⟩)
    · exact getFreePage_none hnone ((getFreePage_free_iff h).2 ⟨hp, hpp⟩)
  · cases hget : getFreePage m₁ with
    | none => rfl
    | some r =>
        obtain ⟨hfree, hne⟩ := (getFreePage_free_iff h).1 (getFreePage_free (p := r.1) hget)
        exact absurd ⟨_, _, hne, hfree, getFreePage_free h⟩ hno

theorem neg_ENOMEM_lt : -ENOMEM < 0 := by decide

/-- A call with a page taken for a new key fails with a change unless there is a
slot and the page can be mapped. -/
theorem sysShmget_taken_unchanged_iff (hsize : size ≤ PAGE_SIZE)
    (hid : shm.initKeyArrIfNot.getShmid key = none) (hget : getFreePage m = some (page, m₁)) :
    ((sysShmget key size current m shm).ret < 0 →
        Unchanged current m shm (sysShmget key size current m shm)) ↔
      shm.initKeyArrIfNot.HasRoom ∧ putPage page current.shmLinear m₁ ≠ none := by
  unfold sysShmget
  dsimp only
  rw [if_neg (not_lt.2 hsize), hid, hget]
  cases hfree : shm.initKeyArrIfNot.getFreeShm with
  | none =>
      refine iff_of_false (fun h => not_unchanged_of_taken hget (h neg_ENOMEM_lt)) ?_
      rintro ⟨⟨i, hi, hroom⟩, -⟩
      exact Shm.getFreeShm_none hfree hi hroom
  | some index =>
      have hroom : shm.initKeyArrIfNot.HasRoom := ⟨index, Shm.getFreeShm_some hfree⟩
      dsimp only
      cases hput : putPage page current.shmLinear m₁ with
      | none =>
          rw [shmMap_eq_of_none hput]
          refine iff_of_false (fun h => not_unchanged_of_taken hget (h neg_ENOMEM_lt)) ?_
          exact fun h => h.2 rfl
      | some m₂ =>
          refine iff_of_true (fun h => ?_) ⟨hroom, by simp⟩
          rw [shmMap_ret hput] at h
          omega

/-- For every memory, slots, caller, key and size, a call that fails leaves
everything as it was exactly when it does not keep a page it could not map. -/
theorem sysShmget_unchanged_iff :
    ((sysShmget key size current m shm).ret < 0 →
        Unchanged current m shm (sysShmget key size current m shm)) ↔
      KeepsNoPage key size current m shm := by
  by_cases hsize : size > PAGE_SIZE
  · unfold sysShmget
    dsimp only
    rw [if_pos hsize]
    exact iff_of_true (fun _ => unchanged_fail _ _ _ _) (.inl hsize)
  cases hid : shm.initKeyArrIfNot.getShmid key with
  | some i =>
      refine iff_of_true ?_ (.inr (.inl ⟨i, Shm.getShmid_some hid⟩))
      unfold sysShmget
      dsimp only
      rw [if_neg hsize, hid]
      dsimp only
      split
      next => exact fun _ => unchanged_fail _ _ _ _
      next => exact shmMap_unchanged
  | none =>
      cases hget : getFreePage m with
      | none =>
          refine iff_of_true ?_ (.inr (.inr (.inl fun p => getFreePage_none hget)))
          unfold sysShmget
          dsimp only
          rw [if_neg hsize, hid, hget]
          exact fun _ => unchanged_fail _ _ _ _
      | some r =>
          rw [sysShmget_taken_unchanged_iff (not_lt.1 hsize) hid hget, Ne,
            putPage_taken_none hget, not_not]
          have hkey : ¬shm.initKeyArrIfNot.HasKey key := by
            rintro ⟨i, hi, hused, hk⟩
            exact Shm.getShmid_none hid hi hused hk
          have hsome : ¬∀ p, ¬m.Free p := fun hno => hno r.1 (getFreePage_free hget)
          unfold KeepsNoPage
          rw [or_iff_right hsize, or_iff_right hkey, or_iff_right hsome]

end Call

/-- Every slot is taken, slot `i` by the key `i + 1`. -/
def fullShm : Shm where
  shareMemoryArr := fun i => ⟨i + 1, i, 0x10000 + i * PAGE_SIZE, LOW_MEM + i, 1⟩
  init := true

/-- The pages of the slots and of the page table of the caller are in use. -/
def shmMemory : Memory where
  memMap := fun p => if p < LOW_MEM + 200 then 1 else 0
  highMemory := LOW_MEM + PAGING_PAGES
  pgDir := fun d => if d = 32 then .user (LOW_MEM + 100) else .zero
  table := fun _ _ => .zero
  bytes := fun _ _ => 0

def shmTask : Task where
  page := LOW_MEM + 190
  pid := 2
  startCode := 0x8000000
  codeLimit := 0x10000
  dataLimit := 0x4000000
  endData := 0x10000
  executable := none
  shareMemoryNum := 0
  zombie := false

/-- With every slot taken, a call with a new key fails and keeps a page. -/
theorem fullShm_not_unchanged :
    (sysShmget 0 4096 shmTask shmMemory fullShm).ret < 0 ∧
      ¬Unchanged shmTask shmMemory fullShm (sysShmget 0 4096 shmTask shmMemory fullShm) := by
  have hinit : fullShm.initKeyArrIfNot = fullShm := rfl
  have hid : fullShm.initKeyArrIfNot.getShmid 0 = none := by
    rw [hinit]
    cases h : fullShm.getShmid 0 with
    | none => rfl
    | some i =>
        have hkey : (i : ℤ) + 1 = 0 := (Shm.getShmid_some h).2.2
        omega
  have hfree : fullShm.initKeyArrIfNot.getFreeShm = none := by
    rw [hinit]
    cases h : fullShm.getFreeShm with
    | none => rfl
    | some i =>
        have hslot : (i : ℤ) = -1 := (Shm.getFreeShm_some h).2
        omega
  cases hget : getFreePage shmMemory with
  | none =>
      exact absurd ⟨by decide, by decide, by decide⟩ (getFreePage_none (p := 0xfff) hget)
  | some r =>
      have hcall : sysShmget 0 4096 shmTask shmMemory fullShm =
          ⟨-ENOMEM, shmTask, r.2, fullShm.initKeyArrIfNot⟩ := by
        unfold sysShmget
        simp only [hid, hget, hfree]
        rfl
      rw [hcall]
      exact ⟨neg_ENOMEM_lt, not_unchanged_of_taken hget⟩

end MyJavaExample.Mm
