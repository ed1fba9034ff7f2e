import MyJavaExample.Mm.ShmCounts

/-!
# The address that `sys_shmat` returns

A slot has room for one process and one address, and every process that gets the
key overwrites them.  As long as no other process gets the key, the slot
describes the caller's own mapping.
-/

namespace MyJavaExample.Mm

open Lib

/-! ## Memory -/

/-- Tables are in use and belong to one directory entry.  This is what is left
of the consistency when pages are attached without a count. -/
structure TablesUsed (m : Memory) : Prop where
  used : ∀ d t, dirRef m d = some t → LOW_MEM ≤ t ∧ m.memMap t ≠ 0
  unique : ∀ d d' t, dirRef m d = some t → dirRef m d' = some t → d = d'

section Memory

variable {m m' : Memory} {p address : ℕ} {d i : Fin 1024}

theorem TablesUsed.handed (h : TablesUsed m) (hget : getFreePage m = some (p, m')) :
    Handed m m' p ∧ TablesUsed m' := by
  obtain ⟨-, hfree, -⟩ := getFreePage_some hget
  have hdir : ∀ d, dirRef m d ≠ some p := fun d hd => (h.used d p hd).2 hfree
  have hp := handed_of_getFreePage hget hdir
  refine ⟨hp, fun d t hd => ?_, fun d d' t hd hd' => ?_⟩
  · rw [hp.dirRef] at hd
    rw [hp.memMap, Function.update_of_ne fun (ht : t = p) => hdir d (ht ▸ hd)]
    exact h.used d t hd
  · rw [hp.dirRef] at hd hd'
    exact h.unique d d' t hd hd'

theorem TablesUsed.setEntry (h : TablesUsed m) (t i : ℕ) (e : Entry) :
    TablesUsed (m.setEntry t i e) :=
  ⟨h.used, h.unique⟩

/-- `put_page` sets one entry. -/
theorem TablesUsed.putPage (h : TablesUsed m) (hd : dirIndex address = d.val)
    (hi : tableIndex address = i.val) (hd4 : 4 ≤ d.val) (hput : putPage p address m = some m') :
    TablesUsed m' ∧ entryAt m' = Function.update (entryAt m) (d, i) (some (.user p)) := by
  unfold Mm.putPage at hput
  rw [hd, hi] at hput
  by_cases hpresent : (m.pgDir d).present
  · rw [if_pos hpresent] at hput
    cases hput
    have ht : dirRef m d = some (m.pgDir d).frame := dirRef_eq_some.2 ⟨hd4, hpresent, rfl⟩
    exact ⟨h.setEntry _ _ _,
      entryAt_setEntry_of_unique (fun d' hd' => h.unique d' d _ hd' ht) ht (.user p)⟩
  · rw [if_neg hpresent] at hput
    obtain ⟨⟨t, m₁⟩, hget, rfl⟩ := Option.map_eq_some_iff.1 hput
    obtain ⟨hp, h₁⟩ := h.handed hget
    have hnone : dirRef m d = none := if_neg fun hno => hpresent hno.2
    have hfresh : ∀ d', dirRef m d' ≠ some t := fun d' hd' => (h.used d' t hd').2 hp.free
    have hdir : dirRef (m₁.setDir d (.user t)) = Function.update (dirRef m) d (some t) := by
      rw [dirRef_setDir hd4, hp.dirRef]
      rfl
    have hentry : entryAt (m₁.setDir d (.user t)) = entryAt m := by
      rw [← hp.entryAt]
      refine entryAt_setDir hd4 (fun i => entryAt_of_dirRef_none (by rw [hp.dirRef, hnone])) ?_
      intro i _
      rw [Entry.user, hp.table_self]
      rfl
    have hunique : ∀ d', dirRef (m₁.setDir d (.user t)) d' = some t → d' = d := by
      intro d' hd'
      by_contra hne
      rw [hdir, Function.update_of_ne hne] at hd'
      exact hfresh d' hd'
    have hself : dirRef (m₁.setDir d (.user t)) d = some t := by rw [hdir, Function.update_self]
    refine ⟨⟨fun d' t' hd' => ?_, fun d₁ d₂ t' h₁ h₂ => ?_⟩, ?_⟩
    · have hcount : m₁.memMap = Function.update m.memMap t 1 := hp.memMap
      change LOW_MEM ≤ t' ∧ m₁.memMap t' ≠ 0
      by_cases heq : t' = t
      · subst heq
        rw [hcount, Function.update_self]
        exact ⟨hp.low, Nat.one_ne_zero⟩
      · have hne : d' ≠ d := by
          rintro rfl
          exact heq (Option.some.inj (hself.symm.trans hd')).symm
        have hd'' : dirRef m d' = some t' := by
          rw [← Function.update_of_ne hne (some t) (dirRef m), ← hdir]
          exact hd'
        rw [hcount, Function.update_of_ne heq]
        exact h.used d' t' hd''
    · by_cases heq : t' = t
      · subst heq
        exact (hunique d₁ h₁).trans (hunique d₂ h₂).symm
      · have hold : ∀ d', dirRef (m₁.setDir d (.user t)) d' = some t' → dirRef m d' = some t' := by
          intro d' hd'
          have hne : d' ≠ d := by
            rintro rfl
            exact heq (Option.some.inj (hself.symm.trans hd')).symm
          rw [hdir, Function.update_of_ne hne] at hd'
          exact hd'
        exact h.unique d₁ d₂ t' (hold d₁ h₁) (hold d₂ h₂)
    · rw [← hentry]
      exact entryAt_setEntry_of_unique hunique hself (.user p)

theorem Consistent.tablesUsed {bounds : Bounds} {held : List ℕ} (h : Consistent bounds m held) :
    TablesUsed m := by
  refine ⟨fun d t hd => ?_, fun d d' t hd hd' => h.dir_unique hd' hd⟩
  obtain ⟨hlow, hone⟩ := h.counted.tables d t hd
  exact ⟨hlow, by omega⟩

end Memory

/-! ## Slots -/

namespace Shm

variable {shm : Shm} {i : ℕ}

/-- Slot `i` is free or has the identifier `i`, and a key has one slot. -/
structure WellFormed (shm : Shm) : Prop where
  ids : ∀ i < MAX_SHARE_MEMORY_SIZE,
    (shm.shareMemoryArr i).shmid = -1 ∨ (shm.shareMemoryArr i).shmid = i
  keys : ∀ i < MAX_SHARE_MEMORY_SIZE, ∀ j < MAX_SHARE_MEMORY_SIZE,
    (shm.shareMemoryArr i).shmid ≠ -1 → (shm.shareMemoryArr j).shmid ≠ -1 →
    (shm.shareMemoryArr i).key = (shm.shareMemoryArr j).key → i = j

theorem WellFormed.getShmid (h : shm.WellFormed) (hi : i < MAX_SHARE_MEMORY_SIZE)
    (hid : (shm.shareMemoryArr i).shmid ≠ -1) :
    shm.getShmid (shm.shareMemoryArr i).key = some i := by
  refine find_eq_some hi (by simp [hid]) fun j hj hq => ?_
  have hq : (shm.shareMemoryArr j).shmid ≠ -1 ∧
      (shm.shareMemoryArr j).key = (shm.shareMemoryArr i).key := by simpa using hq
  exact h.keys j hj i hi hq.1 hid hq.2

theorem WellFormed.find_shmid (h : shm.WellFormed) (hi : i < MAX_SHARE_MEMORY_SIZE)
    (hid : (shm.shareMemoryArr i).shmid = i) :
    (shm.find fun slot => slot.shmid = (i : ℤ)) = some i := by
  refine find_eq_some hi (by simp [hid]) fun j hj hq => ?_
  have hq : (shm.shareMemoryArr j).shmid = i := by simpa using hq
  rcases h.ids j hj with hj | hj <;> omega

theorem initKeyArrIfNot_init (shm : Shm) : shm.initKeyArrIfNot.init = true := by
  unfold initKeyArrIfNot
  split
  next h => exact h
  next => rfl

@[simp]
theorem initKeyArrIfNot_self (shm : Shm) :
    shm.initKeyArrIfNot.initKeyArrIfNot = shm.initKeyArrIfNot :=
  if_pos shm.initKeyArrIfNot_init

@[simp]
theorem initKeyArrIfNot_setSlot (shm : Shm) (index : ℕ) (slot : ShareMemory) :
    (shm.initKeyArrIfNot.setSlot index slot).initKeyArrIfNot =
      shm.initKeyArrIfNot.setSlot index slot :=
  if_pos shm.initKeyArrIfNot_init

/-- A slot is filled in for a key that has no other. -/
theorem WellFormed.setSlot (h : shm.WellFormed) {index : ℕ} {slot : ShareMemory}
    (hid : slot.shmid = index) (hother : ∀ i < MAX_SHARE_MEMORY_SIZE,
      (shm.shareMemoryArr i).shmid ≠ -1 → (shm.shareMemoryArr i).key = slot.key → i = index) :
    (shm.setSlot index slot).WellFormed := by
  refine ⟨fun i hi => ?_, fun i hi j hj hidi hidj hkey => ?_⟩
  · by_cases heq : i = index
    · subst heq
      exact .inr (by rw [setSlot_self, hid])
    · rw [shm.setSlot_of_ne heq]
      exact h.ids i hi
  · by_cases heqi : i = index
    · by_cases heqj : j = index
      · rw [heqi, heqj]
      · subst heqi
        rw [shm.setSlot_of_ne heqj] at hkey hidj
        rw [setSlot_self] at hkey
        exact absurd (hother j hj hidj hkey.symm) heqj
    · rw [shm.setSlot_of_ne heqi] at hkey hidi
      by_cases heqj : j = index
      · subst heqj
        rw [setSlot_self] at hkey
        exact hother i hi hidi hkey
      · rw [shm.setSlot_of_ne heqj] at hkey hidj
        exact h.keys i hi j hj hidi hidj hkey

end Shm

/-! ## Calls -/

inductive Call where
  | shmget (nr : ℕ) (key : ℤ) (size : ℕ)
  | shmat (nr : ℕ) (shmid : ℤ)

def Call.action : Call → Action
  | .shmget nr key size => .shmget nr key size
  | .shmat nr shmid => .shmat nr shmid

/-- The state after `sys_shmget`. -/
def Sys.afterShmget (s : Sys) (nr : ℕ) (r : ShmgetResult) : Sys :=
  { s with mem := r.mem, shm := r.shm, task := Function.update s.task nr (some r.current) }

def Sys.call (s : Sys) : Call → Sys
  | .shmget nr key size =>
      match s.live nr with
      | none => s
      | some current => s.afterShmget nr (sysShmget key size current s.mem s.shm)
  | .shmat _ shmid => { s with shm := (sysShmat shmid s.shm).2 }

/-- A call is the action of the system. -/
theorem Sys.exec_call (s : Sys) (c : Call) : s.exec c.action = .ok (s.call c) := by
  cases c with
  | shmget nr key size =>
      rw [Call.action, Sys.exec, Sys.call]
      cases s.live nr with
      | none => rfl
      | some current => rfl
  | shmat nr shmid => rfl

/-! ## The invariant -/

/-- The process that a slot names maps its page at the address of the slot. -/
def Sys.Maps (s : Sys) (slot : ShareMemory) : Prop :=
  ∀ nr current, s.live nr = some current → slot.pid = current.pid →
    slot.virtualAddress < TASK_SIZE ∧
    (∃ n < current.shareMemoryNum, slot.virtualAddress = current.endData + n * PAGE_SIZE) ∧
    entryAt s.mem (place nr slot.virtualAddress) = some (.user slot.page)

structure Sys.ShmInv (s : Sys) : Prop where
  tables : TablesUsed s.mem
  tasks : ∀ nr t, s.live nr = some t → nr < NR_TASKS ∧ t.startCode = nr * TASK_SIZE
  pids : ∀ nr nr' t t', s.live nr = some t → s.live nr' = some t' → t.pid = t'.pid → nr = nr'
  slots : s.shm.initKeyArrIfNot.WellFormed
  maps : ∀ i < MAX_SHARE_MEMORY_SIZE, (s.shm.initKeyArrIfNot.shareMemoryArr i).shmid ≠ -1 →
    s.Maps (s.shm.initKeyArrIfNot.shareMemoryArr i)

/-- The address of a call that may map a page is in the caller's address space. -/
def Sys.Fits (s : Sys) : Call → Prop
  | .shmget nr _ size => ∀ current ∈ s.live nr, size ≤ PAGE_SIZE →
      current.endData + current.shareMemoryNum * PAGE_SIZE < TASK_SIZE
  | .shmat _ _ => True

instance (s : Sys) : (c : Call) → Decidable (s.Fits c)
  | .shmget nr _ size => inferInstanceAs (Decidable (∀ current ∈ s.live nr, size ≤ PAGE_SIZE →
      current.endData + current.shareMemoryNum * PAGE_SIZE < TASK_SIZE))
  | .shmat _ _ => inferInstanceAs (Decidable True)

section Calls

variable {s : Sys} {nr : ℕ} {current : Task}

/-- Two addresses of tasks with one entry are on one page of one task. -/
theorem place_inj {nr' x x' : ℕ} (hnr : nr < 64) (hnr' : nr' < 64) (hx : x < 2 ^ 26)
    (hx' : x' < 2 ^ 26) (h : place nr x = place nr' x') : nr = nr' ∧ x / 2 ^ 12 = x' / 2 ^ 12 := by
  have hd := congrArg (fun y => y.1.val) h
  have hi := congrArg (fun y => y.2.val) h
  rw [place_dir hnr hx, place_dir hnr' hx'] at hd
  simp only [place] at hi
  omega

theorem Sys.live_afterShmget {r : ShmgetResult} {nr' : ℕ} {t : Task}
    (ht : (s.afterShmget nr r).live nr' = some t) :
    nr' = nr ∧ t = r.current ∨ nr' ≠ nr ∧ s.live nr' = some t := by
  by_cases heq : nr' = nr
  · subst heq
    have htask : (s.afterShmget nr' r).task nr' = some r.current := Function.update_self ..
    cases htask.symm.trans (Sys.live_eq_some.1 ht).1
    exact .inl ⟨rfl, rfl⟩
  · exact .inr ⟨heq, by rwa [Sys.afterShmget, Sys.live_update_of_ne heq] at ht⟩

/-- The slots that stay as they are keep describing their mappings. -/
theorem Sys.ShmInv.of_same (h : s.ShmInv) (hlive : s.live nr = some current) {r : ShmgetResult}
    (hcurrent : r.current = current) (hshm : r.shm = s.shm.initKeyArrIfNot)
    (htables : TablesUsed r.mem) (hentry : entryAt r.mem = entryAt s.mem) :
    (s.afterShmget nr r).ShmInv := by
  have hold : ∀ nr' t, (s.afterShmget nr r).live nr' = some t → s.live nr' = some t := by
    intro nr' t ht
    rcases Sys.live_afterShmget ht with ⟨rfl, rfl⟩ | ⟨-, ht⟩
    · rw [hcurrent, hlive]
    · exact ht
  have hinit : (s.afterShmget nr r).shm.initKeyArrIfNot = s.shm.initKeyArrIfNot := by
    change r.shm.initKeyArrIfNot = _
    rw [hshm, Shm.initKeyArrIfNot_self]
  refine ⟨htables, fun nr' t ht => h.tasks nr' t (hold nr' t ht),
    fun n n' t t' ht ht' => h.pids n n' t t' (hold n t ht) (hold n' t' ht'), ?_, ?_⟩
  · rw [hinit]
    exact h.slots
  · rw [hinit]
    intro i hi hid nr' t ht hpid
    obtain ⟨h₁, h₂, h₃⟩ := h.maps i hi hid nr' t (hold nr' t ht) hpid
    exact ⟨h₁, h₂, (congrFun hentry _).trans h₃⟩

/-- A page is mapped for the caller and its slot is filled in. -/
theorem Sys.ShmInv.of_mapped (h : s.ShmInv) (hlive : s.live nr = some current) {r : ShmgetResult}
    {index page : ℕ} {key : ℤ}
    (hfits : current.endData + current.shareMemoryNum * PAGE_SIZE < TASK_SIZE)
    (hother : ∀ i < MAX_SHARE_MEMORY_SIZE, (s.shm.initKeyArrIfNot.shareMemoryArr i).shmid ≠ -1 →
      (s.shm.initKeyArrIfNot.shareMemoryArr i).key = key → i = index)
    (hcurrent : r.current = { current with shareMemoryNum := current.shareMemoryNum + 1 })
    (hshm : r.shm = s.shm.initKeyArrIfNot.setSlot index
      ⟨key, index, current.shmAddress, page, current.pid⟩)
    (htables : TablesUsed r.mem)
    (hentry : entryAt r.mem =
      Function.update (entryAt s.mem) (place nr current.shmAddress) (some (.user page))) :
    (s.afterShmget nr r).ShmInv := by
  have haddress : current.shmAddress = current.endData + current.shareMemoryNum * PAGE_SIZE := by
    rw [Task.shmAddress]
    unfold TASK_SIZE at hfits
    omega
  have hold : ∀ nr' t, (s.afterShmget nr r).live nr' = some t → ∃ t₀, s.live nr' = some t₀ ∧
      t.pid = t₀.pid ∧ t.startCode = t₀.startCode ∧ t.endData = t₀.endData ∧
      t₀.shareMemoryNum ≤ t.shareMemoryNum := by
    intro nr' t ht
    rcases Sys.live_afterShmget ht with ⟨rfl, rfl⟩ | ⟨-, ht⟩
    · rw [hcurrent]
      exact ⟨current, hlive, rfl, rfl, rfl, Nat.le_succ _⟩
    · exact ⟨t, ht, rfl, rfl, rfl, le_rfl⟩
  have hinit : (s.afterShmget nr r).shm.initKeyArrIfNot = s.shm.initKeyArrIfNot.setSlot index
      ⟨key, index, current.shmAddress, page, current.pid⟩ := by
    change r.shm.initKeyArrIfNot = _
    rw [hshm, Shm.initKeyArrIfNot_setSlot]
  have hnr := (h.tasks nr current hlive).1
  refine ⟨htables, fun nr' t ht => ?_, fun n n' t t' ht ht' hpid => ?_, ?_, ?_⟩
  · obtain ⟨t₀, ht₀, -, hstart, -⟩ := hold nr' t ht
    rw [hstart]
    exact h.tasks nr' t₀ ht₀
  · obtain ⟨t₀, ht₀, hpid₀, -⟩ := hold n t ht
    obtain ⟨t₀', ht₀', hpid₀', -⟩ := hold n' t' ht'
    exact h.pids n n' t₀ t₀' ht₀ ht₀' (hpid₀ ▸ hpid₀' ▸ hpid)
  · rw [hinit]
    exact h.slots.setSlot rfl hother
  · rw [hinit]
    intro i hi hid nr' t ht hpid
    obtain ⟨t₀, ht₀, hpid₀, -, hend, hnum⟩ := hold nr' t ht
    by_cases heq : i = index
    · subst heq
      rw [Shm.setSlot_self] at hpid ⊢
      obtain rfl : nr = nr' := h.pids nr nr' current t₀ hlive ht₀ (hpid.trans hpid₀)
      cases hlive.symm.trans ht₀
      rcases Sys.live_afterShmget ht with ⟨-, rfl⟩ | ⟨hno, -⟩
      · refine ⟨haddress ▸ hfits, ⟨current.shareMemoryNum, ?_, ?_⟩, ?_⟩
        · rw [hcurrent]
          exact Nat.lt_succ_self _
        · rw [hcurrent]
          exact haddress
        · exact (congrFun hentry _).trans (Function.update_self ..)
      · exact absurd rfl hno
    · rw [Shm.setSlot_of_ne _ heq] at hid hpid ⊢
      obtain ⟨h₁, ⟨n, hn, h₂⟩, h₃⟩ := h.maps i hi hid nr' t₀ ht₀ (hpid.trans hpid₀)
      refine ⟨h₁, ⟨n, hn.trans_le hnum, hend ▸ h₂⟩, ?_⟩
      have hne : place nr' (s.shm.initKeyArrIfNot.shareMemoryArr i).virtualAddress ≠
          place nr current.shmAddress := by
        intro hplace
        obtain ⟨rfl, hpage⟩ := place_inj (h.tasks nr' t₀ ht₀).1 hnr h₁ (haddress ▸ hfits) hplace
        cases hlive.symm.trans ht₀
        rw [h₂, haddress] at hpage
        unfold PAGE_SIZE at hpage
        omega
      exact (congrFun hentry _).trans ((Function.update_of_ne hne ..).trans h₃)

/-- A call of `sys_shmget` whose address fits. -/
theorem Sys.ShmInv.shmget (h : s.ShmInv) (hlive : s.live nr = some current) {key : ℤ} {size : ℕ}
    (hfits : s.Fits (.shmget nr key size)) {r : ShmgetResult}
    (hr : sysShmget key size current s.mem s.shm = r) : (s.afterShmget nr r).ShmInv := by
  rcases sysShmget_cases hr with ⟨-, hcurrent, hshm, hmem⟩ | ⟨i, -, -, -, rfl⟩ |
    ⟨index, page, m, hsize, hpage, hput, -, hcurrent, hshm⟩
  · rcases hmem with hmem | ⟨p, hget⟩
    · exact h.of_same hlive hcurrent hshm (hmem ▸ h.tables) (by rw [hmem])
    · obtain ⟨hp, htables⟩ := h.tables.handed hget
      exact h.of_same hlive hcurrent hshm htables hp.entryAt
  · exact h.of_same hlive rfl rfl h.tables rfl
  · have hfits := hfits current hlive hsize
    obtain ⟨hnr, hstart⟩ := h.tasks nr current hlive
    have hpos := (Sys.live_eq_some.1 hlive).2.1
    have hlt : nr < 64 := hnr
    have haddress : current.shmAddress < 2 ^ 26 := by
      rw [Task.shmAddress]
      unfold TASK_SIZE at hfits
      omega
    have hlinear : (current.startCode + current.shmAddress) % 2 ^ 32 =
        nr * 2 ^ 26 + current.shmAddress := by
      rw [hstart]
      unfold TASK_SIZE
      omega
    rw [hlinear] at hput
    have hd := dirIndex_eq hlt haddress
    have hi := tableIndex_eq nr current.shmAddress
    have hd4 := four_le_place hpos hlt haddress
    rcases hpage with ⟨hid, rfl, -, -⟩ | ⟨hid, hget, -⟩
    · obtain ⟨htables, hentry⟩ := h.tables.putPage hd hi hd4 hput
      obtain ⟨hindex, hused, hkey⟩ := Shm.getShmid_some hid
      refine h.of_mapped hlive hfits (fun i hi hid hkey' => ?_) hcurrent hshm htables hentry
      exact h.slots.keys i hi index hindex hid hused (hkey'.trans hkey.symm)
    · obtain ⟨hp, htables⟩ := h.tables.handed hget
      obtain ⟨htables, hentry⟩ := htables.putPage hd hi hd4 hput
      rw [hp.entryAt] at hentry
      exact h.of_mapped hlive hfits (fun i hi hused hkey =>
        absurd hkey (Shm.getShmid_none hid hi hused)) hcurrent hshm htables hentry

theorem sysShmat_shm (shmid : ℤ) (shm : Shm) : (sysShmat shmid shm).2 = shm.initKeyArrIfNot := by
  unfold sysShmat
  dsimp only
  split
  next => rfl
  next =>
    split
    next => rfl
    next => rfl

theorem Sys.ShmInv.call (h : s.ShmInv) {c : Call} (hfits : s.Fits c) : (s.call c).ShmInv := by
  cases c with
  | shmget nr key size =>
      rw [Sys.call]
      cases hlive : s.live nr with
      | none => exact h
      | some current => exact h.shmget hlive hfits rfl
  | shmat nr shmid =>
      have hinit : (s.call (.shmat nr shmid)).shm.initKeyArrIfNot = s.shm.initKeyArrIfNot := by
        rw [Sys.call, sysShmat_shm, Shm.initKeyArrIfNot_self]
      refine ⟨h.tables, h.tasks, h.pids, ?_, ?_⟩
      · rw [hinit]
        exact h.slots
      · rw [hinit]
        exact h.maps

theorem Sys.ShmInv.calls {cs : List Call} (h : s.ShmInv) (hfits : EachStep Sys.call Sys.Fits s cs) :
    (cs.foldl Sys.call s).ShmInv := by
  induction cs generalizing s with
  | nil => exact h
  | cons c cs ih => exact ih (h.call hfits.1) hfits.2

/-! ## The caller's own mapping -/

/-- The slot of a key is that of a process. -/
structure Sys.Owns (s : Sys) (nr : ℕ) (key : ℤ) (id page : ℕ) : Prop where
  lt : id < MAX_SHARE_MEMORY_SIZE
  shmid : (s.shm.initKeyArrIfNot.shareMemoryArr id).shmid = id
  key : (s.shm.initKeyArrIfNot.shareMemoryArr id).key = key
  page : (s.shm.initKeyArrIfNot.shareMemoryArr id).page = page
  pid : ∃ current, s.live nr = some current ∧
    (s.shm.initKeyArrIfNot.shareMemoryArr id).pid = current.pid

/-- `sys_shmat` returns an address at which the process maps the page, and
`sys_shmget` returns the identifier and changes nothing. -/
def Sys.OwnMapping (s : Sys) (nr : ℕ) (key : ℤ) (size : ℕ) (id : ℤ) (page : ℕ) : Prop :=
  ∃ current, s.live nr = some current ∧
    (∃ x : ℕ, (sysShmat id s.shm).1 = x ∧
      (s.mem.lookup (current.startCode + x)).map Entry.frame = some page) ∧
    (sysShmget key size current s.mem s.shm).ret = id ∧
    (sysShmget key size current s.mem s.shm).mem = s.mem

variable {key : ℤ} {id page : ℕ}

theorem Sys.ShmInv.ownMapping (h : s.ShmInv) (howns : s.Owns nr key id page) {size : ℕ}
    (hsize : size ≤ PAGE_SIZE) : s.OwnMapping nr key size id page := by
  obtain ⟨current, hlive, hpid⟩ := howns.pid
  have hused : (s.shm.initKeyArrIfNot.shareMemoryArr id).shmid ≠ -1 := by
    rw [howns.shmid]
    omega
  obtain ⟨hx, -, hentry⟩ := h.maps id howns.lt hused nr current hlive hpid
  have hlt : nr < 64 := (h.tasks nr current hlive).1
  have hstart : current.startCode = nr * 2 ^ 26 := (h.tasks nr current hlive).2
  have hfind := h.slots.find_shmid howns.lt howns.shmid
  have hget := h.slots.getShmid howns.lt hused
  rw [howns.key] at hget
  have hshmget : sysShmget key size current s.mem s.shm =
      ⟨id, current, s.mem, s.shm.initKeyArrIfNot⟩ := by
    unfold sysShmget
    dsimp only
    rw [if_neg (Nat.not_lt.2 hsize), hget]
    dsimp only
    rw [if_pos hpid, howns.shmid]
  refine ⟨current, hlive,
    ⟨(s.shm.initKeyArrIfNot.shareMemoryArr id).virtualAddress, ?_, ?_⟩, ?_, ?_⟩
  · have hrange : ¬((id : ℤ) < 0 ∨ (id : ℤ) ≥ MAX_SHARE_MEMORY_SIZE) := by
      have := howns.lt
      omega
    unfold sysShmat
    dsimp only
    rw [if_neg hrange, hfind]
  · rw [hstart, lookup_eq_entryAt (dirIndex_eq hlt hx) (tableIndex_eq nr _)
      (four_le_place (Sys.live_eq_some.1 hlive).2.1 hlt hx)]
    rw [hentry, Option.map_some, ← howns.page]
    rfl
  · rw [hshmget]
  · rw [hshmget]

/-- The slot of the caller after a call that returned its identifier. -/
theorem Sys.ShmInv.owns (h : s.ShmInv) (hlive : s.live nr = some current) {size : ℕ}
    {r : ShmgetResult} (hr : sysShmget key size current s.mem s.shm = r) (hret : 0 ≤ r.ret) :
    ∃ id : ℕ, r.ret = id ∧ size ≤ PAGE_SIZE ∧
      (s.afterShmget nr r).Owns nr key id (r.shm.shareMemoryArr id).page := by
  obtain ⟨-, hpos, hz⟩ := Sys.live_eq_some.1 hlive
  have hself : ∀ r : ShmgetResult, r.current.zombie = current.zombie →
      (s.afterShmget nr r).live nr = some r.current := fun r hr =>
    Sys.live_eq_some.2 ⟨Function.update_self .., hpos, hr.trans hz⟩
  rcases sysShmget_cases hr with ⟨hneg, -, -, -⟩ | ⟨i, hid, hpid, hsize, rfl⟩ |
    ⟨index, page, m, hsize, hpage, hput, hret, hcurrent, hshm⟩
  · omega
  · obtain ⟨hi, hused, hkey⟩ := Shm.getShmid_some hid
    have hshmid := (h.slots.ids i hi).resolve_left hused
    have hinit : (s.afterShmget nr ⟨(s.shm.initKeyArrIfNot.shareMemoryArr i).shmid, current, s.mem,
        s.shm.initKeyArrIfNot⟩).shm.initKeyArrIfNot = s.shm.initKeyArrIfNot :=
      Shm.initKeyArrIfNot_self s.shm
    refine ⟨i, hshmid, hsize, hi, ?_, ?_, ?_, current, hself _ rfl, ?_⟩
    · rw [hinit, hshmid]
    · rw [hinit, hkey]
    · rw [hinit]
    · rw [hinit, hpid]
  · have hindex : index < MAX_SHARE_MEMORY_SIZE := by
      rcases hpage with ⟨hid, -⟩ | ⟨-, -, hfree⟩
      · exact (Shm.getShmid_some hid).1
      · exact (Shm.find_some hfree).1
    have hinit : (s.afterShmget nr r).shm.initKeyArrIfNot = s.shm.initKeyArrIfNot.setSlot index
        ⟨key, index, current.shmAddress, page, current.pid⟩ := by
      change r.shm.initKeyArrIfNot = _
      rw [hshm, Shm.initKeyArrIfNot_setSlot]
    refine ⟨index, hret, hsize, hindex, ?_, ?_, ?_, r.current, hself r (by rw [hcurrent]), ?_⟩
    · rw [hinit, Shm.setSlot_self]
    · rw [hinit, Shm.setSlot_self]
    · rw [hinit, hshm]
    · rw [hinit, Shm.setSlot_self, hcurrent]

/-- A call that is not another process's `sys_shmget` for the key. -/
def Call.Spares (nr : ℕ) (key : ℤ) : Call → Prop
  | .shmget nr' key' size => key' = key → nr' = nr ∨ PAGE_SIZE < size
  | .shmat _ _ => True

theorem Sys.Owns.call (howns : s.Owns nr key id page) {c : Call}
    (hspares : c.Spares nr key) : (s.call c).Owns nr key id page := by
  obtain ⟨current, hlive, hpid⟩ := howns.pid
  have hused : (s.shm.initKeyArrIfNot.shareMemoryArr id).shmid ≠ -1 := by
    rw [howns.shmid]
    omega
  cases c with
  | shmat nr' shmid =>
      have hinit : (s.call (.shmat nr' shmid)).shm.initKeyArrIfNot = s.shm.initKeyArrIfNot := by
        rw [Sys.call, sysShmat_shm, Shm.initKeyArrIfNot_self]
      refine ⟨howns.lt, ?_, ?_, ?_, current, hlive, ?_⟩ <;> rw [hinit]
      · exact howns.shmid
      · exact howns.key
      · exact howns.page
      · exact hpid
  | shmget nr' key' size =>
      rw [Sys.call]
      cases hlive' : s.live nr' with
      | none => exact howns
      | some current' =>
          dsimp only
          generalize hr : sysShmget key' size current' s.mem s.shm = r
          -- the caller and the slot of the key stay as they are
          have hkeep : (s.afterShmget nr' r).shm.initKeyArrIfNot.shareMemoryArr id =
              s.shm.initKeyArrIfNot.shareMemoryArr id ∧ r.current.pid = current'.pid ∧
              r.current.zombie = current'.zombie := by
            rcases sysShmget_cases hr with ⟨-, hcurrent, hshm, -⟩ | ⟨i, -, -, -, rfl⟩ |
              ⟨index, page', m, hsize, hpage, -, -, hcurrent, hshm⟩
            · refine ⟨?_, by rw [hcurrent], by rw [hcurrent]⟩
              change r.shm.initKeyArrIfNot.shareMemoryArr id = _
              rw [hshm, Shm.initKeyArrIfNot_self]
            · refine ⟨?_, rfl, rfl⟩
              change s.shm.initKeyArrIfNot.initKeyArrIfNot.shareMemoryArr id = _
              rw [Shm.initKeyArrIfNot_self]
            · refine ⟨?_, by rw [hcurrent], by rw [hcurrent]⟩
              change r.shm.initKeyArrIfNot.shareMemoryArr id = _
              have hne : id ≠ index := by
                rintro rfl
                rcases hpage with ⟨hid, -, -, hforeign⟩ | ⟨-, -, hfree⟩
                · obtain ⟨-, -, hkey⟩ := Shm.getShmid_some hid
                  have hnr : nr' = nr := (hspares (hkey.symm.trans howns.key)).resolve_right
                    (Nat.not_lt.2 hsize)
                  subst hnr
                  cases hlive.symm.trans hlive'
                  exact hforeign hpid
                · obtain ⟨-, hfree⟩ := Shm.find_some hfree
                  exact hused (by simpa using hfree)
              rw [hshm, Shm.initKeyArrIfNot_setSlot]
              exact Shm.setSlot_of_ne _ hne _
          obtain ⟨hslot, hpid', hz'⟩ := hkeep
          refine ⟨howns.lt, ?_, ?_, ?_, ?_⟩
          · rw [hslot, howns.shmid]
          · rw [hslot, howns.key]
          · rw [hslot, howns.page]
          · by_cases heq : nr = nr'
            · subst heq
              cases hlive.symm.trans hlive'
              obtain ⟨-, hpos, hz⟩ := Sys.live_eq_some.1 hlive
              exact ⟨r.current, Sys.live_eq_some.2 ⟨Function.update_self .., hpos, hz'.trans hz⟩,
                by rw [hslot, hpid, hpid']⟩
            · exact ⟨current, by rw [Sys.afterShmget, Sys.live_update_of_ne heq, hlive],
                by rw [hslot, hpid]⟩

theorem Sys.Owns.calls {cs : List Call} (howns : s.Owns nr key id page)
    (hspares : ∀ c ∈ cs, c.Spares nr key) :
    (cs.foldl Sys.call s).Owns nr key id page := by
  induction cs generalizing s with
  | nil => exact howns
  | cons c cs ih =>
      exact ih (howns.call (hspares c List.mem_cons_self)) fun c' hc' =>
        hspares c' (List.mem_cons_of_mem c hc')

/-- A state before the first call: the memory is that of a system without shared
memory and the processes have different numbers. -/
structure Sys.BeforeShm (s : Sys) : Prop where
  inv : ∃ bounds lost, s.Inv bounds lost
  pids : ∀ nr nr' t t', s.live nr = some t → s.live nr' = some t' → t.pid = t'.pid → nr = nr'
  counters : ∀ nr t, s.live nr = some t → t.shareMemoryNum = 0
  shm : s.shm.init = false

theorem Sys.BeforeShm.shmInv (h : s.BeforeShm) : s.ShmInv := by
  obtain ⟨bounds, lost, hinv⟩ := h.inv
  obtain ⟨held, hc, -⟩ := hinv.pages
  have hfree : ∀ i, (s.shm.initKeyArrIfNot.shareMemoryArr i).shmid = -1 := by
    intro i
    rw [Shm.initKeyArrIfNot, if_neg (by rw [h.shm]; exact Bool.false_ne_true)]
  refine ⟨hc.tablesUsed, fun nr t ht => ?_, h.pids, ⟨fun i _ => .inl (hfree i), ?_⟩, ?_⟩
  · have hok := hinv.tasks nr t (Sys.live_eq_some.1 ht).1
    exact ⟨hok.lt, hok.startCode⟩
  · exact fun i _ j _ hid => absurd (hfree i) hid
  · exact fun i _ hid => absurd (hfree i) hid

/-- After `sys_shmget` returned an identifier, and as long as no other process
gets the key, `sys_shmat` returns the caller's own address and `sys_shmget` the
same identifier. -/
theorem shmat_own_mapping (hs : s.BeforeShm) {before after : List Call} {size : ℕ}
    (hfits : EachStep Sys.call Sys.Fits s (before ++ .shmget nr key size :: after))
    (hspares : ∀ c ∈ after, c.Spares nr key)
    (hlive : (before.foldl Sys.call s).live nr = some current) {r : ShmgetResult}
    (hr : sysShmget key size current (before.foldl Sys.call s).mem (before.foldl Sys.call s).shm = r)
    (hret : 0 ≤ r.ret) :
    ((before ++ .shmget nr key size :: after).foldl Sys.call s).OwnMapping nr key size r.ret
      (r.shm.shareMemoryArr r.ret.toNat).page := by
  obtain ⟨hbefore, hget, hafter⟩ := hfits.append
  have h₁ := hs.shmInv.calls hbefore
  have h₂ := h₁.call hget
  have hcall : (before.foldl Sys.call s).call (.shmget nr key size) =
      (before.foldl Sys.call s).afterShmget nr r := by
    rw [Sys.call, hlive]
    dsimp only
    rw [hr]
  obtain ⟨id, hid, hsize, howns⟩ := h₁.owns hlive hr hret
  rw [← hcall] at howns
  have howns' := howns.calls hspares
  rw [List.foldl_append, List.foldl_cons, hid, Int.toNat_natCast]
  exact (h₂.calls hafter).ownMapping howns' hsize

theorem mem_toOption {r : Except String Sys} (h : r = .ok s) : s ∈ r.toOption := by
  subst h
  exact rfl

/-- The first task and two children. -/
@[irreducible]
def twoProcesses : Except String Sys :=
  Sys.run [.fork 0 1 1, .fork 0 2 2] (.boot 1024 4096)

theorem twoProcesses_beforeShm : ∃ s, twoProcesses = .ok s ∧ s.BeforeShm := by
  obtain ⟨s, hrun, hinv⟩ := @Sys.Inv.run ⟨1024, 4096⟩ [.fork 0 1 1, .fork 0 2 2] [] _
    (Sys.inv_boot (by decide)) (by simp [Action.isShmget])
  have hview : ∀ s ∈ twoProcesses.toOption, s.shm.init = false ∧
      ∀ nr < 64, (s.live nr).map (fun t => (t.pid, t.shareMemoryNum)) =
        if nr = 1 ∨ nr = 2 then some ((nr : ℤ), 0) else none := by
    decide +kernel
  have hs : twoProcesses = .ok s := by
    unfold twoProcesses
    exact hrun
  obtain ⟨hinit, hpids⟩ := hview s (mem_toOption hs)
  have hpid : ∀ nr t, s.live nr = some t → t.pid = nr ∧ t.shareMemoryNum = 0 := by
    intro nr t ht
    have hnr : nr < 64 := (hinv.tasks nr t (Sys.live_eq_some.1 ht).1).lt
    have hpid := hpids nr hnr
    rw [ht, Option.map_some] at hpid
    split at hpid
    next => exact Prod.mk.inj (Option.some.inj hpid)
    next => cases hpid
  refine ⟨s, hs, ⟨_, _, hinv⟩, fun nr nr' t t' ht ht' heq => ?_, fun nr t ht => (hpid nr t ht).2,
    hinit⟩
  rw [(hpid nr t ht).1, (hpid nr' t' ht').1] at heq
  exact Int.ofNat_inj.1 heq

theorem shmat_own_mapping_two_keys : ∃ s current r, twoProcesses = .ok s ∧
    s.live 1 = some current ∧ sysShmget 5 100 current s.mem s.shm = r ∧
    ((.shmget 1 5 100 :: [.shmget 2 6 100, .shmget 1 7 100]).foldl Sys.call s).OwnMapping 1 5 100
      r.ret (r.shm.shareMemoryArr r.ret.toNat).page := by
  obtain ⟨s, hs, hbefore⟩ := twoProcesses_beforeShm
  have hview : ∀ s ∈ twoProcesses.toOption, (s.live 1).isSome ∧
      (∀ current ∈ s.live 1, 0 ≤ (sysShmget 5 100 current s.mem s.shm).ret) ∧
      EachStep Sys.call Sys.Fits s [.shmget 1 5 100, .shmget 2 6 100, .shmget 1 7 100] := by
    decide +kernel
  obtain ⟨hlive, hret, hfits⟩ := hview s (mem_toOption hs)
  obtain ⟨current, hlive⟩ := Option.isSome_iff_exists.1 hlive
  refine ⟨s, current, _, hs, hlive, rfl, ?_⟩
  exact @shmat_own_mapping s 1 current 5 hbefore [] [.shmget 2 6 100, .shmget 1 7 100] 100 hfits
    (by simp [Call.Spares]) hlive _ rfl (hret current hlive)

/-- When another process gets the key, `sys_shmat` returns the address of that
process. -/
theorem shmat_foreign_address : ¬∀ (s : Sys) (nr : ℕ) (key : ℤ) (size : ℕ) (current : Task)
    (before after : List Call) (r : ShmgetResult), s.BeforeShm →
    (before.foldl Sys.call s).live nr = some current →
    sysShmget key size current (before.foldl Sys.call s).mem (before.foldl Sys.call s).shm = r →
    0 ≤ r.ret → ((before ++ .shmget nr key size :: after).foldl Sys.call s).OwnMapping nr key size
      r.ret (r.shm.shareMemoryArr r.ret.toNat).page := by
  intro hclaim
  obtain ⟨s, hs, hbefore⟩ := twoProcesses_beforeShm
  have hview : ∀ s ∈ twoProcesses.toOption, (s.live 1).isSome ∧
      ∀ current ∈ s.live 1, 0 ≤ (sysShmget 5 100 current s.mem s.shm).ret ∧
        ((sysShmget 5 100 current s.mem s.shm).shm.shareMemoryArr
          (sysShmget 5 100 current s.mem s.shm).ret.toNat).page = 4091 ∧
        (sysShmat (sysShmget 5 100 current s.mem s.shm).ret
          ([.shmget 1 5 100, .shmget 2 6 100, .shmget 2 5 100].foldl Sys.call s).shm).1 = 4096 ∧
        ∀ current' ∈ ([.shmget 1 5 100, .shmget 2 6 100, .shmget 2 5 100].foldl Sys.call s).live 1,
          (([.shmget 1 5 100, .shmget 2 6 100, .shmget 2 5 100].foldl Sys.call s).mem.lookup
            (current'.startCode + 4096)).map Entry.frame = some 1 := by
    decide +kernel
  obtain ⟨hlive, hview⟩ := hview s (mem_toOption hs)
  obtain ⟨current, hlive⟩ := Option.isSome_iff_exists.1 hlive
  obtain ⟨hret, hpage, haddress, hlookup⟩ := hview current hlive
  obtain ⟨current', hlive', ⟨x, hx, hframe⟩, -⟩ := hclaim s 1 5 100 current []
    [.shmget 2 6 100, .shmget 2 5 100] (sysShmget 5 100 current s.mem s.shm) hbefore hlive rfl hret
  have hx : x = 4096 := by
    have := hx.symm.trans haddress
    omega
  subst hx
  rw [List.nil_append, hlookup current' hlive', hpage] at hframe
  cases hframe

end Calls

end MyJavaExample.Mm
