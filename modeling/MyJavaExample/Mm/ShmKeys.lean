import MyJavaExample.Mm.ShmAttach
import MyJavaExample.Mm.ShmFailures

/-!
# Keys and pages of shared memory

A key has one slot and a slot has one page, as long as nothing frees a page that
a slot has.  Two slots have no page in common since `get_free_page` returns a
page that nobody uses.
-/

namespace MyJavaExample.Mm

open Lib

/-! ## Runs -/

/-- A call of `sys_shmget` that was successful, and the page of the slot that it
returned. -/
structure Got where
  key : ℤ
  page : ℕ

/-- The memory and the slots, and the calls up to now. -/
structure ShmRun where
  mem : Memory
  shm : Shm
  got : List Got

/-- Any process calls `sys_shmget`, or the rest of the kernel uses the memory. -/
inductive ShmEvent where
  | shmget (current : Task) (key : ℤ) (size : ℕ)
  | other (mem : Memory)

/-- The page of the slot that the call returned. -/
def ShmgetResult.page (r : ShmgetResult) : ℕ := (r.shm.shareMemoryArr r.ret.toNat).page

namespace ShmRun

def step (s : ShmRun) : ShmEvent → ShmRun
  | .shmget current key size =>
      let r := sysShmget key size current s.mem s.shm
      ⟨r.mem, r.shm, if r.ret < 0 then s.got else ⟨key, r.page⟩ :: s.got⟩
  | .other mem => { s with mem }

end ShmRun

/-- Slot `i` is taken.  Before the first call no slot is. -/
def Shm.Used (shm : Shm) (i : ℕ) : Prop :=
  shm.init = true ∧ i < MAX_SHARE_MEMORY_SIZE ∧ (shm.shareMemoryArr i).shmid ≠ -1

/-- No process exits: the pages of the slots stay in use. -/
def ShmRun.Valid (s : ShmRun) : ShmEvent → Prop
  | .shmget _ _ _ => True
  | .other mem => ∀ i, s.shm.Used i → mem.memMap (s.shm.shareMemoryArr i).page ≠ 0

/-- Used slots have their own number, different keys and different pages, and
calls with one key got one page. -/
structure ShmRun.Separate (s : ShmRun) : Prop where
  ids : ∀ i, s.shm.Used i → (s.shm.shareMemoryArr i).shmid = i
  keys : ∀ i j, s.shm.Used i → s.shm.Used j →
    (s.shm.shareMemoryArr i).key = (s.shm.shareMemoryArr j).key → i = j
  pages : ∀ i j, s.shm.Used i → s.shm.Used j →
    (s.shm.shareMemoryArr i).page = (s.shm.shareMemoryArr j).page → i = j
  joined : ∀ g ∈ s.got, ∀ g' ∈ s.got, g.key = g'.key → g.page = g'.page

/-- A call that maps a page maps that of the slot it returns, at the address in
that slot. -/
def ShmRun.MapsSlot (s : ShmRun) : ShmEvent → Prop
  | .shmget current key size =>
      let r := sysShmget key size current s.mem s.shm
      let slot := r.shm.shareMemoryArr r.ret.toNat
      let address := (current.startCode + slot.virtualAddress) % 2 ^ 32
      r.current.shareMemoryNum ≠ current.shareMemoryNum →
        (r.mem.pgDir (dirIndex address)).present = true ∧
        r.mem.table (r.mem.pgDir (dirIndex address)).frame (tableIndex address) = .user r.page
  | .other _ => True

/-! ## Pages in use -/

section Pages

variable {m m' : Memory} {p q page address : ℕ}

theorem getFreePage_memMap (h : getFreePage m = some (p, m')) :
    m'.memMap p ≠ 0 ∧ ∀ q, m.memMap q ≠ 0 → m'.memMap q ≠ 0 := by
  obtain ⟨-, -, rfl⟩ := getFreePage_some h
  unfold Memory.clearPage Memory.setCount
  dsimp only
  refine ⟨by simp, fun q hq => ?_⟩
  by_cases hqp : q = p
  · simp [hqp]
  · rwa [Function.update_of_ne hqp]

/-- `put_page` frees nothing, and then the entry is there. -/
theorem putPage_some (h : putPage page address m = some m') :
    (∀ q, m.memMap q ≠ 0 → m'.memMap q ≠ 0) ∧ (m'.pgDir (dirIndex address)).present = true ∧
      m'.table (m'.pgDir (dirIndex address)).frame (tableIndex address) = .user page := by
  unfold putPage at h
  dsimp only at h
  split at h
  next hpresent =>
    cases h
    exact ⟨fun _ hq => hq, hpresent, by simp [Memory.setEntry]⟩
  next =>
    obtain ⟨⟨t, m₁⟩, hget, rfl⟩ := Option.map_eq_some_iff.1 h
    exact ⟨(getFreePage_memMap hget).2, by simp [Memory.setEntry, Memory.setDir, Entry.user],
      by simp [Memory.setEntry, Memory.setDir, Entry.user]⟩

end Pages

/-! ## The invariant -/

namespace ShmRun

/-- The slots are well formed, each has a page of its own that is in use, and the
calls are found in them. -/
structure Inv (m : Memory) (shm : Shm) (got : List Got) : Prop where
  slots : shm.WellFormed
  inUse : ∀ i < MAX_SHARE_MEMORY_SIZE, (shm.shareMemoryArr i).shmid ≠ -1 →
    m.memMap (shm.shareMemoryArr i).page ≠ 0
  pages : ∀ i < MAX_SHARE_MEMORY_SIZE, ∀ j < MAX_SHARE_MEMORY_SIZE,
    (shm.shareMemoryArr i).shmid ≠ -1 → (shm.shareMemoryArr j).shmid ≠ -1 →
    (shm.shareMemoryArr i).page = (shm.shareMemoryArr j).page → i = j
  got : ∀ g ∈ got, ∃ i < MAX_SHARE_MEMORY_SIZE, (shm.shareMemoryArr i).shmid ≠ -1 ∧
    (shm.shareMemoryArr i).key = g.key ∧ (shm.shareMemoryArr i).page = g.page

variable {m m' : Memory} {shm : Shm} {got : List Got} {key : ℤ} {size index page : ℕ}
  {current : Task}

/-- Pages that are in use stay so. -/
theorem Inv.mono (h : Inv m shm got)
    (hm : ∀ i < MAX_SHARE_MEMORY_SIZE, (shm.shareMemoryArr i).shmid ≠ -1 →
      m.memMap (shm.shareMemoryArr i).page ≠ 0 → m'.memMap (shm.shareMemoryArr i).page ≠ 0) :
    Inv m' shm got :=
  ⟨h.slots, fun i hi hid => hm i hi hid (h.inUse i hi hid), h.pages, h.got⟩

/-- A call got the page of a slot. -/
theorem Inv.cons (h : Inv m shm got) (hi : index < MAX_SHARE_MEMORY_SIZE)
    (hid : (shm.shareMemoryArr index).shmid ≠ -1) (hkey : (shm.shareMemoryArr index).key = key) :
    Inv m shm (⟨key, (shm.shareMemoryArr index).page⟩ :: got) := by
  refine ⟨h.slots, h.inUse, h.pages, fun g hg => ?_⟩
  rcases List.mem_cons.1 hg with rfl | hg
  · exact ⟨index, hi, hid, hkey, rfl⟩
  · exact h.got g hg

/-- A slot is filled in with a page that no other slot has. -/
theorem Inv.setSlot (h : Inv m shm got) {slot : ShareMemory} (hid : slot.shmid = index)
    (huse : m.memMap slot.page ≠ 0)
    (hkey : ∀ i < MAX_SHARE_MEMORY_SIZE, (shm.shareMemoryArr i).shmid ≠ -1 →
      (shm.shareMemoryArr i).key = slot.key → i = index)
    (hpage : ∀ i < MAX_SHARE_MEMORY_SIZE, (shm.shareMemoryArr i).shmid ≠ -1 →
      (shm.shareMemoryArr i).page = slot.page → i = index)
    (hsame : (shm.shareMemoryArr index).shmid ≠ -1 →
      (shm.shareMemoryArr index).key = slot.key ∧ (shm.shareMemoryArr index).page = slot.page) :
    Inv m (shm.setSlot index slot) got := by
  have hother (i : ℕ) (hi : i ≠ index) :
      (shm.setSlot index slot).shareMemoryArr i = shm.shareMemoryArr i := shm.setSlot_of_ne hi slot
  refine ⟨h.slots.setSlot hid hkey, fun i hi hidi => ?_, fun i hi j hj hidi hidj heq => ?_,
    fun g hg => ?_⟩
  · by_cases hii : i = index
    · rw [hii, Shm.setSlot_self]
      exact huse
    · rw [hother i hii] at hidi ⊢
      exact h.inUse i hi hidi
  · by_cases hii : i = index
    · by_cases hjj : j = index
      · rw [hii, hjj]
      · rw [hother j hjj] at hidj heq
        rw [hii, Shm.setSlot_self] at heq
        exact absurd (hpage j hj hidj heq.symm) hjj
    · rw [hother i hii] at hidi heq
      by_cases hjj : j = index
      · rw [hjj, Shm.setSlot_self] at heq
        exact absurd (hpage i hi hidi heq) hii
      · rw [hother j hjj] at hidj heq
        exact h.pages i hi j hj hidi hidj heq
  · obtain ⟨i, hi, hidi, hkeyi, hpagei⟩ := h.got g hg
    by_cases hii : i = index
    · subst hii
      obtain ⟨hk, hp⟩ := hsame hidi
      refine ⟨i, hi, ?_⟩
      rw [Shm.setSlot_self]
      exact ⟨by omega, hk.symm.trans hkeyi, hp.symm.trans hpagei⟩
    · refine ⟨i, hi, ?_⟩
      rw [hother i hii]
      exact ⟨hidi, hkeyi, hpagei⟩

/-- One call: the invariant is kept, and a page that is mapped is that of the
slot. -/
theorem Inv.shmget (h : Inv m shm.initKeyArrIfNot got) (current : Task) (key : ℤ) (size : ℕ) :
    Inv (sysShmget key size current m shm).mem (sysShmget key size current m shm).shm
        (if (sysShmget key size current m shm).ret < 0 then got
          else ⟨key, (sysShmget key size current m shm).page⟩ :: got) ∧
      (sysShmget key size current m shm).shm.init = true := by
  generalize hr : sysShmget key size current m shm = r
  have hinit := shm.initKeyArrIfNot_init
  rcases sysShmget_cases hr with ⟨hret, -, hshm, hmem⟩ | ⟨i, hget, -, -, rfl⟩ |
    ⟨index, page, m₁, -, hpage, hput, hret, -, hshm⟩
  · rw [if_pos hret, hshm]
    refine ⟨h.mono fun i hi hid huse => ?_, hinit⟩
    rcases hmem with hmem | ⟨p, hmem⟩
    · rwa [hmem]
    · exact (getFreePage_memMap hmem).2 _ huse
  · obtain ⟨hi, hid, hkey⟩ := Shm.getShmid_some hget
    have hself : (shm.initKeyArrIfNot.shareMemoryArr i).shmid = i :=
      (h.slots.ids i hi).resolve_left hid
    refine ⟨?_, hinit⟩
    dsimp only [ShmgetResult.page]
    rw [hself, if_neg (by omega), Int.toNat_natCast]
    exact h.cons hi hid hkey
  · have hslot : r.page = page := by
      rw [ShmgetResult.page, hret, hshm, Int.toNat_natCast, Shm.setSlot_self]
    have hnot : ¬r.ret < 0 := by omega
    obtain ⟨hkeep, -⟩ := putPage_some hput
    rw [if_neg hnot, hslot, hshm]
    refine ⟨?_, hinit⟩
    generalize shm.initKeyArrIfNot = arr at h hpage
    -- A slot is filled in again with the page it has, or a free one with a page that was free.
    have hfill : Inv r.mem (arr.setSlot index
        ⟨key, index, current.shmAddress, page, current.pid⟩) got ∧
        index < MAX_SHARE_MEMORY_SIZE := by
      rcases hpage with ⟨hget, rfl, rfl, -⟩ | ⟨hget, hfree, hroom⟩
      · obtain ⟨hi, hid, hkey⟩ := Shm.getShmid_some hget
        refine ⟨(h.mono fun _ _ _ huse => hkeep _ huse).setSlot rfl (hkeep _ (h.inUse index hi hid))
          (fun i hi' hid' hkey' => ?_) (fun i hi' hid' => h.pages i hi' index hi hid' hid)
          fun _ => ⟨hkey, rfl⟩, hi⟩
        exact h.slots.keys i hi' index hi hid' hid (hkey'.trans hkey.symm)
      · obtain ⟨hi, hid⟩ := Shm.getFreeShm_some hroom
        obtain ⟨huse, hmono⟩ := getFreePage_memMap hfree
        refine ⟨(h.mono fun _ _ _ huse => hkeep _ (hmono _ huse)).setSlot rfl (hkeep _ huse)
          (fun i hi' hid' hkey' => absurd hkey' (Shm.getShmid_none hget hi' hid'))
          (fun i hi' hid' hpage' => ?_) fun hid' => absurd hid hid', hi⟩
        have hzero := (getFreePage_some hfree).2.1
        rw [← show (arr.shareMemoryArr i).page = page from hpage'] at hzero
        exact absurd hzero (h.inUse i hi' hid')
    have hcons := hfill.1.cons hfill.2 (by rw [Shm.setSlot_self]; dsimp only; omega)
      (by rw [Shm.setSlot_self])
    rwa [Shm.setSlot_self] at hcons

/-- The slots are those of the array once it has been initialised. -/
theorem used_iff {i : ℕ} : shm.Used i ↔ i < MAX_SHARE_MEMORY_SIZE ∧
    (shm.initKeyArrIfNot.shareMemoryArr i).shmid ≠ -1 := by
  unfold Shm.Used Shm.initKeyArrIfNot
  split
  next hinit => simp [hinit]
  next hinit => simp [hinit]

theorem initKeyArrIfNot_of_used {i : ℕ} (h : shm.Used i) : shm.initKeyArrIfNot = shm :=
  if_pos h.1

/-- What the invariant says of a state of a run. -/
def Sound (s : ShmRun) : Prop := Inv s.mem s.shm.initKeyArrIfNot s.got

variable {s : ShmRun} {e : ShmEvent}

theorem Sound.step (h : s.Sound) (hv : s.Valid e) : (s.step e).Sound := by
  cases e with
  | shmget current key size =>
      obtain ⟨hinv, hinit⟩ := Inv.shmget h current key size
      unfold Sound ShmRun.step
      dsimp only
      rw [show Shm.initKeyArrIfNot _ = _ from if_pos hinit]
      exact hinv
  | other mem =>
      refine Inv.mono h fun i hi hid _ => ?_
      have hused : s.shm.Used i := used_iff.2 ⟨hi, hid⟩
      show mem.memMap (s.shm.initKeyArrIfNot.shareMemoryArr i).page ≠ 0
      rw [initKeyArrIfNot_of_used hused]
      exact hv i hused

theorem Sound.separate (h : s.Sound) : s.Separate := by
  have hsame {i : ℕ} (hi : s.shm.Used i) := initKeyArrIfNot_of_used hi
  refine ⟨fun i hi => ?_, fun i j hi hj => ?_, fun i j hi hj => ?_, fun g hg g' hg' hkey => ?_⟩
  · have hid := h.slots.ids i hi.2.1
    rw [hsame hi] at hid
    exact hid.resolve_left hi.2.2
  · have hkeys := h.slots.keys i hi.2.1 j hj.2.1
    rw [hsame hi] at hkeys
    exact hkeys hi.2.2 hj.2.2
  · have hpages := h.pages i hi.2.1 j hj.2.1
    rw [hsame hi] at hpages
    exact hpages hi.2.2 hj.2.2
  · obtain ⟨i, hi, hid, hkeyi, hpagei⟩ := h.got g hg
    obtain ⟨j, hj, hjd, hkeyj, hpagej⟩ := h.got g' hg'
    have hij := h.slots.keys i hi j hj hid hjd ((hkeyi.trans hkey).trans hkeyj.symm)
    subst hij
    exact hpagei.symm.trans hpagej

theorem mapsSlot (s : ShmRun) (e : ShmEvent) : s.MapsSlot e := by
  cases e with
  | other mem => trivial
  | shmget current key size =>
      unfold MapsSlot
      dsimp only
      generalize hr : sysShmget key size current s.mem s.shm = r
      intro hnum
      rcases sysShmget_cases hr with ⟨-, hcurrent, -⟩ | ⟨i, -, -, -, rfl⟩ |
        ⟨index, page, m₁, -, -, hput, hret, -, hshm⟩
      · exact absurd (congrArg Task.shareMemoryNum hcurrent) hnum
      · exact absurd rfl hnum
      · rw [ShmgetResult.page, hret, hshm, Int.toNat_natCast, Shm.setSlot_self]
        exact (putPage_some hput).2

/-- From a kernel in which nobody has called `sys_shmget` yet, keys and pages stay
separate and calls with one key get one page. -/
theorem shm_keys_pages (m : Memory) (es : List ShmEvent) (h : EachStep step Valid ⟨m, .zero, []⟩ es) :
    Always step Separate ⟨m, .zero, []⟩ es ∧ EachStep step MapsSlot ⟨m, .zero, []⟩ es := by
  have hnone (i : ℕ) : (Shm.zero.initKeyArrIfNot.shareMemoryArr i).shmid = -1 := rfl
  have hstart : Sound ⟨m, .zero, []⟩ :=
    ⟨⟨fun i _ => .inl (hnone i), fun i _ j _ hid => absurd (hnone i) hid⟩,
      fun i _ hid => absurd (hnone i) hid, fun i _ j _ hid => absurd (hnone i) hid,
      fun g hg => absurd hg List.not_mem_nil⟩
  exact ⟨h.always (fun s hs => hs.separate) (fun s e hs hv => hs.step hv) hstart,
    .of_forall mapsSlot⟩

/-- Two processes share a key, and one of them has another. -/
theorem shm_keys_pages_two : let free : Memory := ⟨fun _ => 0, 4096, fun _ => .zero,
      fun _ _ => .zero, fun _ _ => 0⟩
    let task (pid : ℤ) : Task := ⟨0, pid, 0, 0, 0, 0, none, 0, false⟩
    let es := [.shmget (task 1) 7 4096, .shmget (task 2) 7 100, .shmget (task 1) 8 4096]
    (es.foldl step ⟨free, .zero, []⟩).got.map Got.page = [4093, 4095, 4095] ∧
      Always step Separate ⟨free, .zero, []⟩ es ∧ EachStep step MapsSlot ⟨free, .zero, []⟩ es := by
  intro free task es
  exact ⟨by decide +kernel, shm_keys_pages free es ⟨trivial, trivial, trivial, trivial⟩⟩

end ShmRun

end MyJavaExample.Mm
