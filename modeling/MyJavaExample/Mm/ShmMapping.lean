import MyJavaExample.Mm.ShmAttach
import MyJavaExample.Mm.ShmFailures

/-!
# Where `sys_shmget` maps its page

The page is put at `end_data` plus a page for each earlier call.  Nobody looks
whether the bss, the heap or the rest of the last data page is there already, and
`put_page` replaces what it finds.  A segment is as far from the start of its
page as `end_data` is, so that it can end in the next page.

`sysShmget_keeps_iff` says exactly when a call does no harm.
-/

namespace MyJavaExample.Mm

/-! ## The layout of a program -/

def ZMAGIC : UInt32 := 0o413

/-- The header of an executable. -/
structure ExecHeader where
  aMagic : UInt32
  aText : UInt32
  aData : UInt32
  aBss : UInt32
  aSyms : UInt32
  aTrsize : UInt32
  aDrsize : UInt32

namespace ExecHeader

variable (ex : ExecHeader)

/-- `N_TXTOFF`. -/
def txtoff : UInt32 := if ex.aMagic = ZMAGIC then 1024 else 32

/-- The checks of `do_execve` on a file of `iSize` bytes. -/
def accepted (iSize : UInt32) : Bool :=
  ¬(ex.aMagic ≠ ZMAGIC ∨ ex.aTrsize ≠ 0 ∨ ex.aDrsize ≠ 0 ∨
      ex.aText + ex.aData + ex.aBss > 0x3000000 ∨
      iSize < ex.aText + ex.aData + ex.aSyms + ex.txtoff) ∧ ex.txtoff = 1024

def endData : UInt32 := ex.aData + ex.aText

def brk : UInt32 := ex.aBss + ex.endData

end ExecHeader

/-! ## The address space of the caller -/

/-- Two linear addresses are on one page. -/
def SamePage (a b : ℕ) : Prop := dirIndex a = dirIndex b ∧ tableIndex a = tableIndex b

instance (a b : ℕ) : Decidable (SamePage a b) :=
  inferInstanceAs (Decidable (_ ∧ _))

/-- The page tables of the task are in use, and no other directory entry has
them. -/
structure OwnTables (current : Task) (m : Memory) : Prop where
  used : ∀ x < TASK_SIZE, (m.pgDir (dirIndex (current.startCode + x))).present →
    m.memMap (m.pgDir (dirIndex (current.startCode + x))).frame ≠ 0
  own : ∀ x < TASK_SIZE, (m.pgDir (dirIndex (current.startCode + x))).present →
    ∀ d < 1024, (m.pgDir d).present → (m.pgDir d).frame =
      (m.pgDir (dirIndex (current.startCode + x))).frame → d = dirIndex (current.startCode + x)

/-- The pages of the task that were present are still mapped as they were. -/
def KeepsEntries (current : Task) (m m' : Memory) : Prop :=
  ∀ x < TASK_SIZE, ∀ e, m.lookup (current.startCode + x) = some e →
    m'.lookup (current.startCode + x) = some e

/-- The segment of a slot is within one page. -/
def InOnePage (slot : ShareMemory) (size : ℕ) : Prop :=
  ∀ k < size, (slot.virtualAddress + k) / PAGE_SIZE = slot.virtualAddress / PAGE_SIZE

/-- A call that is successful replaces no page of the caller, and its segment is
within a page. -/
def NeverReplaces (key : ℤ) (size : ℕ) (current : Task) (m : Memory) (shm : Shm) : Prop :=
  let r := sysShmget key size current m shm
  0 ≤ r.ret → KeepsEntries current m r.mem ∧ InOnePage (r.shm.shareMemoryArr r.ret.toNat) size

section AddressSpace

variable {current : Task} {m m' : Memory} {p page address : ℕ}

theorem Memory.lookup_eq_none_of_dir (h : ¬(m.pgDir (dirIndex address)).present) :
    m.lookup address = none := by
  unfold Memory.lookup
  simp [h]

/-- Taking a free page changes no table of the caller. -/
theorem OwnTables.getFreePage (h : OwnTables current m) (hget : getFreePage m = some (p, m')) :
    OwnTables current m' ∧ ∀ x < TASK_SIZE,
      m'.lookup (current.startCode + x) = m.lookup (current.startCode + x) := by
  obtain ⟨-, hfree, rfl⟩ := getFreePage_some hget
  refine ⟨⟨fun x hx hpresent => ?_, h.own⟩, fun x hx => ?_⟩
  · have hne : (m.pgDir (dirIndex (current.startCode + x))).frame ≠ p := fun heq =>
      h.used x hx hpresent (heq ▸ hfree)
    simpa [Memory.clearPage, Memory.setCount, hne] using h.used x hx hpresent
  · by_cases hpresent : (m.pgDir (dirIndex (current.startCode + x))).present
    · have hne : (m.pgDir (dirIndex (current.startCode + x))).frame ≠ p := fun heq =>
        h.used x hx hpresent (heq ▸ hfree)
      simp [Memory.lookup, Memory.clearPage, Memory.setCount, hne]
    · rw [Memory.lookup_eq_none_of_dir hpresent, Memory.lookup_eq_none_of_dir]
      exact hpresent

/-- `put_page` sets one entry, whatever was there. -/
theorem OwnTables.lookup_putPage (h : OwnTables current m) (hput : putPage page address m = some m')
    {x : ℕ} (hx : x < TASK_SIZE) : m'.lookup (current.startCode + x) =
      if SamePage (current.startCode + x) address then some (.user page)
      else m.lookup (current.startCode + x) := by
  unfold putPage at hput
  dsimp only at hput
  unfold SamePage Memory.lookup
  split at hput
  next hpresent =>
    cases hput
    by_cases hd : dirIndex (current.startCode + x) = dirIndex address
    · by_cases hi : tableIndex (current.startCode + x) = tableIndex address
      · simp [Memory.setEntry, hd, hi, hpresent, Entry.user]
      · simp [Memory.setEntry, hd, hi]
    · by_cases hown : (m.pgDir (dirIndex (current.startCode + x))).present
      · have hne : (m.pgDir (dirIndex (current.startCode + x))).frame ≠
            (m.pgDir (dirIndex address)).frame := fun heq =>
          hd (h.own x hx hown _ (Nat.mod_lt _ (by decide)) hpresent heq.symm).symm
        simp [Memory.setEntry, hd, hne]
      · simp [Memory.setEntry, hd, hown]
  next hpresent =>
    -- the new table is empty, and none of the caller's
    obtain ⟨⟨t, m₁⟩, hget, rfl⟩ := Option.map_eq_some_iff.1 hput
    obtain ⟨-, hfree, rfl⟩ := getFreePage_some hget
    by_cases hd : dirIndex (current.startCode + x) = dirIndex address
    · by_cases hi : tableIndex (current.startCode + x) = tableIndex address
      · simp [Memory.setEntry, Memory.setDir, Memory.clearPage, hd, hi, Entry.user]
      · simp [Memory.setEntry, Memory.setDir, Memory.clearPage, Memory.setCount, hd, hi,
          hpresent, Entry.user, Entry.zero]
    · by_cases hown : (m.pgDir (dirIndex (current.startCode + x))).present
      · have hne : (m.pgDir (dirIndex (current.startCode + x))).frame ≠ t := fun heq =>
          h.used x hx hown (heq ▸ hfree)
        simp [Memory.setEntry, Memory.setDir, Memory.clearPage, Memory.setCount, hd, hne]
      · simp [Memory.setEntry, Memory.setDir, Memory.clearPage, Memory.setCount, hd, hown]

/-- The tables of a process are its own as long as the counts are right and the
kernel's own tables are below the free memory. -/
theorem Consistent.ownTables {bounds : Bounds} {held : List ℕ} (h : Consistent bounds m held)
    (hlow : ∀ d < 4, (m.pgDir d).frame < LOW_MEM) {nr : ℕ} (hnr : 1 ≤ nr ∧ nr < NR_TASKS)
    (hstart : current.startCode = nr * TASK_SIZE) : OwnTables current m := by
  have hdir (x : ℕ) (hx : x < TASK_SIZE) : 4 ≤ dirIndex (current.startCode + x) ∧
      dirIndex (current.startCode + x) < 1024 := by
    unfold TASK_SIZE at hx hstart
    unfold dirIndex
    unfold NR_TASKS at hnr
    omega
  have href (d : ℕ) (hd : 4 ≤ d ∧ d < 1024) (hpresent : (m.pgDir d).present) :
      dirRef m ⟨d, hd.2⟩ = some (m.pgDir d).frame := dirRef_eq_some.2 ⟨hd.1, hpresent, rfl⟩
  refine ⟨fun x hx hpresent => ?_, fun x hx hpresent d hd hpresent' heq => ?_⟩
  · exact (h.tablesUsed.used _ _ (href _ (hdir x hx) hpresent)).2
  · have hown := href _ (hdir x hx) hpresent
    have hd4 : 4 ≤ d := by
      by_contra hlt
      have := hlow d (by omega)
      have := (h.tablesUsed.used _ _ hown).1
      omega
    have hother := href d ⟨hd4, hd⟩ hpresent'
    rw [heq] at hother
    exact congrArg Fin.val (h.tablesUsed.unique _ _ _ hother hown)

/-- The pages of the caller are not at the address, or they are the one that is
put there. -/
def Spares (current : Task) (m : Memory) (page address : ℕ) : Prop :=
  ∀ x < TASK_SIZE, SamePage (current.startCode + x) address →
    ∀ e, m.lookup (current.startCode + x) = some e → e = .user page

theorem OwnTables.keepsEntries_putPage_iff (h : OwnTables current m)
    (hput : putPage page address m = some m') :
    KeepsEntries current m m' ↔ Spares current m page address := by
  refine ⟨fun hkeep x hx hsame e he => ?_, fun hspares x hx e he => ?_⟩
  · have hafter := hkeep x hx e he
    rw [h.lookup_putPage hput hx, if_pos hsame] at hafter
    exact (Option.some.inj hafter).symm
  · rw [h.lookup_putPage hput hx]
    split
    next hsame => rw [hspares x hx hsame e he]
    next => exact he

/-- A segment that does not reach the end of its page is within it. -/
theorem inOnePage_iff {slot : ShareMemory} {size : ℕ} :
    InOnePage slot size ↔ slot.virtualAddress % PAGE_SIZE + size ≤ PAGE_SIZE := by
  unfold InOnePage PAGE_SIZE
  constructor
  · intro h
    by_contra hno
    have := h (4096 - slot.virtualAddress % 4096) (by omega)
    omega
  · intro h k hk
    omega

/-- The segment begins as far from the start of a page as `end_data`. -/
theorem shmAddress_mod (current : Task) :
    current.shmAddress % PAGE_SIZE = current.endData % PAGE_SIZE := by
  unfold Task.shmAddress PAGE_SIZE
  omega

end AddressSpace

/-! ## The call -/

/-- The call maps the page: that of a slot of another process, or the free one
that a new key gets, if there is a page table for it or a page for one. -/
def ToMap (key : ℤ) (current : Task) (m : Memory) (shm : Shm) (page : ℕ) : Prop :=
  (∃ i, shm.getShmid key = some i ∧ (shm.shareMemoryArr i).pid ≠ current.pid ∧
      (shm.shareMemoryArr i).page = page ∧
      ((m.pgDir (dirIndex current.shmLinear)).present ∨ ∃ p, m.Free p)) ∨
    shm.getShmid key = none ∧ shm.HasRoom ∧ findFree m.memMap PAGING_PAGES = some page ∧
      ((m.pgDir (dirIndex current.shmLinear)).present ∨ ∃ p, p ≠ page ∧ m.Free p)

/-- The size is refused, or the segment fits into its page and the page that is
mapped goes where the caller has none. -/
def Harmless (key : ℤ) (size : ℕ) (current : Task) (m : Memory) (shm : Shm) : Prop :=
  PAGE_SIZE < size ∨
    (∀ i, shm.getShmid key = some i → (shm.shareMemoryArr i).pid = current.pid →
      (shm.shareMemoryArr i).virtualAddress % PAGE_SIZE + size ≤ PAGE_SIZE) ∧
    ∀ page, ToMap key current m shm page →
      current.endData % PAGE_SIZE + size ≤ PAGE_SIZE ∧ Spares current m page current.shmLinear

section Call

variable {key : ℤ} {size page index : ℕ} {current : Task} {m m₁ m' : Memory} {shm : Shm}

theorem shmMap_eq_of_some (h : putPage page current.shmLinear m = some m') :
    shmMap key page index current m shm = ⟨index,
      { current with shareMemoryNum := current.shareMemoryNum + 1 }, m',
      shm.setSlot index ⟨key, index, current.shmAddress, page, current.pid⟩⟩ := by
  unfold Task.shmLinear Task.shmAddress at h
  unfold shmMap
  simp only [h]
  rfl

/-- A page is mapped; `m₁` is the memory once the page has been taken. -/
theorem shmMap_harmless_iff (h : OwnTables current m₁)
    (hlook : ∀ x < TASK_SIZE,
      m₁.lookup (current.startCode + x) = m.lookup (current.startCode + x))
    (hput : putPage page current.shmLinear m₁ = some m') :
    (0 ≤ (shmMap key page index current m₁ shm).ret →
        KeepsEntries current m (shmMap key page index current m₁ shm).mem ∧
        InOnePage ((shmMap key page index current m₁ shm).shm.shareMemoryArr
          (shmMap key page index current m₁ shm).ret.toNat) size) ↔
      current.endData % PAGE_SIZE + size ≤ PAGE_SIZE ∧
        Spares current m page current.shmLinear := by
  have hkeeps : KeepsEntries current m m' ↔ Spares current m page current.shmLinear := by
    have hiff := h.keepsEntries_putPage_iff hput
    unfold KeepsEntries Spares at hiff ⊢
    constructor
    · intro hkeep x hx
      rw [← hlook x hx]
      exact hiff.1 (fun y hy => by rw [hlook y hy]; exact hkeep y hy) x hx
    · intro hspares x hx
      rw [← hlook x hx]
      exact hiff.2 (fun y hy => by rw [hlook y hy]; exact hspares y hy) x hx
  rw [shmMap_eq_of_some hput]
  dsimp only
  rw [Int.toNat_natCast, Shm.setSlot_self, inOnePage_iff, hkeeps]
  dsimp only
  rw [shmAddress_mod, and_comm]
  exact ⟨fun hall => hall (Int.natCast_nonneg index), fun hall _ => hall⟩

/-- A call that fails does no harm. -/
theorem never_of_fail {ret : ℤ} {P : Prop} (hret : ret < 0) : (0 ≤ ret → P) ↔ True :=
  iff_true_intro fun h => absurd hret (Int.not_lt.2 h)

theorem putPage_ne_none {address : ℕ} : putPage page address m ≠ none ↔
    (m.pgDir (dirIndex address)).present ∨ ∃ p, m.Free p := by
  rw [Ne, putPage_eq_none, not_and_or, not_not]
  refine or_congr Iff.rfl ⟨fun hsome => ?_, ?_⟩
  · obtain ⟨⟨p, m'⟩, hget⟩ := Option.ne_none_iff_exists'.1 hsome
    exact ⟨p, getFreePage_free hget⟩
  · rintro ⟨p, hp⟩ hnone
    exact getFreePage_none hnone hp

/-- What a call for the key of another process maps. -/
theorem toMap_shared_iff {i : ℕ} (hid : shm.getShmid key = some i)
    (hpid : (shm.shareMemoryArr i).pid ≠ current.pid) :
    ToMap key current m shm page ↔ (shm.shareMemoryArr i).page = page ∧
      putPage page current.shmLinear m ≠ none := by
  rw [putPage_ne_none]
  constructor
  · rintro (⟨j, hj, -, hpage, hroom⟩ | ⟨hnone, -⟩)
    · cases hid.symm.trans hj
      exact ⟨hpage, hroom⟩
    · cases hid.symm.trans hnone
  · rintro ⟨hpage, hroom⟩
    exact .inl ⟨i, hid, hpid, hpage, hroom⟩

/-- What a call for a new key maps, once a page is taken. -/
theorem toMap_new_iff {p : ℕ} (hid : shm.getShmid key = none)
    (hget : getFreePage m = some (p, m₁)) :
    ToMap key current m shm page ↔ shm.HasRoom ∧ p = page ∧
      putPage page current.shmLinear m₁ ≠ none := by
  have hdir : m₁.pgDir = m.pgDir := by
    obtain ⟨-, -, rfl⟩ := getFreePage_some hget
    rfl
  have hfind : findFree m.memMap PAGING_PAGES = some p := by
    obtain ⟨q, hq, heq⟩ := Option.map_eq_some_iff.1 hget
    cases heq
    exact hq
  rw [putPage_ne_none, hdir]
  simp only [getFreePage_free_iff hget]
  constructor
  · rintro (⟨j, hj, -⟩ | ⟨-, hroom, hpage, hdir⟩)
    · cases hid.symm.trans hj
    · cases hfind.symm.trans hpage
      exact ⟨hroom, rfl, hdir.imp_right fun ⟨q, hne, hq⟩ => ⟨q, hq, hne⟩⟩
  · rintro ⟨hroom, rfl, hdir⟩
    exact .inr ⟨hid, hroom, hfind, hdir.imp_right fun ⟨q, hq, hne⟩ => ⟨q, hne, hq⟩⟩

/-- For a caller with tables of its own, a call replaces no page and keeps within
its page exactly if it is harmless. -/
theorem sysShmget_keeps_iff (h : OwnTables current m) (hslots : shm.initKeyArrIfNot.WellFormed) :
    NeverReplaces key size current m shm ↔ Harmless key size current m shm.initKeyArrIfNot := by
  unfold NeverReplaces Harmless sysShmget
  dsimp only
  generalize shm.initKeyArrIfNot = shm at hslots
  by_cases hsize : size > PAGE_SIZE
  · rw [if_pos hsize, never_of_fail (show -EINVAL < 0 by decide)]
    exact iff_of_true trivial (.inl hsize)
  rw [if_neg hsize, or_iff_right hsize]
  cases hid : shm.getShmid key with
  | some i =>
      obtain ⟨hi, hused, -⟩ := Shm.getShmid_some hid
      dsimp only
      by_cases hpid : (shm.shareMemoryArr i).pid = current.pid
      · have hno (page : ℕ) : ¬ToMap key current m shm page := by
          rintro (⟨j, hj, hne, -⟩ | ⟨hnone, -⟩)
          · cases hid.symm.trans hj
            exact hne hpid
          · cases hid.symm.trans hnone
        have hself := (hslots.ids i hi).resolve_left hused
        rw [if_pos hpid]
        dsimp only
        rw [hself, Int.toNat_natCast, inOnePage_iff]
        constructor
        · intro hall
          refine ⟨fun j hj _ => ?_, fun page hpage => absurd hpage (hno page)⟩
          cases hj
          exact (hall (Int.natCast_nonneg i)).2
        · exact fun hall _ => ⟨fun x hx e he => he, hall.1 i rfl hpid⟩
      · rw [if_neg hpid]
        have hown : ∀ j, some i = some j → (shm.shareMemoryArr j).pid = current.pid →
            (shm.shareMemoryArr j).virtualAddress % PAGE_SIZE + size ≤ PAGE_SIZE := by
          intro j hj hjp
          cases hj
          exact absurd hjp hpid
        rw [and_iff_right hown]
        cases hput : putPage (shm.shareMemoryArr i).page current.shmLinear m with
        | none =>
            rw [shmMap_eq_of_none hput, never_of_fail neg_ENOMEM_lt, true_iff]
            intro page hpage
            obtain ⟨rfl, hsome⟩ := (toMap_shared_iff hid hpid).1 hpage
            exact absurd hput hsome
        | some m' =>
            rw [shmMap_harmless_iff h (fun _ _ => rfl) hput]
            refine ⟨fun hall page hpage => ?_, fun hall => hall _ ?_⟩
            · obtain ⟨rfl, -⟩ := (toMap_shared_iff hid hpid).1 hpage
              exact hall
            · exact (toMap_shared_iff hid hpid).2 ⟨rfl, by simp [hput]⟩
  | none =>
      have hown : ∀ j, none = some j → (shm.shareMemoryArr j).pid = current.pid →
          (shm.shareMemoryArr j).virtualAddress % PAGE_SIZE + size ≤ PAGE_SIZE :=
        fun j hj => by cases hj
      rw [and_iff_right hown]
      dsimp only
      cases hget : getFreePage m with
      | none =>
          dsimp only
          rw [never_of_fail neg_ENOMEM_lt, true_iff]
          rintro page (⟨j, hj, -⟩ | ⟨-, -, hpage, -⟩)
          · cases hid.symm.trans hj
          · have hfind := Option.map_eq_none_iff.1 hget
            cases hfind.symm.trans hpage
      | some r =>
          obtain ⟨p, m₁⟩ := r
          obtain ⟨h₁, hlook⟩ := h.getFreePage hget
          dsimp only
          cases hfree : shm.getFreeShm with
          | none =>
              dsimp only
              rw [never_of_fail neg_ENOMEM_lt, true_iff]
              intro page hpage
              obtain ⟨⟨i, hi, hroom⟩, -⟩ := (toMap_new_iff hid hget).1 hpage
              exact absurd hroom (Shm.getFreeShm_none hfree hi)
          | some index =>
              dsimp only
              cases hput : putPage p current.shmLinear m₁ with
              | none =>
                  rw [shmMap_eq_of_none hput, never_of_fail neg_ENOMEM_lt, true_iff]
                  intro page hpage
                  obtain ⟨-, rfl, hsome⟩ := (toMap_new_iff hid hget).1 hpage
                  exact absurd hput hsome
              | some m' =>
                  rw [shmMap_harmless_iff h₁ hlook hput]
                  refine ⟨fun hall page hpage => ?_, fun hall => hall _ ?_⟩
                  · obtain ⟨-, rfl, -⟩ := (toMap_new_iff hid hget).1 hpage
                    exact hall
                  · exact (toMap_new_iff hid hget).2
                      ⟨⟨index, Shm.getFreeShm_some hfree⟩, rfl, by simp [hput]⟩

end Call

/-! ## A program whose data ends within a page -/

def sampleHeader : ExecHeader := ⟨ZMAGIC, 0x1000, 0x234, 0x100, 0, 0, 0⟩

def sampleTask (endData : ℕ) : Task := ⟨0, 1, 0x4000000, 0x1000, 0x4000000, endData, none, 0, false⟩

/-- After `do_execve` has cleared the rest of the last data page. -/
def sampleMemory : Memory where
  memMap := fun p => if p = 0x100 ∨ p = 0x101 then 1 else 0
  highMemory := 4096
  pgDir := fun d => if d = 16 then .user 0x100 else .zero
  table := fun t i => if t = 0x100 ∧ i = 1 then .user 0x101 else .zero
  bytes := fun _ _ => 0

theorem sampleMemory_ownTables (endData : ℕ) : OwnTables (sampleTask endData) sampleMemory := by
  have hdir (d : ℕ) (hd : (sampleMemory.pgDir d).present) : d = 16 := by
    by_contra hne
    simp [sampleMemory, hne, Entry.zero] at hd
  refine ⟨fun x hx hpresent => ?_, fun x hx hpresent d _ hpresent' _ => ?_⟩
  · rw [hdir _ hpresent]
    decide
  · rw [hdir _ hpresent, hdir d hpresent']

theorem zero_wellFormed : Shm.zero.initKeyArrIfNot.WellFormed :=
  ⟨fun _ _ => .inl rfl, fun _ _ _ _ hid => absurd rfl hid⟩

/-- With the end of the data at the end of a page, and nothing there. -/
theorem sample_keeps_iff : 0 ≤ (sysShmget 7 16 (sampleTask 0x2000) sampleMemory .zero).ret ∧
    (NeverReplaces 7 16 (sampleTask 0x2000) sampleMemory .zero ↔
      Harmless 7 16 (sampleTask 0x2000) sampleMemory Shm.zero.initKeyArrIfNot) :=
  ⟨by decide +kernel, sysShmget_keeps_iff (sampleMemory_ownTables _) zero_wellFormed⟩

/-- The program is accepted, and only pages below its `brk` are there.  The first
segment replaces the last page of its data. -/
theorem sample_replaced : sampleHeader.accepted 0x1634 = true ∧
    (∀ x < TASK_SIZE, sampleMemory.lookup (0x4000000 + x) ≠ none →
      x / PAGE_SIZE * PAGE_SIZE < sampleHeader.brk.toNat) ∧
    ¬NeverReplaces 7 16 (sampleTask sampleHeader.endData.toNat) sampleMemory .zero := by
  refine ⟨by decide, fun x hx hlook => ?_, fun h => ?_⟩
  · have hi : tableIndex (0x4000000 + x) = 1 ∧ dirIndex (0x4000000 + x) = 16 := by
      by_contra hno
      refine hlook ?_
      unfold Memory.lookup
      by_cases hd : dirIndex (0x4000000 + x) = 16
      · have hne : tableIndex (0x4000000 + x) ≠ 1 := fun ht => hno ⟨ht, hd⟩
        simp [sampleMemory, hd, hne, Entry.zero, Entry.user]
      · simp [sampleMemory, hd, Entry.zero]
    have hbrk : sampleHeader.brk.toNat = 0x1334 := by decide
    rw [hbrk]
    unfold tableIndex dirIndex at hi
    unfold TASK_SIZE at hx
    unfold PAGE_SIZE
    omega
  · have hbefore : sampleMemory.lookup (0x4000000 + 0x1000) = some (.user 0x101) := by decide +kernel
    have hafter := (h (by decide +kernel)).1 0x1000 (by decide) _ hbefore
    revert hafter
    decide +kernel

end MyJavaExample.Mm
