import MyJavaExample.Fs.InodeRefs
import MyJavaExample.Lib.Run

/-!
# One slot for an inode

`iput` frees an inode without links when it gives up the last reference, and `truncate`
sleeps in between.  The inode still has its number then, and `iget` may find it by a
number that it was given before the name was removed; later on it may read it from the
disk.  As long as `iget` does neither, no inode is in two slots and `free_inode` does
not panic.
-/

namespace MyJavaExample.Fs

open Lib

def FREE_INODE_PANICS : List String :=
  ["free_inode", "trying to free inode with links",
    "trying to free inode on nonexistent device", "trying to free inode 0 or nonexistant inode"]

namespace InodeTable

variable {τ : Type} {n : ℕ}

/-- A state with the property, or a panic that is not one of `free_inode`. -/
def OrPanic (P : InodeTable τ n → Prop) : Except String (InodeTable τ n) → Prop
  | .ok s => P s
  | .error e => e ∉ FREE_INODE_PANICS

variable {s : InodeTable τ n} {t : τ}

theorem freeNumber_eq_some {dev ninodes nr : ℕ} (h : s.freeNumber dev ninodes = some nr) :
    1 ≤ nr ∧ nr ≤ ninodes ∧ s.used dev nr = false := by
  have hmem := List.mem_of_find?_eq_some h
  have hfree := List.find?_some h
  rw [List.mem_range'_1] at hmem
  exact ⟨hmem.1, by omega, by simpa using hfree⟩

theorem findSlot_some {dev nr : ℕ} {i : Fin n} (h : s.findSlot dev nr = some i) :
    (s.slot i).dev = dev ∧ (s.slot i).num = nr := by
  have hfound := List.find?_some h
  simpa using hfound

theorem findSlot_none {dev nr : ℕ} (h : s.findSlot dev nr = none) (i : Fin n) :
    ¬((s.slot i).dev = dev ∧ (s.slot i).num = nr) := by
  have hnone := List.find?_eq_none.1 h i (List.mem_finRange i)
  simpa using hnone

/-! ## `read_inode` and `write_inode` -/

variable [Fintype τ]

/-- A change of the flags, and of what is on the disk. -/
theorem Inv.setFlags (h : s.Inv) (i : Fin n) (dirt lock : Bool) :
    (s.setSlot i { s.slot i with dirt, lock }).Inv :=
  h.setSlot rfl rfl rfl fun _ => rfl

/-- A task that is in one of the functions has a count. -/
theorem Inv.count_pos (h : s.Inv) {i : Fin n} (hmem : i ∈ (s.task t).pc.refs) :
    0 < (s.slot i).count :=
  (InodeTask.refCount_pos_of_pc hmem).trans_le (h.refCount_le t i)

theorem Inv.inodeWritten (h : s.Inv) (dev block : ℕ) (i : Fin n) :
    (s.inodeWritten dev block i).Inv := by
  have hflags := h.setFlags i false false
  exact ⟨hflags.counts, hflags.unique, hflags.used, hflags.freed⟩

theorem Inv.setEntries (h : s.Inv) (dir : Fin n) (l : List DirEntry) : (s.setEntries dir l).Inv :=
  ⟨h.counts, h.unique, h.used, h.freed⟩

/-- The number of links is changed by a task that has a reference. -/
theorem Inv.setLinks (h : s.Inv) {i : Fin n} (hmem : i ∈ (s.task t).pc.refs)
    (hpc : (s.task t).pc.freed = none) (nlinks : UInt8) (mode : UInt16) (dirt lock : Bool) :
    (s.setSlot i { s.slot i with nlinks, mode, dirt, lock }).Inv :=
  h.setSlot rfl rfl rfl fun hfreed =>
    absurd hfreed (h.not_freed (InodeTask.refCount_pos_of_pc hmem) hpc)

variable [DecidableEq τ]

theorem Inv.readInode (h : s.Inv) {i : Fin n} {k : IgetCont n}
    (hrefs : (s.task t).pc.refs = i :: k.refs) : OrPanic Inv (s.readInode t i k) := by
  unfold InodeTable.readInode
  split
  next => exact h.setPc (.of_eq hrefs.symm) rfl
  next =>
    split
    next => exact show _ ∉ _ by decide
    next => exact (h.setFlags i (s.slot i).dirt true).setPc (.of_eq hrefs.symm) rfl

theorem Inv.writeInode (h : s.Inv) {i : Fin n} {lock written : InodePc n}
    {write : ℕ → ℕ → InodePc n} (hlock : lock.refs = (s.task t).pc.refs ∧ lock.freed = none)
    (hwrite : ∀ dev block, (write dev block).refs = (s.task t).pc.refs ∧
      (write dev block).freed = none)
    (hwritten : written.refs = (s.task t).pc.refs ∧ written.freed = none) :
    OrPanic Inv (s.writeInode t i lock write written) := by
  unfold InodeTable.writeInode
  dsimp only
  split
  next => exact h.setPc (.of_eq hlock.1) hlock.2
  next =>
    split
    next => exact h.setPc (.of_eq hwritten.1) hwritten.2
    next =>
      split
      next => exact show _ ∉ _ by decide
      next =>
        obtain ⟨hrefs, hfreed⟩ := hwrite (s.slot i).dev (((s.slot i).num - 1) / INODES_PER_BLOCK)
        exact (h.setFlags i (s.slot i).dirt true).setPc (.of_eq hrefs) hfreed

/-! ## `iput` -/

theorem Inv.putCount (h : s.Inv) {i : Fin n} {k : PutCont n}
    (hrefs : (s.task t).pc.refs = i :: k.refs) : (s.putCount t i k).Inv := by
  have hpos := h.count_pos (hrefs ▸ List.mem_cons_self)
  exact h.drop hrefs rfl (.inl ⟨rfl, rfl⟩) (show (s.slot i).count - 1 + 1 = _ by omega)

/-- With the only reference to an inode without links, `free_inode` does not panic. -/
theorem Inv.freeInode (h : s.Inv) {i : Fin n} {k : PutCont n}
    (hrefs : (s.task t).pc.refs = i :: k.refs) (hcount : (s.slot i).count = 1)
    (hlinks : (s.slot i).nlinks = 0) : OrPanic Inv (s.freeInode t i k) := by
  have hzero : ((s.setSlot i .zero).setPc t (.put k)).Inv := h.drop hrefs rfl (.inr rfl) hcount.symm
  unfold InodeTable.freeInode
  dsimp only
  split
  next => exact hzero
  next hdev =>
    obtain ⟨sb, hsuper, hpos, hle, -⟩ := h.used i hdev
    rw [if_neg (by omega), if_neg (not_not.2 hlinks), hsuper]
    dsimp only
    rw [if_neg (by omega)]
    -- no other slot has the number whose bit is cleared
    refine hzero.setUsed _ _ (.inr fun j hj hkey => ?_)
    change ((s.setSlot i .zero).slot j).dev ≠ 0 at hj
    change ((s.setSlot i .zero).slot j).dev = _ ∧ ((s.setSlot i .zero).slot j).num = _ at hkey
    by_cases heq : j = i
    · subst heq
      rw [setSlot_self] at hj
      exact hj rfl
    · rw [setSlot_of_ne s _ heq] at hkey
      exact heq (h.unique i j hdev hkey.1 hkey.2).symm

theorem Inv.putRepeat (h : s.Inv) {i : Fin n} {k : PutCont n}
    (hrefs : (s.task t).pc.refs = i :: k.refs) : OrPanic Inv (s.putRepeat t i k) := by
  have hpos := h.count_pos (hrefs ▸ List.mem_cons_self)
  unfold InodeTable.putRepeat
  dsimp only
  split
  next => exact h.putCount hrefs
  next hcount =>
    have hone : (s.slot i).count = 1 := by omega
    split
    next hlinks =>
      split
      next =>
        refine h.setTask (fun j => ?_) fun j hj => ?_
        · have hset := InodeTask.refCount_setPc (s.task t) (.truncating i k) j
          rw [hrefs] at hset
          exact Nat.add_right_cancel hset
        · obtain rfl := Option.some.inj hj
          exact ⟨hone, hlinks⟩
      next => exact h.freeInode hrefs hone hlinks
    next =>
      split
      next => exact h.writeInode ⟨hrefs.symm, rfl⟩ (fun _ _ => ⟨hrefs.symm, rfl⟩) ⟨hrefs.symm, rfl⟩
      next => exact h.putCount hrefs

theorem Inv.iput (h : s.Inv) {i : Fin n} {k : PutCont n}
    (hrefs : (s.task t).pc.refs = i :: k.refs) : OrPanic Inv (s.iput t i k) := by
  unfold InodeTable.iput
  split
  next => exact h
  next =>
    split
    next => exact show _ ∉ _ by decide
    next =>
      split
      next => exact h.putCount hrefs
      next =>
        split
        next => exact h.setPc (.of_eq hrefs.symm) rfl
        next => exact h.putRepeat hrefs

theorem Inv.syncInodes (h : s.Inv) {todo : List (Fin n)} {k : SyncCont n}
    (hrefs : (s.task t).pc.refs = k.refs) : OrPanic Inv (s.syncInodes t k todo) := by
  cases todo with
  | nil =>
      cases k with
      | none => exact h.setPc (.of_eq hrefs.symm) rfl
      | some k => exact h.setPc (.of_eq hrefs.symm) rfl
  | cons i todo =>
      rw [InodeTable.syncInodes]
      split
      next => exact h
      next =>
        split
        next => exact h.writeInode ⟨hrefs.symm, rfl⟩ (fun _ _ => ⟨hrefs.symm, rfl⟩) ⟨hrefs.symm, rfl⟩
        next => exact h.setPc (.of_eq hrefs.symm) rfl

/-! ## `get_empty_inode` and `new_inode` -/

theorem Inv.getEmptyInode (h : s.Inv) {k : EmptyCont n} (hrefs : (s.task t).pc.refs = k.refs) :
    OrPanic Inv (s.getEmptyInode t k) := by
  unfold InodeTable.getEmptyInode
  split
  next => exact show _ ∉ _ by decide
  next i last _ =>
    have hset : (s.setPc t (.emptyWait i k)).Inv := h.setPc (.of_eq hrefs.symm) rfl
    exact ⟨hset.counts, hset.unique, hset.used, hset.freed⟩

/-- `new_inode` with the slot `i`, which has the one reference of the task. -/
theorem Inv.newInode {i dir : Fin n} {name : List UInt8} {flags : OpenFlags}
    (hcount : (s.slot i).count = 1)
    (h : ∀ pc : InodePc n, pc.refs.Perm [i, dir] → pc.freed = none → (s.setPc t pc).Inv) :
    OrPanic Inv (s.newInode t i dir name flags) := by
  unfold InodeTable.newInode
  dsimp only
  split
  next => exact show _ ∉ _ by decide
  next sb hsuper =>
    split
    next => exact h _ (.refl _) rfl
    next nr hnumber =>
      obtain ⟨hpos, hle, hfree⟩ := freeNumber_eq_some hnumber
      have hadding := h (.adding dir 0 name flags i) (.swap i dir []) rfl
      have hused := hadding.setUsed (s.slot dir).dev nr (.inl rfl)
      have hrefs : 0 < ((s.setPc t (.adding dir 0 name flags i)).task t).refCount i := by
        refine InodeTask.refCount_pos_of_pc ?_
        rw [InodeTable.setPc, setTask_self]
        exact List.mem_cons_of_mem _ List.mem_cons_self
      refine hused.fill (x := ⟨_, nr, 1, 1, _, true, false, false⟩) hcount.symm
        (fun j hdev hkey => ?_) ⟨sb, hsuper, hpos, hle, ?_⟩ (hadding.not_freed hrefs ?_)
      -- a slot with the number would make it used
      · change (s.slot j).dev = _ ∧ (s.slot j).num = _ at hkey
        obtain ⟨_, -, -, -, hbit⟩ := hadding.used j (hkey.1 ▸ hdev)
        change s.used (s.slot j).dev (s.slot j).num = true at hbit
        rw [hkey.1, hkey.2] at hbit
        exact absurd (hbit.symm.trans hfree) (by decide)
      · rw [setUsed_used, if_pos ⟨rfl, rfl⟩]
      · rw [InodeTable.setPc, setTask_self]
        rfl

theorem Inv.emptyWait (h : s.Inv) {i : Fin n} {k : EmptyCont n}
    (hrefs : (s.task t).pc.refs = k.refs) : OrPanic Inv (s.emptyWait t i k) := by
  unfold InodeTable.emptyWait
  split
  next => exact h
  next =>
    split
    next => exact h.writeInode ⟨hrefs.symm, rfl⟩ (fun _ _ => ⟨hrefs.symm, rfl⟩) ⟨hrefs.symm, rfl⟩
    next =>
      split
      next => exact h.setPc (.of_eq hrefs.symm) rfl
      next hcount =>
        have hclear : ∀ pc : InodePc n, pc.refs.Perm (i :: k.refs) → pc.freed = none →
            ((s.setSlot i .fresh).setPc t pc).Inv := fun pc hpc hnone =>
          h.clear (by omega) (hrefs ▸ hpc) hnone
        cases k with
        | iget dev nr k => exact hclear _ (.refl _) rfl
        | create dir name flags =>
            refine Inv.newInode ?_ hclear
            rw [setSlot_self]
            rfl

/-! ## `iget` -/

theorem Inv.iget (h : s.Inv) {dev nr : ℕ} {k : IgetCont n} (hrefs : (s.task t).pc.refs = k.refs) :
    OrPanic Inv (s.iget t dev nr k) := by
  unfold InodeTable.iget
  split
  next => exact show _ ∉ _ by decide
  next => exact h.setPc (.of_eq hrefs.symm) rfl

theorem Inv.found (h : s.Inv) {empty i : Fin n} {k : IgetCont n}
    (hrefs : (s.task t).pc.refs = empty :: k.refs) (hfreed : ¬s.Freed i) :
    (s.found t empty i k).Inv := by
  have hput : (empty :: i :: k.refs).Perm (i :: (s.task t).pc.refs) := by
    rw [hrefs]
    exact List.Perm.swap i empty k.refs
  unfold InodeTable.found
  dsimp only
  split
  next =>
    split
    next => exact h.take hfreed hput rfl
    next => exact h.take hfreed (.of_eq (congrArg (i :: ·) hrefs.symm)) rfl
  next => exact h.take hfreed hput rfl

/-- The number is in use, and its inode is not about to be freed. -/
def Live (s : InodeTable τ n) (dev nr : ℕ) : Prop :=
  s.InUse dev nr ∧ ∀ i, (s.slot i).dev = dev → (s.slot i).num = nr → ¬s.Freed i

theorem Inv.search (h : s.Inv) {dev nr : ℕ} {empty : Fin n} {k : IgetCont n}
    (hrefs : (s.task t).pc.refs = empty :: k.refs) (hpc : (s.task t).pc.freed = none)
    (hlive : ∀ i, s.findSlot dev nr = some i → (s.slot i).lock = false → s.Live dev nr)
    (huse : s.findSlot dev nr = none → s.Live dev nr) :
    OrPanic Inv (s.search t dev nr empty k) := by
  unfold InodeTable.search
  split
  next i hfind =>
    split
    next => exact h.setPc (.of_eq hrefs.symm) rfl
    next hlock =>
      have hkey := findSlot_some hfind
      exact h.found hrefs ((hlive i hfind (by simpa using hlock)).2 i hkey.1 hkey.2)
  next hfind =>
    -- no slot has the number, and the inode that is read is in use
    have hempty : 0 < (s.task t).refCount empty :=
      InodeTask.refCount_pos_of_pc (hrefs ▸ List.mem_cons_self)
    have hfill : (s.setSlot empty { s.slot empty with dev := dev, num := nr }).Inv :=
      h.fill rfl (fun j _ => findSlot_none hfind j) (huse hfind).1 (h.not_freed hempty hpc)
    exact hfill.readInode hrefs

/-! ## Names -/

theorem Inv.findEntry (h : s.Inv) {call : NameCall} {dir : Fin n} {name : List UInt8}
    {path : List (List UInt8)} (hrefs : (s.task t).pc.refs = [dir]) :
    (s.findEntry t call dir name path).Inv := by
  have hmove : ∀ pc : InodePc n, pc.refs = [dir] → pc.freed = none → (s.setPc t pc).Inv :=
    fun pc hpc hnone => h.setPc (.of_eq (hpc.trans hrefs.symm)) hnone
  unfold InodeTable.findEntry
  dsimp only
  split
  next => exact hmove _ rfl rfl
  next =>
    split
    next =>
      split
      next => exact hmove _ rfl rfl
      next =>
        split
        next =>
          split
          next => exact hmove _ rfl rfl
          next => exact hmove _ rfl rfl
        next => exact hmove _ rfl rfl
    next => exact hmove _ rfl rfl

theorem Inv.getDir (h : s.Inv) {may : Access → Bool} {call : NameCall} {dir : Fin n}
    {name : List UInt8} {path : List (List UInt8)} (hrefs : (s.task t).pc.refs = [dir]) :
    (s.getDir t may call dir name path).Inv := by
  have hput : (s.setPc t (.putWait dir .done)).Inv := h.setPc (.of_eq hrefs.symm) rfl
  unfold InodeTable.getDir
  split
  next => exact hput
  next =>
    split
    next => exact h.findEntry hrefs
    next =>
      split
      next =>
        cases call with
        | namei => exact h.give hrefs
        | openNamei flags =>
            dsimp only
            split
            next => exact hput
            next => exact h.give hrefs
        | unlink => exact hput
      next =>
        split
        next => exact hput
        next => exact h.findEntry hrefs

theorem Inv.entryFound (h : s.Inv) {dir : Fin n} {k nr : ℕ} {call : NameCall}
    {path : List (List UInt8)} (hrefs : (s.task t).pc.refs = [dir]) :
    OrPanic Inv (s.entryFound t dir k nr call path) := by
  have hput : ∀ k : PutCont n, k.refs = [] → (s.setPc t (.putWait dir k)).Inv := by
    intro k hk
    refine h.setPc (.of_eq ?_) rfl
    rw [hrefs, InodePc.refs, hk]
  cases path with
  | cons name path => exact hput _ rfl
  | nil =>
      cases call with
      | namei => exact hput _ rfl
      | openNamei flags =>
          rw [InodeTable.entryFound]
          split
          next => exact hput _ rfl
          next => exact hput _ rfl
      | unlink => exact h.iget hrefs

theorem Inv.entryMissing (h : s.Inv) {may : Access → Bool} {dir : Fin n} {name : List UInt8}
    {call : NameCall} {path : List (List UInt8)} (hrefs : (s.task t).pc.refs = [dir]) :
    (s.entryMissing t may dir name call path).Inv := by
  have hput : (s.setPc t (.putWait dir .done)).Inv := h.setPc (.of_eq hrefs.symm) rfl
  unfold InodeTable.entryMissing
  split
  next =>
    split
    next => exact h.setPc (.of_eq hrefs.symm) rfl
    next => exact hput
  next => exact hput

theorem Inv.findBlock (h : s.Inv) {may : Access → Bool} {call : NameCall} {dir : Fin n}
    {entries block : ℕ} {name : List UInt8} {path : List (List UInt8)}
    (hrefs : (s.task t).pc.refs = [dir]) :
    OrPanic Inv (s.findBlock t may call dir entries block name path) := by
  unfold InodeTable.findBlock
  split
  next => exact h.entryFound hrefs
  next =>
    split
    next => exact h.setPc (.of_eq hrefs.symm) rfl
    next => exact h.entryMissing hrefs

theorem Inv.findFailed (h : s.Inv) {may : Access → Bool} {call : NameCall} {dir : Fin n}
    {entries block : ℕ} {name : List UInt8} {path : List (List UInt8)}
    (hrefs : (s.task t).pc.refs = [dir]) :
    (s.findFailed t may call dir entries block name path).Inv := by
  unfold InodeTable.findFailed
  split
  next => exact h.setPc (.of_eq hrefs.symm) rfl
  next => exact h.entryMissing hrefs

theorem Inv.addBlock (h : s.Inv) {dir : Fin n} {block : ℕ} {name : List UInt8}
    {flags : OpenFlags} {i : Fin n} (hrefs : (s.task t).pc.refs = [dir, i])
    (hpc : (s.task t).pc.freed = none) : (s.addBlock t dir block name flags i).Inv := by
  unfold InodeTable.addBlock
  split
  next =>
    have hmem : i ∈ (s.task t).pc.refs := hrefs ▸ List.mem_cons_of_mem _ List.mem_cons_self
    have hlinks := h.setLinks hmem hpc ((s.slot i).nlinks - 1) (s.slot i).mode (s.slot i).dirt
      (s.slot i).lock
    refine hlinks.setPc ?_ rfl
    change List.Perm [i, dir] (s.task t).pc.refs
    rw [hrefs]
    exact .swap dir i []
  next =>
    split
    next => exact h.setPc (.of_eq hrefs.symm) rfl
    next k _ =>
      have hentries := h.setEntries dir
        (setEntry (s.dirEntries dir) k ⟨(s.slot i).num, padName name⟩)
      have hdirt := hentries.setFlags dir
        ((s.slot dir).dirt || (s.dirEntries dir).length ≤ k) (s.slot dir).lock
      exact hdirt.setPc (.of_eq hrefs.symm) rfl

theorem Inv.unlinkInode (h : s.Inv) {may : Access → Bool} {i dir : Fin n} {k : ℕ}
    (hrefs : (s.task t).pc.refs = [i, dir]) (hpc : (s.task t).pc.freed = none) :
    (s.unlinkInode t may i dir k).Inv := by
  unfold InodeTable.unlinkInode
  dsimp only
  split
  next =>
    refine h.setPc ?_ rfl
    rw [hrefs]
    exact .swap i dir []
  next =>
    split
    next => exact h.setPc (.of_eq hrefs.symm) rfl
    next =>
      have hentries := h.setEntries dir
        ((s.dirEntries dir).modify k fun de => { de with inode := 0 })
      have hmem : i ∈ (s.task t).pc.refs := hrefs ▸ List.mem_cons_self
      have hlinks := hentries.setLinks hmem hpc
        ((if (s.slot i).nlinks = 0 then 1 else (s.slot i).nlinks) - 1) (s.slot i).mode true
        (s.slot i).lock
      exact hlinks.setPc (.of_eq hrefs.symm) rfl

theorem Inv.afterIget (h : s.Inv) {may : Access → Bool} {i : Fin n} {k : IgetCont n}
    (hrefs : (s.task t).pc.refs = i :: k.refs) (hpc : (s.task t).pc.freed = none) :
    (s.afterIget t may i k).Inv := by
  cases k with
  | getDir call name path => exact h.getDir hrefs
  | namei => exact (h.setFlags i true (s.slot i).lock).give hrefs
  | openNamei flags =>
      rw [InodeTable.afterIget]
      split
      next => exact h.setPc (.of_eq hrefs.symm) rfl
      next =>
        split
        next => exact h.setPc (.of_eq hrefs.symm) rfl
        next => exact h.give hrefs
  | unlink dir k => exact h.unlinkInode hrefs hpc

theorem Inv.afterPut (h : s.Inv) {k : PutCont n} (hrefs : (s.task t).pc.refs = k.refs) :
    OrPanic Inv (s.afterPut t k) := by
  cases k with
  | done => exact h.setPc (.of_eq hrefs.symm) rfl
  | give i => exact h.give hrefs
  | iput i => exact h.setPc (.of_eq hrefs.symm) rfl
  | iget dev nr k => exact h.iget hrefs
  | got i k => exact h.setPc (.of_eq hrefs.symm) rfl
  | search dev nr empty k => exact h.setPc (.of_eq hrefs.symm) rfl
  | find dev entries call path =>
      rw [InodeTable.afterPut]
      split
      next => exact show _ ∉ _ by decide
      next dir hmount =>
        exact h.take (h.not_freed_of_mountedOn hmount) (.of_eq (congrArg (dir :: ·) hrefs.symm)) rfl

/-! ## Actions -/

/-- The number for which `iget` takes a slot, when it goes on. -/
def takes (s : InodeTable τ n) : InodeAction τ n → Option (ℕ × ℕ)
  | .run t _ =>
      match (s.task t).pc with
      | .search dev nr _ _ =>
          if (s.findSlot dev nr).any fun i => (s.slot i).lock then none else some (dev, nr)
      | .igetWait dev nr _ i _ =>
          if (s.slot i).lock = false ∧ (s.slot i).dev = dev ∧ (s.slot i).num = nr then some (dev, nr)
          else none
      | _ => none
  | _ => none

/-- `iget` takes no number that has gone out of use, or that is about to. -/
def TakesLive (s : InodeTable τ n) (a : InodeAction τ n) : Prop :=
  ∀ k ∈ s.takes a, s.Live k.1 k.2

theorem Inv.igetWait (h : s.Inv) {dev nr : ℕ} {empty i : Fin n} {k : IgetCont n}
    {may : Access → Bool} (hpc : (s.task t).pc = .igetWait dev nr empty i k)
    (hlive : s.TakesLive (.run t may)) : (s.igetWait t dev nr empty i k).Inv := by
  have hrefs : (s.task t).pc.refs = empty :: k.refs := congrArg InodePc.refs hpc
  unfold InodeTable.igetWait
  split
  next => exact h
  next hlock =>
    split
    next hkey =>
      have htakes : (dev, nr) ∈ s.takes (.run t may) := by
        rw [takes, hpc]
        exact if_pos ⟨by simpa using hlock, hkey⟩
      exact h.found hrefs ((hlive _ htakes).2 i hkey.1 hkey.2)
    next => exact h.setPc (.of_eq hrefs.symm) rfl

theorem Inv.searchSlot (h : s.Inv) {dev nr : ℕ} {empty : Fin n} {k : IgetCont n}
    {may : Access → Bool} (hpc : (s.task t).pc = .search dev nr empty k)
    (hlive : s.TakesLive (.run t may)) : OrPanic Inv (s.search t dev nr empty k) := by
  have htakes : (s.findSlot dev nr).any (fun i => (s.slot i).lock) = false → s.Live dev nr := by
    intro hany
    refine hlive (dev, nr) ?_
    rw [takes, hpc]
    exact if_neg (by simp [hany])
  refine h.search (congrArg InodePc.refs hpc) (congrArg InodePc.freed hpc)
    (fun i hfind hlock => htakes ?_) fun hfind => htakes ?_
  · rw [hfind]
    exact hlock
  · rw [hfind]
    rfl

/-- A task that is in one of the functions keeps the invariant. -/
theorem Inv.resume (h : s.Inv) {may : Access → Bool} (hlive : s.TakesLive (.run t may)) :
    OrPanic Inv (s.resume t may) := by
  obtain ⟨pc, hpc⟩ : ∃ pc, (s.task t).pc = pc := ⟨_, rfl⟩
  have hrefs : (s.task t).pc.refs = pc.refs := by rw [hpc]
  have hfreed : (s.task t).pc.freed = pc.freed := by rw [hpc]
  unfold InodeTable.resume
  rw [hpc]
  cases pc with
  | idle => exact h
  | finding call dir entries block name path => exact h.findBlock hrefs
  | putWait i k => exact h.iput hrefs
  | putLock i k =>
      exact h.writeInode ⟨hrefs.symm, rfl⟩ (fun _ _ => ⟨hrefs.symm, rfl⟩) ⟨hrefs.symm, rfl⟩
  | putWrite dev block i k => exact (h.inodeWritten dev block i).setPc (.of_eq hrefs.symm) rfl
  | putWritten i k =>
      dsimp only
      split
      next => exact h
      next => exact h.putRepeat hrefs
  | truncating i k =>
      obtain ⟨hcount, hlinks⟩ := h.freed i ⟨t, hfreed⟩
      exact h.freeInode hrefs hcount hlinks
  | put k => exact h.afterPut hrefs
  | sync todo k => exact h.syncInodes hrefs
  | syncLock i todo k =>
      exact h.writeInode ⟨hrefs.symm, rfl⟩ (fun _ _ => ⟨hrefs.symm, rfl⟩) ⟨hrefs.symm, rfl⟩
  | syncWrite dev block i todo k => exact (h.inodeWritten dev block i).setPc (.of_eq hrefs.symm) rfl
  | empty k => exact h.getEmptyInode hrefs
  | emptyWait i k => exact h.emptyWait hrefs
  | emptyLock i k =>
      exact h.writeInode ⟨hrefs.symm, rfl⟩ (fun _ _ => ⟨hrefs.symm, rfl⟩) ⟨hrefs.symm, rfl⟩
  | emptyWrite dev block i k => exact (h.inodeWritten dev block i).setPc (.of_eq hrefs.symm) rfl
  | search dev nr empty k => exact h.searchSlot hpc hlive
  | igetWait dev nr empty i k => exact h.igetWait hpc hlive
  | readLock i k => exact h.readInode hrefs
  | reading i k =>
      have hmem : i ∈ (s.task t).pc.refs := hrefs ▸ List.mem_cons_self
      have hread := h.setLinks hmem hfreed (s.disk (s.slot i).dev (s.slot i).num).nlinks
        (s.disk (s.slot i).dev (s.slot i).num).mode (s.slot i).dirt false
      exact hread.setPc (.of_eq hrefs.symm) rfl
  | got i k => exact h.afterIget hrefs hfreed
  | adding dir block name flags i => exact h.addBlock hrefs hfreed
  | emptying i => exact (h.setFlags i true (s.slot i).lock).give hrefs

theorem Inv.startDir (h : s.Inv) {call : NameCall} {absolute : Bool} {name : List UInt8}
    {path : List (List UInt8)} (hidle : (s.task t).pc = .idle) :
    OrPanic Inv (s.startDir t call absolute name path) := by
  have hstart : ∀ dir, 0 < (s.task t).refCount dir →
      ((s.setCount dir ((s.slot dir).count + 1)).setPc t
        (.got dir (.getDir call name path))).Inv := by
    intro dir hpos
    refine h.take (h.not_freed hpos (congrArg InodePc.freed hidle)) ?_ rfl
    rw [hidle]
    exact .refl _
  unfold InodeTable.startDir
  dsimp only
  split
  next => exact show _ ∉ _ by decide
  next =>
    split
    next => exact show _ ∉ _ by decide
    next =>
      cases absolute with
      | true => exact hstart _ (InodeTask.refCount_root_pos _)
      | false => exact hstart _ (InodeTask.refCount_pwd_pos _)

theorem Inv.exec (h : s.Inv) {a : InodeAction τ n} (hlive : s.TakesLive a) :
    OrPanic Inv (s.exec a) := by
  cases a with
  | call t call absolute name path =>
      rw [InodeTable.exec]
      split
      next hidle => exact h.startDir hidle
      next => exact h
  | iput t i =>
      rw [InodeTable.exec]
      split
      next hcond =>
        -- the reference that the task gives up is that of the call
        refine h.setTask (fun j => ?_) fun j hj => by cases hj
        have hheld := (List.perm_cons_erase hcond.2).count_eq j
        rw [InodeTask.refCount_eq, InodeTask.refCount_eq (s.task t), hcond.1, hheld]
        simp only [InodePc.refs, PutCont.refs, List.count_cons, List.count_nil]
        omega
      next => exact h
  | sync t =>
      rw [InodeTable.exec]
      split
      next hidle => exact h.setPc (.of_eq (congrArg InodePc.refs hidle).symm) rfl
      next => exact h
  | run t may => exact h.resume hlive
  | fail t may =>
      rw [InodeTable.exec]
      split
      next hpc => exact h.findFailed (congrArg InodePc.refs hpc)
      next => exact h

/-! ## Runs -/

/-- The action takes no stale number in the state in which it is executed. -/
def TakesLiveStep (r : Except String (InodeTable τ n)) (a : InodeAction τ n) : Prop :=
  ∀ s ∈ r.toOption, s.TakesLive a

/-- In every run in which `iget` takes no number that has gone out of use or is about to,
an inode has one slot, and `free_inode` does not panic. -/
theorem inode_table_unique {s : InodeTable τ n} (h : s.Inv) {as : List (InodeAction τ n)}
    (hlive : EachStep next TakesLiveStep (.ok s) as) :
    Always next (OrPanic Unique) (.ok s) as := by
  refine hlive.always (I := OrPanic Inv) (fun r hr => ?_) (fun r a hr ha => ?_) h
  · cases r with
    | error e => exact hr
    | ok s => exact Inv.unique hr
  · cases r with
    | error e => exact hr
    | ok s => exact Inv.exec hr (ha s rfl)

instance (s : InodeTable τ n) (dev nr : ℕ) : Decidable (s.InUse dev nr) :=
  inferInstanceAs (Decidable (∃ sb ∈ s.getSuper dev, _ ∧ _ ∧ _))

instance (s : InodeTable τ n) (i : Fin n) : Decidable (s.Freed i) :=
  inferInstanceAs (Decidable (∃ t, (s.task t).pc.freed = some i))

instance (s : InodeTable τ n) (dev nr : ℕ) : Decidable (s.Live dev nr) :=
  inferInstanceAs (Decidable (_ ∧ ∀ _, _ → _ → _))

instance (s : InodeTable τ n) (a : InodeAction τ n) : Decidable (s.TakesLive a) :=
  Option.decidableForallMem (s.takes a)

instance (r : Except String (InodeTable τ n)) (a : InodeAction τ n) :
    Decidable (TakesLiveStep r a) :=
  Option.decidableForallMem r.toOption

/-! ## Two tasks -/

/-- Two tasks in the root directory of a device.  It has a file with the name `a`, and a
directory `m` on which `sys_mount` has mounted another device. -/
def twoTasks : InodeTable Bool NR_INODE where
  slot i :=
    if i.val = 0 then ⟨1, ROOT_INO, 6, 2, S_IFDIR, false, false, false⟩
    else if i.val = 1 then ⟨1, 3, 1, 2, S_IFDIR, true, false, true⟩
    else .zero
  last := ⟨0, by decide⟩
  supers := [⟨1, 100, some ⟨0, by decide⟩, some ⟨0, by decide⟩⟩, ⟨2, 50, none, some ⟨1, by decide⟩⟩]
  used dev nr := dev = 1 && nr ≤ 3 || dev = 2 && nr ≤ 1
  disk dev nr := if dev = 2 ∨ nr = 3 then ⟨2, S_IFDIR⟩ else ⟨1, S_IFREG⟩
  entries dev nr :=
    if nr ≠ ROOT_INO then []
    else if dev = 1 then
      [⟨ROOT_INO, padName dot⟩, ⟨ROOT_INO, padName dotDot⟩, ⟨2, padName [97]⟩, ⟨3, padName [109]⟩]
    else [⟨ROOT_INO, padName dot⟩, ⟨ROOT_INO, padName dotDot⟩]
  task _ := ⟨⟨0, by decide⟩, ⟨0, by decide⟩, [], .idle⟩

theorem inv_twoTasks : twoTasks.Inv where
  counts := by decide +kernel
  unique := by
    unfold Unique
    decide +kernel
  used := by decide +kernel
  freed := by
    rintro i ⟨t, ht⟩
    cases ht

/-- A task goes on `k` times. -/
def goOn (t : Bool) (k : ℕ) : List (InodeAction Bool NR_INODE) :=
  List.replicate k (.run t fun _ => true)

/-- Two tasks look for the file, and then one of them for the directory, where it gets to
the root of the other device; the other one cannot read its block. -/
theorem inode_table_unique_two_namei :
    Always next (OrPanic Unique) (.ok twoTasks)
      (.call false .namei true [97] [] :: goOn false 7 ++ .call true .namei true [97] [] ::
        goOn true 7 ++ goOn false 2 ++ goOn true 4 ++ .call false .namei true [109] [] ::
        goOn false 12 ++ [.call true .namei true [97] [], .run true fun _ => true,
          .fail true fun _ => true]) := by
  refine inode_table_unique inv_twoTasks ?_
  decide +kernel

/-- A task finds the inode while another one reads it to remove it, and is woken up when
that one is in `truncate`. -/
theorem free_inode_panics :
    ¬Always next (OrPanic Unique) (.ok twoTasks)
      (.call false .unlink true [97] [] :: goOn false 5 ++ .call true .namei true [97] [] ::
        goOn true 7 ++ goOn false 3 ++ goOn true 4 ++ goOn false 1) := by
  intro h
  have hlast := h.last
  have hpanic : (match List.foldl next (.ok twoTasks)
      (.call false .unlink true [97] [] :: goOn false 5 ++ .call true .namei true [97] [] ::
        goOn true 7 ++ goOn false 3 ++ goOn true 4 ++ goOn false 1) with
      | .error e => e
      | .ok _ => "") = "free_inode" := by
    decide +kernel
  split at hpanic
  next e hrun =>
    rw [hrun] at hlast
    exact hlast (hpanic ▸ by decide)
  next => exact absurd hpanic (by decide)

end InodeTable

end MyJavaExample.Fs
