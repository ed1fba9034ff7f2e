import MyJavaExample.Mm.Sys
import MyJavaExample.Mm.Tables

/-!
# Page counts over whole runs

In every state the memory is consistent, with the structures of the tasks among
the pages the kernel holds, and every table belongs to a task that has not
exited and lies inside its data segment.  No action panics.
-/

namespace MyJavaExample.Mm

open Lib

/-! ## Addresses of a task -/

/-- The place of the entry for the address `x` of the segment of a task. -/
def place (nr x : ℕ) : Fin 1024 × Fin 1024 :=
  (⟨(16 * nr + x / 2 ^ 22) % 1024, Nat.mod_lt _ (by omega)⟩,
    ⟨x / 2 ^ 12 % 1024, Nat.mod_lt _ (by omega)⟩)

section Addresses

variable {nr x : ℕ}

theorem place_dir (hnr : nr < 64) (hx : x < 2 ^ 26) : (place nr x).1.val = 16 * nr + x / 2 ^ 22 := by
  simp only [place]
  omega

theorem dirIndex_eq (hnr : nr < 64) (hx : x < 2 ^ 26) :
    dirIndex (nr * 2 ^ 26 + x) = (place nr x).1.val := by
  rw [place_dir hnr hx, dirIndex]
  omega

theorem tableIndex_eq (nr x : ℕ) : tableIndex (nr * 2 ^ 26 + x) = (place nr x).2.val := by
  simp only [place, tableIndex]
  omega

theorem four_le_place (hpos : 1 ≤ nr) (hnr : nr < 64) (hx : x < 2 ^ 26) :
    4 ≤ (place nr x).1.val := by
  rw [place_dir hnr hx]
  omega

theorem dirIndex_base (hnr : nr < 64) : dirIndex (nr * 2 ^ 26) = 16 * nr := by
  rw [dirIndex]
  omega

theorem lookup_eq_entryAt {m : Memory} {address : ℕ} {d i : Fin 1024}
    (hd : dirIndex address = d.val) (hi : tableIndex address = i.val) (hd4 : 4 ≤ d.val) :
    m.lookup address = entryAt m (d, i) := by
  unfold Memory.lookup
  rw [hd, hi]
  by_cases hpresent : (m.pgDir d).present
  · rw [entryAt_of_dirRef (dirRef_eq_some.2 ⟨hd4, hpresent, rfl⟩), Entry.get?]
    simp only [hpresent, true_and]
  · have hnone : dirRef m d = none := by
      rw [dirRef, if_neg fun hno => hpresent hno.2]
    rw [entryAt_of_dirRef_none hnone]
    exact if_neg fun hno => hpresent hno.1

/-- The part of `dirCount` that matters: the segments are at most 64 MB long. -/
theorem dirCount_eq {size : ℕ} (h : size ≤ 2 ^ 26) : dirCount size = (size + 0x3fffff) / 2 ^ 22 := by
  rw [dirCount]
  omega

theorem lt_dirCount {size : ℕ} (h : size ≤ 2 ^ 26) (hx : x < size) : x / 2 ^ 22 < dirCount size := by
  rw [dirCount_eq h]
  omega

theorem dirCount_le {size : ℕ} (h : size ≤ 2 ^ 26) : dirCount size ≤ 16 := by
  rw [dirCount_eq h]
  omega

theorem dirCount_mono {size size' : ℕ} (h : size ≤ size') (h' : size' ≤ 2 ^ 26) :
    dirCount size ≤ dirCount size' := by
  rw [dirCount_eq (h.trans h'), dirCount_eq h']
  omega

end Addresses

/-! ## The invariant -/

structure TaskOk (nr : ℕ) (t : Task) : Prop where
  lt : nr < NR_TASKS
  startCode : t.startCode = nr * TASK_SIZE
  codeLimit : t.codeLimit ≤ t.dataLimit
  dataLimit : t.dataLimit ≤ TASK_SIZE
  first : nr = 0 → t.dataLimit = 0xA0000

/-- A table belongs to a task and lies inside its data segment. -/
def Sys.Owned (s : Sys) (d : Fin 1024) : Prop :=
  ∃ t, s.live (d.val / 16) = some t ∧ d.val % 16 < dirCount t.dataLimit

/-- The page of the structure of a task. -/
def Sys.IsTaskPage (s : Sys) (p : ℕ) : Prop := ∃ nr t, 1 ≤ nr ∧ s.task nr = some t ∧ t.page = p

/-- The kernel holds the structures of the tasks, the pages of its list and the
pages that were lost. -/
structure Sys.Holds (lost : List ℕ) (s : Sys) (held : List ℕ) : Prop where
  task : ∀ p, s.IsTaskPage p → p ∈ held
  kernel : ∀ p ∈ s.kernel, p ∈ held
  only : ∀ p ∈ held, s.IsTaskPage p ∨ p ∈ s.kernel ∨ p ∈ lost

structure Sys.Inv (bounds : Bounds) (lost : List ℕ) (s : Sys) : Prop where
  pages : ∃ held, Consistent bounds s.mem held ∧ s.Holds lost held
  distinct : ∀ nr nr' t t', 1 ≤ nr → 1 ≤ nr' → s.task nr = some t → s.task nr' = some t' →
    t.page = t'.page → nr = nr'
  kernel : s.kernel.Nodup ∧ ∀ p ∈ s.kernel, ¬s.IsTaskPage p
  tasks : ∀ nr t, s.task nr = some t → TaskOk nr t
  dirs : ∀ d t, dirRef s.mem d = some t → s.Owned d

section Memory

variable {bounds : Bounds} {lost : List ℕ} {s : Sys} {nr : ℕ} {current : Task}

theorem Sys.live_eq_some :
    s.live nr = some current ↔ s.task nr = some current ∧ 1 ≤ nr ∧ current.zombie = false := by
  rw [Sys.live, Option.bind_eq_some_iff]
  constructor
  · rintro ⟨t, ht, hif⟩
    split at hif
    next h =>
      cases hif
      exact ⟨ht, h.1, by simpa using h.2⟩
    next => cases hif
  · rintro ⟨ht, hpos, hz⟩
    exact ⟨current, ht, if_pos ⟨hpos, by simp [hz]⟩⟩

/-- A change of the memory alone. -/
theorem Sys.Inv.setMem (h : s.Inv bounds lost) {m : Memory} {held : List ℕ}
    (hc : Consistent bounds m held) (hheld : s.Holds lost held)
    (hdirs : ∀ d t, dirRef m d = some t → s.Owned d) : Sys.Inv bounds lost { s with mem := m } :=
  ⟨⟨held, hc, hheld.task, hheld.kernel, hheld.only⟩, h.distinct, h.kernel, h.tasks, hdirs⟩

theorem Sys.Inv.task_unique (h : s.Inv bounds lost) {nr' : ℕ} {t : Task} (hpos : 1 ≤ nr)
    (hpos' : 1 ≤ nr') (ht : s.task nr = some current) (ht' : s.task nr' = some t)
    (hpage : t.page = current.page) : nr' = nr :=
  h.distinct nr' nr t current hpos' hpos ht' ht hpage

/-- A change of the memory and of a task, which keeps its page. -/
theorem Sys.Inv.setTask (h : s.Inv bounds lost) (ht : s.task nr = some current) {m : Memory}
    {held : List ℕ} (hc : Consistent bounds m held) (hheld : s.Holds lost held) {t₁ : Task}
    (hpage : t₁.page = current.page) (hok : TaskOk nr t₁) {shm : Shm}
    (hdirs : ∀ d t, dirRef m d = some t →
      (Sys.mk m (Function.update s.task nr (some t₁)) s.kernel shm).Owned d) :
    Sys.Inv bounds lost
      { mem := m, task := Function.update s.task nr (some t₁), kernel := s.kernel, shm } := by
  have hold : ∀ nr' t, Function.update s.task nr (some t₁) nr' = some t →
      ∃ t₀, s.task nr' = some t₀ ∧ t.page = t₀.page ∧ (TaskOk nr' t₀ → TaskOk nr' t) := by
    intro nr' t hnr'
    by_cases heq : nr' = nr
    · subst heq
      rw [Function.update_self] at hnr'
      cases hnr'
      exact ⟨current, ht, hpage, fun _ => hok⟩
    · rw [Function.update_of_ne heq] at hnr'
      exact ⟨t, hnr', rfl, id⟩
  have htask : ∀ p, (Sys.mk m (Function.update s.task nr (some t₁)) s.kernel shm).IsTaskPage p ↔
      s.IsTaskPage p := by
    intro p
    constructor
    · rintro ⟨nr', t, hpos, ht', rfl⟩
      obtain ⟨t₀, ht₀, hpage, -⟩ := hold nr' t ht'
      exact ⟨nr', t₀, hpos, ht₀, hpage.symm⟩
    · rintro ⟨nr', t, hpos, ht', rfl⟩
      by_cases heq : nr' = nr
      · subst heq
        cases ht.symm.trans ht'
        exact ⟨nr', t₁, hpos, Function.update_self .., hpage⟩
      · exact ⟨nr', t, hpos, (Function.update_of_ne heq ..).trans ht', rfl⟩
  refine ⟨⟨held, hc, fun p hp => hheld.task p ((htask p).1 hp), hheld.kernel, fun p hp => ?_⟩,
    fun n n' t t' hn hn' ht ht' hp => ?_, ⟨h.kernel.1, fun p hp => ?_⟩,
    fun nr' t ht' => ?_, hdirs⟩
  · exact (hheld.only p hp).imp_left (htask p).2
  · obtain ⟨t₀, ht₀, hpage, -⟩ := hold n t ht
    obtain ⟨t₀', ht₀', hpage', -⟩ := hold n' t' ht'
    exact h.distinct n n' t₀ t₀' hn hn' ht₀ ht₀' (hpage ▸ hpage' ▸ hp)
  · exact fun hno => h.kernel.2 p hp ((htask p).1 hno)
  · obtain ⟨t₀, ht₀, -, hok'⟩ := hold nr' t ht'
    exact hok' (h.tasks nr' t₀ ht₀)

/-- The entry for an address of a task. -/
theorem Sys.Inv.lookup (h : s.Inv bounds lost) (hlive : s.live nr = some current) {x : ℕ}
    (hx : x < current.dataLimit) (m : Memory) :
    m.lookup (current.startCode + x) = entryAt m (place nr x) ∧
      dirIndex (current.startCode + x) = (place nr x).1.val ∧
      tableIndex (current.startCode + x) = (place nr x).2.val ∧
      4 ≤ (place nr x).1.val ∧ s.Owned (place nr x).1 := by
  obtain ⟨ht, hpos, -⟩ := Sys.live_eq_some.1 hlive
  have hok := h.tasks nr current ht
  have hnr : nr < 64 := hok.lt
  have hlimit : current.dataLimit ≤ 2 ^ 26 := hok.dataLimit
  have hd := dirIndex_eq hnr (hx.trans_le hlimit)
  have hi := tableIndex_eq nr x
  have hd4 := four_le_place hpos hnr (hx.trans_le hlimit)
  have hstart : current.startCode = nr * 2 ^ 26 := hok.startCode
  rw [hstart]
  refine ⟨lookup_eq_entryAt hd hi hd4, hd, hi, hd4, current, ?_, ?_⟩
  · rw [place_dir hnr (hx.trans_le hlimit), show (16 * nr + x / 2 ^ 22) / 16 = nr by omega]
    exact hlive
  · have hlt := lt_dirCount hlimit hx
    have hle := dirCount_le hlimit
    rw [place_dir hnr (hx.trans_le hlimit), show (16 * nr + x / 2 ^ 22) % 16 = x / 2 ^ 22 by omega]
    exact hlt

/-- Mapping a page at an address of a task. -/
theorem Sys.Inv.owned_of_ne (h : s.Inv bounds lost) {m : Memory} {d : Fin 1024} (hd : s.Owned d)
    (hne : ∀ y, y ≠ d → dirRef m y = dirRef s.mem y) :
    ∀ y t, dirRef m y = some t → s.Owned y := by
  intro y t hy
  by_cases hyd : y = d
  · exact hyd ▸ hd
  · rw [hne y hyd] at hy
    exact h.dirs y t hy

/-! ## `exit` and `execve` -/

theorem mul_taskSize_div (nr : ℕ) : nr * TASK_SIZE / 2 ^ 22 = 16 * nr := by
  unfold TASK_SIZE
  omega

theorem freePageTables_eq (hpos : 1 ≤ nr) (size : ℕ) (m : Memory) :
    freePageTables (nr * TASK_SIZE) size m = freeDirs (dirCount size) (16 * nr) m := by
  rw [freePageTables, if_neg (by unfold TASK_SIZE; omega), if_neg (by unfold TASK_SIZE; omega),
    mul_taskSize_div]

/-- `free_page_tables` on the segment of a task. -/
theorem freePageTables_spec {m : Memory} {held : List ℕ} (hc : Consistent bounds m held)
    (hpos : 1 ≤ nr) (hnr : nr < 64) {size : ℕ} (hsize : size ≤ 2 ^ 26) :
    ∃ m', freePageTables (nr * TASK_SIZE) size m = .ok m' ∧ Consistent bounds m' held ∧
      ∀ y : Fin 1024, dirRef m' y =
        if 16 * nr ≤ y.val ∧ y.val < 16 * nr + dirCount size then none else dirRef m y := by
  have hle := dirCount_le hsize
  obtain ⟨m', hfree, hc', hdir, -⟩ := @freeDirs_spec bounds held (dirCount size) m (16 * nr) hc
    (by omega) (by omega)
  exact ⟨m', (freePageTables_eq hpos size m).trans hfree, hc', hdir⟩

theorem freeSegments_spec {m : Memory} {held : List ℕ} (hc : Consistent bounds m held)
    (hpos : 1 ≤ nr) (hok : TaskOk nr current) :
    ∃ m', freeSegments current m = .ok m' ∧ Consistent bounds m' held ∧
      ∀ y : Fin 1024, dirRef m' y =
        if 16 * nr ≤ y.val ∧ y.val < 16 * nr + dirCount current.dataLimit then none
        else dirRef m y := by
  obtain ⟨m₁, hfree₁, hc₁, hdir₁⟩ := freePageTables_spec hc hpos hok.lt
    (hok.codeLimit.trans hok.dataLimit)
  obtain ⟨m₂, hfree₂, hc₂, hdir₂⟩ := freePageTables_spec hc₁ hpos hok.lt hok.dataLimit
  have hmono := dirCount_mono hok.codeLimit hok.dataLimit
  refine ⟨m₂, ?_, hc₂, fun y => ?_⟩
  · simp only [freeSegments, hok.startCode, hfree₁, hfree₂, bind, Except.bind]
  · rw [hdir₂ y]
    split
    next => rfl
    next hno => rw [hdir₁ y, if_neg (by omega)]

/-- The tables that are left when those of a task are freed belong to others. -/
theorem Sys.Inv.owned_freed (h : s.Inv bounds lost) (hlive : s.live nr = some current) {m : Memory}
    (hdir : ∀ y : Fin 1024, dirRef m y =
      if 16 * nr ≤ y.val ∧ y.val < 16 * nr + dirCount current.dataLimit then none
      else dirRef s.mem y) {y : Fin 1024} {t : ℕ} (hy : dirRef m y = some t) :
    ∃ t', y.val / 16 ≠ nr ∧ s.live (y.val / 16) = some t' ∧ y.val % 16 < dirCount t'.dataLimit := by
  rw [hdir y] at hy
  split at hy
  next => cases hy
  next hno =>
    obtain ⟨t', ht', hlt⟩ := h.dirs y t hy
    refine ⟨t', ?_, ht', hlt⟩
    rintro rfl
    cases hlive.symm.trans ht'
    omega

/-- The other tasks stay as they are when one of them changes. -/
theorem Sys.live_update_of_ne {m : Memory} {t₁ : Option Task} {kernel : List ℕ} {shm : Shm}
    {nr' : ℕ} (hne : nr' ≠ nr) :
    (Sys.mk m (Function.update s.task nr t₁) kernel shm).live nr' = s.live nr' := by
  unfold Sys.live
  dsimp only
  rw [Function.update_of_ne hne]

theorem Sys.Inv.doExit (h : s.Inv bounds lost) (hlive : s.live nr = some current) :
    ∃ s', doExit nr current s = .ok s' ∧ s'.Inv bounds lost := by
  obtain ⟨ht, hpos, -⟩ := Sys.live_eq_some.1 hlive
  have hok := h.tasks nr current ht
  obtain ⟨held, hc, hheld⟩ := h.pages
  obtain ⟨m, hfree, hc', hdir⟩ := freeSegments_spec hc hpos hok
  refine ⟨_, by simp only [Mm.doExit, hfree, bind, Except.bind, pure, Except.pure]; rfl, ?_⟩
  have hok' : TaskOk nr { current with executable := none, zombie := true } :=
    ⟨hok.lt, hok.startCode, hok.codeLimit, hok.dataLimit, hok.first⟩
  refine h.setTask ht hc' hheld ?_ hok' fun y t hy => ?_
  · rfl
  obtain ⟨t', hne, hlive', hlt⟩ := h.owned_freed hlive hdir hy
  exact ⟨t', by rw [Sys.live_update_of_ne hne, hlive'], hlt⟩

theorem Sys.Inv.doExecve (h : s.Inv bounds lost) (hlive : s.live nr = some current) {aText aData : ℕ}
    (hsize : aText + aData ≤ 0x3000000) (inode : ℕ) :
    ∃ s', doExecve nr aText aData inode current s = .ok s' ∧ s'.Inv bounds lost := by
  obtain ⟨ht, hpos, -⟩ := Sys.live_eq_some.1 hlive
  have hok := h.tasks nr current ht
  obtain ⟨held, hc, hheld⟩ := h.pages
  obtain ⟨m, hfree, hc', hdir⟩ := freeSegments_spec hc hpos hok
  refine ⟨_, by simp only [Mm.doExecve, hfree, bind, Except.bind, pure, Except.pure]; rfl, ?_⟩
  have hcode : (aText + PAGE_SIZE - 1) / PAGE_SIZE * PAGE_SIZE ≤ TASK_SIZE := by
    unfold PAGE_SIZE TASK_SIZE
    omega
  have hok' : TaskOk nr { current with
      executable := some inode
      codeLimit := (aText + PAGE_SIZE - 1) / PAGE_SIZE * PAGE_SIZE
      dataLimit := TASK_SIZE
      endData := aText + aData } :=
    ⟨hok.lt, hok.startCode, hcode, le_rfl, fun hzero => by omega⟩
  refine h.setTask ht hc' hheld ?_ hok' fun y t hy => ?_
  · rfl
  obtain ⟨t', hne, hlive', hlt⟩ := h.owned_freed hlive hdir hy
  exact ⟨t', by rw [Sys.live_update_of_ne hne, hlive'], hlt⟩

/-- A page the kernel holds is given back. -/
theorem Consistent.releaseHeld {m : Memory} {held : List ℕ} {p : ℕ} (hc : Consistent bounds m held)
    (hp : p ∈ held) :
    freePage p m = .ok (m.decCount p) ∧ Consistent bounds (m.decCount p) (held.erase p) :=
  (hc.perm (List.perm_cons_erase hp)).release

/-- A page is held once. -/
theorem Consistent.mem_erase {m : Memory} {held : List ℕ} {p q : ℕ} (hc : Consistent bounds m held)
    (hp : p ∈ held) : q ∈ held.erase p ↔ q ≠ p ∧ q ∈ held := by
  by_cases hq : q = p
  · subst hq
    have hone := (hc.counted.held_unreferenced hp).1
    have hzero : (held.erase q).count q = 0 := by
      rw [List.count_erase_self]
      omega
    exact ⟨fun hno => absurd (List.count_pos_iff.2 hno) (by omega), fun hno => absurd rfl hno.1⟩
  · rw [List.mem_erase_of_ne hq]
    exact ⟨fun h => ⟨hq, h⟩, fun h => h.2⟩

/-- A zombie is released. -/
theorem Sys.Inv.release (h : s.Inv bounds lost) (ht : s.task nr = some current) (hpos : 1 ≤ nr)
    (hz : current.zombie) : ∃ s', release nr current s = .ok s' ∧ s'.Inv bounds lost := by
  obtain ⟨held, hc, hheld⟩ := h.pages
  have hpage : s.IsTaskPage current.page := ⟨nr, current, hpos, ht, rfl⟩
  have hmem := hheld.task _ hpage
  obtain ⟨hfree, hc'⟩ := hc.releaseHeld hmem
  refine ⟨_, by simp only [Mm.release, hfree, bind, Except.bind, pure, Except.pure]; rfl, ?_⟩
  have hold : ∀ nr' t, Function.update s.task nr none nr' = some t →
      nr' ≠ nr ∧ s.task nr' = some t := by
    intro nr' t ht'
    by_cases heq : nr' = nr
    · subst heq
      rw [Function.update_self] at ht'
      cases ht'
    · rw [Function.update_of_ne heq] at ht'
      exact ⟨heq, ht'⟩
  have htask : ∀ p, (Sys.mk (s.mem.decCount current.page) (Function.update s.task nr none) s.kernel
      s.shm).IsTaskPage p ↔ p ≠ current.page ∧ s.IsTaskPage p := by
    intro p
    constructor
    · rintro ⟨nr', t, hpos', ht', rfl⟩
      obtain ⟨hne, ht'⟩ := hold nr' t ht'
      exact ⟨fun heq => hne (h.task_unique hpos hpos' ht ht' heq), nr', t, hpos', ht', rfl⟩
    · rintro ⟨hne, nr', t, hpos', ht', rfl⟩
      have hnr : nr' ≠ nr := by
        rintro rfl
        cases ht.symm.trans ht'
        exact hne rfl
      exact ⟨nr', t, hpos', (Function.update_of_ne hnr ..).trans ht', rfl⟩
  refine ⟨⟨held.erase current.page, hc', fun p hp => ?_, fun p hp => ?_, fun p hp => ?_⟩,
    fun n n' t t' hn hn' ht ht' hp => ?_, ⟨h.kernel.1, fun p hp => ?_⟩,
    fun nr' t ht' => ?_, fun y t hy => ?_⟩
  · exact (hc.mem_erase hmem).2 ⟨((htask p).1 hp).1, hheld.task p ((htask p).1 hp).2⟩
  · refine (hc.mem_erase hmem).2 ⟨?_, hheld.kernel p hp⟩
    rintro rfl
    exact h.kernel.2 _ hp hpage
  · obtain ⟨hne, hp⟩ := (hc.mem_erase hmem).1 hp
    exact (hheld.only p hp).imp_left fun hp => (htask p).2 ⟨hne, hp⟩
  · exact h.distinct n n' t t' hn hn' (hold n t ht).2 (hold n' t' ht').2 hp
  · exact fun hno => h.kernel.2 p hp ((htask p).1 hno).2
  · exact h.tasks nr' t (hold nr' t ht').2
  · obtain ⟨t', hlive, hlt⟩ := h.dirs y t hy
    have hne : y.val / 16 ≠ nr := by
      rintro rfl
      obtain ⟨ht', -, hz'⟩ := Sys.live_eq_some.1 hlive
      cases ht.symm.trans ht'
      rw [hz] at hz'
      cases hz'
    exact ⟨t', by rw [Sys.live_update_of_ne hne, hlive], hlt⟩

/-! ## Pages of the kernel -/

theorem Sys.Inv.allocate (h : s.Inv bounds lost) {p : ℕ} {m : Memory}
    (hget : getFreePage s.mem = some (p, m)) :
    Sys.Inv bounds lost { s with mem := m, kernel := p :: s.kernel } := by
  obtain ⟨held, hc, hheld⟩ := h.pages
  have hp := hc.handed hget
  have hfresh : p ∉ held := (hc.free_ne hp.low hp.free).2.2
  refine ⟨⟨p :: held, hc.alloc hp, fun q hq => List.mem_cons_of_mem p (hheld.task q hq),
    fun q hq => ?_, fun q hq => ?_⟩, h.distinct, ⟨?_, fun q hq => ?_⟩, h.tasks, ?_⟩
  · rcases List.mem_cons.1 hq with rfl | hq
    · exact List.mem_cons_self
    · exact List.mem_cons_of_mem p (hheld.kernel q hq)
  · rcases List.mem_cons.1 hq with rfl | hq
    · exact .inr (.inl List.mem_cons_self)
    · exact (hheld.only q hq).imp_right fun hq => hq.imp_left (List.mem_cons_of_mem p)
  · exact List.nodup_cons.2 ⟨fun hno => hfresh (hheld.kernel p hno), h.kernel.1⟩
  · rcases List.mem_cons.1 hq with rfl | hq
    · exact fun hno => hfresh (hheld.task q hno)
    · exact h.kernel.2 q hq
  · intro d t hd
    rw [hp.dirRef] at hd
    exact h.dirs d t hd

/-- A page of the kernel's list is no longer the kernel's. -/
theorem Sys.Inv.dropKernel (h : s.Inv bounds lost) {p : ℕ} (hp : p ∈ s.kernel) {m : Memory}
    {held : List ℕ} (hheld : s.Holds lost held) (hold : ∀ q, q ∈ held.erase p ↔ q ≠ p ∧ q ∈ held)
    (hc : Consistent bounds m (held.erase p)) (hdirs : ∀ d t, dirRef m d = some t → s.Owned d) :
    Sys.Inv bounds lost { s with mem := m, kernel := s.kernel.erase p } := by
  refine ⟨⟨held.erase p, hc, fun q hq => ?_, fun q hq => ?_, fun q hq => ?_⟩, h.distinct,
    ⟨h.kernel.1.erase p, fun q hq => h.kernel.2 q (List.mem_of_mem_erase hq)⟩, h.tasks, hdirs⟩
  · refine (hold q).2 ⟨?_, hheld.task q hq⟩
    rintro rfl
    exact h.kernel.2 q hp hq
  · obtain ⟨hne, hq⟩ := h.kernel.1.mem_erase_iff.1 hq
    exact (hold q).2 ⟨hne, hheld.kernel q hq⟩
  · obtain ⟨hne, hq⟩ := (hold q).1 hq
    exact (hheld.only q hq).imp_right fun hq =>
      hq.imp_left fun hq => h.kernel.1.mem_erase_iff.2 ⟨hne, hq⟩

theorem Sys.Inv.free (h : s.Inv bounds lost) {p : ℕ} (hp : p ∈ s.kernel) :
    ∃ m, freePage p s.mem = .ok m ∧
      Sys.Inv bounds lost { s with mem := m, kernel := s.kernel.erase p } := by
  obtain ⟨held, hc, hheld⟩ := h.pages
  obtain ⟨hfree, hc'⟩ := hc.releaseHeld (hheld.kernel p hp)
  exact ⟨_, hfree, h.dropKernel hp hheld (fun q => hc.mem_erase (hheld.kernel p hp)) hc' h.dirs⟩

theorem Sys.Inv.fill (h : s.Inv bounds lost) {p : ℕ} (content : ℕ → UInt8) :
    Sys.Inv bounds lost
      { s with mem := { s.mem with bytes := Function.update s.mem.bytes p content } } := by
  obtain ⟨held, hc, hheld⟩ := h.pages
  exact h.setMem (hc.of_eq rfl rfl rfl rfl rfl rfl) hheld h.dirs

theorem Sys.Inv.put (h : s.Inv bounds lost) (hlive : s.live nr = some current) {p x : ℕ}
    (hp : p ∈ s.kernel) (habsent : s.absent current x) {m : Memory}
    (hput : putPage p (current.startCode + x) s.mem = some m) :
    Sys.Inv bounds lost { s with mem := m, kernel := s.kernel.erase p } := by
  obtain ⟨held, hc, hheld⟩ := h.pages
  obtain ⟨hlookup, hd, hi, hd4, howned⟩ := h.lookup hlive habsent.1 s.mem
  have hmem := hheld.kernel p hp
  obtain ⟨hc', hdir, -, -⟩ := putPage_spec (hc.perm (List.perm_cons_erase hmem)) hd hi hd4
    (hlookup ▸ habsent.2) hput
  exact h.dropKernel hp hheld (fun q => hc.mem_erase hmem) hc' (h.owned_of_ne howned hdir)

/-! ## Faults -/

/-- What a function leaves that may map a page for a task, or fail. -/
def Settled (bounds : Bounds) (held : List ℕ) (m : Memory) (d : Fin 1024) : Outcome → Prop
  | .done m' => Consistent bounds m' held ∧ ∀ y, y ≠ d → dirRef m' y = dirRef m y
  | .oom m' => Consistent bounds m' held ∧ ∀ y, y ≠ d → dirRef m' y = dirRef m y
  | .panic _ => False

theorem Mapped.settled {m : Memory} {held : List ℕ} {d i : Fin 1024} {outcome : Outcome}
    (h : Mapped bounds held m d i outcome) : Settled bounds held m d outcome := by
  cases outcome with
  | done m' => exact ⟨h.1, h.2.1⟩
  | oom m' => exact ⟨h.1, fun y _ => congrFun h.2 y⟩
  | panic message => exact h

theorem Sys.Inv.settle (h : s.Inv bounds lost) (hlive : s.live nr = some current) {d : Fin 1024}
    (howned : s.Owned d) {held : List ℕ} (hheld : s.Holds lost held) {outcome : Outcome}
    (houtcome : Settled bounds held s.mem d outcome) :
    ∃ s', s.settle nr current outcome = .ok s' ∧ s'.Inv bounds lost := by
  cases outcome with
  | done m => exact ⟨_, rfl, h.setMem houtcome.1 hheld (h.owned_of_ne howned houtcome.2)⟩
  | oom m =>
      have h' : Sys.Inv bounds lost { s with mem := m } :=
        h.setMem houtcome.1 hheld (h.owned_of_ne howned houtcome.2)
      exact h'.doExit hlive
  | panic message => exact houtcome.elim

/-- `try_to_share` between two tasks. -/
theorem Sys.Inv.shares (h : s.Inv bounds lost) (hlive : s.live nr = some current) {p : ℕ}
    {source : Task} (hsource : s.task p = some source) (hpos : 1 ≤ p) (hne : p ≠ nr) {x tmp : ℕ}
    (habsent : s.absent current x) (htmp : tmp / 2 ^ 12 = x / 2 ^ 12) {held : List ℕ}
    (hc : Consistent bounds s.mem held) :
    Shares bounds held s.mem (place nr x).1 (place nr x).2
      (Mm.tryToShare tmp source.startCode current.startCode s.mem) := by
  obtain ⟨hlookup, hd, hi, hd4, -⟩ := h.lookup hlive habsent.1 s.mem
  obtain ⟨ht, hpos', -⟩ := Sys.live_eq_some.1 hlive
  have hok := h.tasks nr current ht
  have hoks := h.tasks p source hsource
  have hnr : nr < 64 := hok.lt
  have hp : p < 64 := hoks.lt
  have hx : x < 2 ^ 26 := habsent.1.trans_le hok.dataLimit
  have hplace := place_dir hnr hx
  have hplacep := place_dir hp hx
  have hs : source.startCode = p * 2 ^ 26 := hoks.startCode
  have hn : current.startCode = nr * 2 ^ 26 := hok.startCode
  refine @tryToShare_spec _ _ _ (place p x).1 _ _ tmp _ _ hc ?_ ?_ ?_ ?_ hd4 ?_ ?_
    (hlookup ▸ habsent.2)
  · rw [hplacep, hs, dirIndex_base hp, dirIndex]
    omega
  · rw [hplace, hn, dirIndex_base hnr, dirIndex]
    omega
  · rw [tableIndex, htmp]
    rfl
  · exact four_le_place hpos hp hx
  · intro heq
    have := congrArg Fin.val heq
    omega
  · rw [hplace, hplacep]
    omega

theorem Sys.Inv.shareLoop (h : s.Inv bounds lost) (hlive : s.live nr = some current) {x tmp : ℕ}
    (habsent : s.absent current x) (htmp : tmp / 2 ^ 12 = x / 2 ^ 12) {held : List ℕ}
    (hc : Consistent bounds s.mem held) (n : ℕ) :
    Shares bounds held s.mem (place nr x).1 (place nr x).2 (shareLoop s nr current tmp n) := by
  induction n with
  | zero => trivial
  | succ n ih =>
      rw [Mm.shareLoop]
      split
      next => exact ih
      next p hp =>
        split
        next => exact ih
        next hno =>
          have hshares := h.shares hlive hp (by omega) (fun heq => hno (.inl heq)) habsent htmp hc
          split
          next => exact ih
          next => exact hshares

/-- A fault for a page that is not there. -/
theorem Sys.Inv.doNoPage (h : s.Inv bounds lost) (hlive : s.live nr = some current) {x : ℕ}
    (habsent : s.absent current x) {held : List ℕ} (hc : Consistent bounds s.mem held) (iCount : ℕ)
    (content : ℕ → UInt8) :
    Mapped bounds held s.mem (place nr x).1 (place nr x).2
      (doNoPage s nr current iCount content x) := by
  have htmp : x / PAGE_SIZE * PAGE_SIZE / 2 ^ 12 = x / 2 ^ 12 := by
    unfold PAGE_SIZE
    omega
  have habsent' : x / PAGE_SIZE * PAGE_SIZE < current.dataLimit := by
    have := habsent.1
    unfold PAGE_SIZE
    omega
  have hplace : place nr (x / PAGE_SIZE * PAGE_SIZE) = place nr x := by
    have hdir : x / PAGE_SIZE * PAGE_SIZE / 2 ^ 22 = x / 2 ^ 22 := by
      unfold PAGE_SIZE
      omega
    simp only [place, htmp, hdir]
  obtain ⟨hlookup, -⟩ := h.lookup hlive habsent.1 s.mem
  obtain ⟨-, hd, hi, hd4, -⟩ := h.lookup hlive habsent' s.mem
  rw [hplace] at hd hi hd4
  have hnone := hlookup ▸ habsent.2
  unfold Mm.doNoPage
  dsimp only
  split
  next => exact getEmptyPage_spec hc hd hi hd4 hnone
  next =>
    have hshares : Shares bounds held s.mem (place nr x).1 (place nr x).2
        (sharePage s nr current iCount (x / PAGE_SIZE * PAGE_SIZE)) := by
      unfold sharePage
      split
      next => trivial
      next => exact h.shareLoop hlive habsent htmp hc _
    cases hshare : sharePage s nr current iCount (x / PAGE_SIZE * PAGE_SIZE) with
    | shared m =>
        rw [hshare] at hshares
        exact hshares
    | oom => exact ⟨hc, rfl⟩
    | panic message =>
        rw [hshare] at hshares
        exact hshares.elim
    | notShared =>
        dsimp only
        cases hget : getFreePage s.mem with
        | none => exact ⟨hc, rfl⟩
        | some handed => exact put_spec hc (hc.handed hget) _ hd hi hd4 hnone

/-! ## `fork` -/

/-- `copy_page_tables` to a segment without tables. -/
theorem copyPageTables_spec {m : Memory} {held : List ℕ} (hc : Consistent bounds m held)
    (hok : TaskOk nr current) {child : ℕ} (hpos : 1 ≤ child) (hlt : child < 64) (hne : child ≠ nr)
    (hfree : ∀ y : Fin 1024, y.val / 16 = child → dirRef m y = none) :
    ∃ ok m', copyPageTables current.startCode (child * TASK_SIZE) current.dataLimit m =
        .ok (ok, m') ∧ Consistent bounds m' held ∧
      ∀ y : Fin 1024, ¬(16 * child ≤ y.val ∧ y.val < 16 * child + dirCount current.dataLimit) →
        dirRef m' y = dirRef m y := by
  have hle := dirCount_le hok.dataLimit
  have hnr : nr < 64 := hok.lt
  unfold copyPageTables
  rw [hok.startCode, if_neg (by unfold TASK_SIZE; omega), mul_taskSize_div child]
  by_cases hzero : nr = 0
  · -- the first task copies the part of the kernel's table that it may use
    subst hzero
    have hone : dirCount 0xA0000 = 1 := by
      rw [dirCount_eq (by omega)]
      omega
    rw [hok.first rfl, hone, if_pos (Nat.zero_mul _), Nat.zero_mul, Nat.zero_div]
    obtain ⟨ok, m', hcopy, hc', hdir⟩ := @copyDirs_kernel bounds m held ⟨16 * child, by omega⟩ hc
      (by dsimp only; omega) (hfree _ (by dsimp only; omega))
    refine ⟨ok, m', hcopy, hc', fun y hy => hdir y fun heq => hy ?_⟩
    rw [heq]
    exact ⟨le_rfl, Nat.lt_succ_self _⟩
  · rw [if_neg (by unfold TASK_SIZE; omega), mul_taskSize_div]
    exact copyDirs_spec hc (by omega) (by omega) (by omega) (by omega) (by omega) (by omega)
      fun y hy hy' => hfree y (by omega)

/-- A step that fails is undone by `undo`. -/
theorem undo_eq_ok {α : Type} {step : Except String (Bool × α)} {undo : α → Except String α}
    {m m' : α} (hstep : step = .ok (false, m)) (hundo : undo m = .ok m') :
    (do
      let (ok, m) ← step
      if ok then return (true, m)
      else
        let m ← undo m
        return (false, m)) = .ok (false, m') := by
  subst hstep
  simp only [bind, Except.bind, pure, Except.pure, Bool.false_eq_true, if_false, hundo]

/-- `copy_mem`: the tables of the child are a part of its segment, and there are
none when it fails. -/
theorem copyMem_spec {m : Memory} {held : List ℕ} (hc : Consistent bounds m held)
    (hok : TaskOk nr current) {child : ℕ} (hpos : 1 ≤ child) (hlt : child < 64) (hne : child ≠ nr)
    (hfree : ∀ y : Fin 1024, y.val / 16 = child → dirRef m y = none) :
    ∃ ok m', copyMem child current m = .ok (ok, m') ∧ Consistent bounds m' held ∧
      (∀ y : Fin 1024, y.val / 16 ≠ child → dirRef m' y = dirRef m y) ∧
      ∀ (y : Fin 1024) t, y.val / 16 = child → dirRef m' y = some t →
        ok = true ∧ y.val % 16 < dirCount current.dataLimit := by
  have hle := dirCount_le hok.dataLimit
  obtain ⟨ok, m₁, hcopy, hc₁, hdir₁⟩ := copyPageTables_spec hc hok hpos hlt hne hfree
  unfold copyMem
  rw [if_neg (Nat.not_lt.2 hok.codeLimit)]
  cases ok with
  | true =>
      rw [hcopy]
      refine ⟨true, m₁, rfl, hc₁, fun y hy => hdir₁ y (by omega), fun y t hy hsome => ⟨rfl, ?_⟩⟩
      by_contra hno
      rw [hdir₁ y (by omega), hfree y hy] at hsome
      cases hsome
  | false =>
      obtain ⟨m₂, hfreed, hc₂, hdir₂⟩ := freePageTables_spec hc₁ hpos hlt hok.dataLimit
      refine ⟨false, m₂, undo_eq_ok hcopy hfreed, hc₂, fun y hy => ?_, fun y t hy hsome => ?_⟩
      · rw [hdir₂ y, if_neg (by omega), hdir₁ y (by omega)]
      · rw [hdir₂ y] at hsome
        split at hsome
        next => cases hsome
        next hno =>
          rw [hdir₁ y hno, hfree y hy] at hsome
          cases hsome

/-- The slot of the child has no tables yet. -/
theorem Sys.Inv.dirRef_none (h : s.Inv bounds lost) {child : ℕ} (hnone : s.task child = none)
    {y : Fin 1024} (hy : y.val / 16 = child) : dirRef s.mem y = none := by
  cases hd : dirRef s.mem y with
  | none => rfl
  | some t =>
      obtain ⟨t', ht', -⟩ := h.dirs y t hd
      rw [hy] at ht'
      rw [(Sys.live_eq_some.1 ht').1] at hnone
      cases hnone

/-- A new task gets a page of its own and the tables that were copied for it. -/
theorem Sys.Inv.addTask (h : s.Inv bounds lost) {child p : ℕ} {t₁ : Task} {m : Memory}
    {held : List ℕ} (hpos : 1 ≤ child) (hnone : s.task child = none) (hpage : t₁.page = p)
    (hz : t₁.zombie = false) (hok : TaskOk child t₁) (hheld : s.Holds lost held) (hp : p ∉ held)
    (hc : Consistent bounds m (p :: held))
    (hdirs : ∀ (y : Fin 1024) t, dirRef m y = some t → y.val / 16 ≠ child ∧ s.Owned y ∨
      y.val / 16 = child ∧ y.val % 16 < dirCount t₁.dataLimit) :
    Sys.Inv bounds lost { s with mem := m, task := Function.update s.task child (some t₁) } := by
  have hold : ∀ nr t, Function.update s.task child (some t₁) nr = some t →
      nr = child ∧ t = t₁ ∨ nr ≠ child ∧ s.task nr = some t := by
    intro nr t ht
    by_cases heq : nr = child
    · subst heq
      rw [Function.update_self] at ht
      cases ht
      exact .inl ⟨rfl, rfl⟩
    · rw [Function.update_of_ne heq] at ht
      exact .inr ⟨heq, ht⟩
  have htask : ∀ q, Sys.IsTaskPage { s with mem := m, task := Function.update s.task child (some t₁) } q ↔
      q = p ∨ s.IsTaskPage q := by
    intro q
    constructor
    · rintro ⟨nr, t, hnr, ht, rfl⟩
      rcases hold nr t ht with ⟨-, rfl⟩ | ⟨-, ht⟩
      · exact .inl hpage
      · exact .inr ⟨nr, t, hnr, ht, rfl⟩
    · rintro (rfl | ⟨nr, t, hnr, ht, rfl⟩)
      · exact ⟨child, t₁, hpos, Function.update_self .., hpage⟩
      · have hne : nr ≠ child := by
          rintro rfl
          rw [hnone] at ht
          cases ht
        exact ⟨nr, t, hnr, (Function.update_of_ne hne ..).trans ht, rfl⟩
  have hnew : ∀ nr t, 1 ≤ nr → s.task nr = some t → t.page ≠ p := fun nr t hnr ht heq =>
    hp (heq ▸ hheld.task _ ⟨nr, t, hnr, ht, rfl⟩)
  refine ⟨⟨p :: held, hc, fun q hq => ?_, fun q hq => List.mem_cons_of_mem p (hheld.kernel q hq),
    fun q hq => ?_⟩, fun n n' t t' hn hn' ht ht' heq => ?_, ⟨h.kernel.1, fun q hq hno => ?_⟩,
    fun nr t ht => ?_, fun y t hy => ?_⟩
  · exact List.mem_cons.2 (((htask q).1 hq).imp_right (hheld.task q))
  · rcases List.mem_cons.1 hq with rfl | hq
    · exact .inl ((htask q).2 (.inl rfl))
    · exact (hheld.only q hq).imp_left fun hq => (htask q).2 (.inr hq)
  · rcases hold n t ht with ⟨hn₁, rfl⟩ | ⟨-, ht₀⟩
    · rcases hold n' t' ht' with ⟨hn₁', rfl⟩ | ⟨-, ht₀'⟩
      · rw [hn₁, hn₁']
      · exact absurd (heq.symm.trans hpage) (hnew n' t' hn' ht₀')
    · rcases hold n' t' ht' with ⟨hn₁', rfl⟩ | ⟨-, ht₀'⟩
      · exact absurd (heq.trans hpage) (hnew n t hn ht₀)
      · exact h.distinct n n' t t' hn hn' ht₀ ht₀' heq
  · rcases (htask q).1 hno with rfl | hno
    · exact hp (hheld.kernel q hq)
    · exact h.kernel.2 q hq hno
  · rcases hold nr t ht with ⟨rfl, rfl⟩ | ⟨-, ht⟩
    · exact hok
    · exact h.tasks nr t ht
  · rcases hdirs y t hy with ⟨hne, t', ht', hlt⟩ | ⟨heq, hlt⟩
    · exact ⟨t', by rw [Sys.live_update_of_ne hne, ht'], hlt⟩
    · refine ⟨t₁, Sys.live_eq_some.2 ⟨?_, heq ▸ hpos, hz⟩, hlt⟩
      rw [heq]
      exact Function.update_self ..

theorem Sys.Inv.copyProcess (h : s.Inv bounds lost) (ht : s.task nr = some current) {child : ℕ}
    (hpos : 1 ≤ child) (hlt : child < NR_TASKS) (hnone : s.task child = none) (pid : ℤ) :
    ∃ s', copyProcess child pid current s = .ok s' ∧ s'.Inv bounds lost := by
  obtain ⟨held, hc, hheld⟩ := h.pages
  have hok := h.tasks nr current ht
  have hne : child ≠ nr := by
    rintro rfl
    rw [ht] at hnone
    cases hnone
  unfold Mm.copyProcess
  cases hget : getFreePage s.mem with
  | none => exact ⟨s, rfl, h⟩
  | some handed =>
      obtain ⟨p, m⟩ := handed
      have hp := hc.handed hget
      obtain ⟨ok, m', hcopy, hc', hother, hchild⟩ := copyMem_spec (hc.alloc hp) hok hpos hlt hne
        fun y hy => by rw [hp.dirRef, h.dirRef_none hnone hy]
      dsimp only
      cases ok with
      | true =>
          rw [hcopy]
          refine ⟨_, rfl, h.addTask hpos hnone ?_ ?_ ?_ hheld (hc.free_ne hp.low hp.free).2.2 hc'
            fun y t hy => ?_⟩
          · rfl
          · rfl
          · exact ⟨hlt, rfl, hok.codeLimit, hok.dataLimit, fun hzero => by omega⟩
          · by_cases heq : y.val / 16 = child
            · exact .inr ⟨heq, (hchild y t heq hy).2⟩
            · rw [hother y heq, hp.dirRef] at hy
              exact .inl ⟨heq, h.dirs y t hy⟩
      | false =>
          obtain ⟨hfree, hc''⟩ := hc'.release
          rw [hcopy]
          refine ⟨{ s with mem := m'.decCount p }, ?_, h.setMem hc'' hheld fun y t hy => ?_⟩
          · simp only [bind, Except.bind, pure, Except.pure, Bool.false_eq_true, if_false, hfree]
          · have hy' : dirRef m' y = some t := hy
            by_cases heq : y.val / 16 = child
            · cases (hchild y t heq hy').1
            · rw [hother y heq, hp.dirRef] at hy'
              exact h.dirs y t hy'

end Memory

end MyJavaExample.Mm
