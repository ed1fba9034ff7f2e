import MyJavaExample.Lib.Outcome
import MyJavaExample.Mm.RangeRefs
import MyJavaExample.Mm.Runs
import MyJavaExample.Mm.ShmCounts

/-!
# A `fork` that runs out of memory: `kernel/fork.c`

`copy_page_tables` stops at the table for which there is no page.  What it has
copied by then is in the range of the child, and `free_page_tables` takes it away
again, so that each count is as before; then the page of the task goes back too.

The pages that the parent maps may be mapped by others as well, as often as they
like: only that they are in use matters, and that their counts have room.  A page
that `sys_shmget` has left without a count can be handed out for the new task, and
then the parent does not read what it read before.
-/

namespace MyJavaExample.Mm

open Lib

def EAGAIN : ℤ := 11

/-- `copy_process` with its result. -/
def copyProcessRet (nr : ℕ) (pid : ℤ) (current : Task) (s : Sys) : Except String (ℤ × Sys) :=
  match getFreePage s.mem with
  | none => .ok (-EAGAIN, s)
  | some (p, m) => do
      let child := { current with page := p, pid, startCode := nr * TASK_SIZE, zombie := false }
      let task := Function.update s.task nr (some child)
      let (ok, m) ← copyMem nr current m
      if ok then return (pid, { s with mem := m, task })
      else
        let task := Function.update task nr none
        let m ← freePage p m
        return (-EAGAIN, { s with mem := m, task })

/-- The entries that are copied of each table. -/
def copiedEntries (current : Task) : ℕ := if current.startCode = 0 then 0xA0 else 1024

/-- The task can be copied to a free slot: its segments are where they belong, the
slot has no page tables, and the address space is in order. -/
structure Forkable (nr child : ℕ) (current : Task) (m : Memory) : Prop where
  task : TaskOk nr current
  pos : 1 ≤ child
  lt : child < NR_TASKS
  empty : ∀ k, 16 * child ≤ k → k < 16 * child + 16 → (m.pgDir k).present = false
  copyable : Copyable (copiedEntries current) m (dirCount current.dataLimit) (16 * nr) (16 * child)

/-- A failed `fork` leaves the tasks, the counts, the empty slot, and all that the
parent reads. -/
structure Restored (child : ℕ) (current : Task) (s s' : Sys) : Prop where
  task : s'.task = s.task
  memMap : s'.mem.memMap = s.mem.memMap
  empty : ∀ k, 16 * child ≤ k → k < 16 * child + 16 → (s'.mem.pgDir k).present = false
  read : ∀ x < current.dataLimit,
    s'.mem.read (current.startCode + x) = s.mem.read (current.startCode + x)

section Fork

variable {m m₁ m₂ : Memory} {s : Sys} {nr child n d d' p : ℕ} {pid : ℤ} {current : Task}

/-- The state is that of `copy_process` without the result. -/
theorem copyProcessRet_map (hnone : s.task nr = none) :
    (copyProcessRet nr pid current s).map Prod.snd = copyProcess nr pid current s := by
  rw [copyProcessRet, copyProcess]
  cases getFreePage s.mem with
  | none => rfl
  | some handed =>
      obtain ⟨p, m⟩ := handed
      cases hcopy : copyMem nr current m with
      | error message => simp [hcopy, bind, Except.bind, Except.map]
      | ok copied =>
          obtain ⟨ok, m⟩ := copied
          cases ok with
          | true => simp [hcopy, bind, Except.bind, Except.map, pure, Except.pure]
          | false =>
              have htask : Function.update s.task nr none = s.task :=
                Function.update_eq_self_iff.2 hnone.symm
              cases hfree : freePage p m <;>
                simp [hcopy, hfree, htask, bind, Except.bind, Except.map, pure, Except.pure]

theorem read_eq_page (m : Memory) (a : ℕ) : m.read a =
    (m.pgDir (dirIndex a)).page.bind fun t =>
      (m.table t (tableIndex a)).page.map fun q => m.bytes q (a % PAGE_SIZE) := by
  rw [Memory.read, Memory.lookup]
  by_cases hdir : (m.pgDir (dirIndex a)).present
  · by_cases hentry : (m.table (m.pgDir (dirIndex a)).frame (tableIndex a)).present
    · simp [hdir, hentry, Entry.page]
    · simp [hdir, hentry, Entry.page]
  · simp [hdir, Entry.page]

theorem read_withCounts (m : Memory) (count : ℕ → ℕ) (a : ℕ) :
    (m.withCounts count).read a = m.read a := by
  simp only [read_eq_page, Memory.withCounts]

/-- The page of the task is none of the pages of the range. -/
theorem Copyable.alloc {nr : ℕ} (h : Copyable nr m n d d')
    (hget : getFreePage m = some (p, m₁)) : Copyable nr m₁ n d d' := by
  obtain ⟨hpgDir, hhigh⟩ := getFreePage_pgDir hget
  have hp := getFreePage_free hget
  have htable : ∀ k, d ≤ k → k < d + n → ∀ t, (m.pgDir k).page = some t →
      m₁.table t = m.table t := fun k hk hlt t ht =>
    getFreePage_table_ne hget fun heq => h.tables k hk hlt t ht (heq ▸ hp)
  have hfree : ∀ q, m₁.Free q → m.Free q := fun q hq => ((getFreePage_free_iff hget).1 hq).1
  have hrefs : ∀ q, m₁.mapRefs nr q n d = m.mapRefs nr q n d := fun q =>
    mapRefs_congr fun k hk hlt => ⟨congrFun hpgDir k, fun hpresent i _ => by
      rw [htable k hk hlt _ (Entry.page_eq_some.mpr ⟨hpresent, rfl⟩)]⟩
  refine ⟨fun k hk hlt => ?_, h.apart, fun k hk hlt t ht => ?_, fun k hk hlt t ht i hi q hq => ?_,
    fun k hk hlt t ht i hi q hq => ?_, fun q hq => ?_, fun q hq => ?_⟩
  · rw [hpgDir]
    exact h.empty k hk hlt
  · rw [hpgDir] at ht
    exact fun hno => h.tables k hk hlt t ht (hfree t hno)
  · rw [hpgDir] at ht
    rw [htable k hk hlt t ht] at hq
    exact fun hno => h.pages k hk hlt t ht i hi q hq (hfree q hno)
  · rw [hpgDir] at ht
    rw [htable k hk hlt t ht] at hq
    rw [hhigh]
    exact h.high k hk hlt t ht i hi q hq
  · rw [hrefs] at hq ⊢
    have hqp : q ≠ p := by
      rintro rfl
      have hzero := h.mapRefs_free hp
      omega
    rw [memMap_of_getFreePage hget, Function.update_of_ne hqp]
    exact h.room q hq
  · rw [hhigh]
    exact h.free q (hfree q hq)

theorem copyProcessRet_failed (hget : getFreePage s.mem = some (p, m))
    (hmem : copyMem nr current m = .ok (false, m₁)) (hpage : freePage p m₁ = .ok m₂) :
    ∃ task, copyProcessRet nr pid current s = .ok (-EAGAIN, { s with mem := m₂, task }) := by
  simp only [copyProcessRet, hget, hmem, hpage, bind, Except.bind, pure, Except.pure,
    Bool.false_eq_true, if_false]
  exact ⟨_, rfl⟩

/-- What the parent reads depends on its range of the directory, and there on the
pages in use. -/
theorem read_eq_of_range {a : ℕ} {nr : ℕ} (h : Copyable nr m n d d')
    (ha : d ≤ dirIndex a ∧ dirIndex a < d + n) (hi : tableIndex a < nr)
    (hdir : m₁.pgDir (dirIndex a) = m.pgDir (dirIndex a))
    (hpage : ∀ t, (m.pgDir (dirIndex a)).page = some t → ∀ i,
      (m₁.table t i).page = (m.table t i).page)
    (hbytes : ∀ q, ¬m.Free q → m₁.bytes q = m.bytes q) : m₁.read a = m.read a := by
  rw [read_eq_page, read_eq_page, hdir]
  cases ht : (m.pgDir (dirIndex a)).page with
  | none => rfl
  | some t =>
      rw [Option.bind_some, Option.bind_some, hpage t ht]
      cases hq : (m.table t (tableIndex a)).page with
      | none => rfl
      | some q =>
          have hnotfree := h.pages _ ha.1 ha.2 t ht (tableIndex a) hi q hq
          rw [Option.map_some, Option.map_some, hbytes q hnotfree]

theorem copyPageTables_eq (hstart : current.startCode = nr * TASK_SIZE) (size : ℕ) (m : Memory) :
    copyPageTables current.startCode (child * TASK_SIZE) size m =
      copyDirs (copiedEntries current) (dirCount size) (16 * nr) (16 * child) m := by
  have haligned : ¬(current.startCode % 2 ^ 22 ≠ 0 ∨ child * TASK_SIZE % 2 ^ 22 ≠ 0) := by
    rw [hstart]
    unfold TASK_SIZE
    omega
  rw [copyPageTables, if_neg haligned, copiedEntries, mul_taskSize_div]
  rw [hstart, mul_taskSize_div]

theorem copiedEntries_le : copiedEntries current ≤ 1024 := by
  rw [copiedEntries]
  split <;> omega

/-- The memory after `free_page_tables` on the range of the child. -/
theorem Forkable.freed (hf : Forkable nr child current s.mem)
    (hget : getFreePage s.mem = some (p, m)) {m' : Memory}
    (hcopied : CopiedRange (copiedEntries current) m m' (dirCount current.dataLimit) (16 * nr)
      (16 * child)) :
    ∃ m₂, freePageTables (child * TASK_SIZE) current.dataLimit m' = .ok m₂ ∧
      m₂.memMap = m.memMap ∧ m₂.highMemory = s.mem.highMemory ∧
      (∀ k, 16 * child ≤ k → k < 16 * child + 16 → (m₂.pgDir k).present = false) ∧
      ∀ x < current.dataLimit,
        m₂.read (current.startCode + x) = s.mem.read (current.startCode + x) := by
  obtain ⟨hpgDir, hhigh⟩ := getFreePage_pgDir hget
  have hp := getFreePage_free hget
  obtain ⟨m₂, hfree, hfreed⟩ := freeDirs_undo hcopied.freeable
  have houtside : ∀ k, k < 16 * child ∨ 16 * child + dirCount current.dataLimit ≤ k →
      m₂.pgDir k = s.mem.pgDir k := by
    intro k hk
    rw [hfreed.outside k hk, hcopied.outside k hk, hpgDir]
  refine ⟨m₂, (freePageTables_eq hf.pos _ _).trans hfree, hfreed.counts, ?_, fun k hk hlt => ?_,
    fun x hx => ?_⟩
  · rw [hfreed.highMemory, hcopied.highMemory, hhigh]
  · by_cases hin : k < 16 * child + dirCount current.dataLimit
    · exact hfreed.absent k hk hin
    · rw [houtside k (by omega)]
      exact hf.empty k hk hlt
  · have hlimit : current.dataLimit ≤ 2 ^ 26 := hf.task.dataLimit
    have hstart : current.startCode = nr * 2 ^ 26 := hf.task.startCode
    have hdir : dirIndex (current.startCode + x) = 16 * nr + x / 2 ^ 22 := by
      rw [hstart, dirIndex_eq hf.task.lt (hx.trans_le hlimit), place_dir hf.task.lt (hx.trans_le hlimit)]
    have hcount := lt_dirCount hlimit hx
    have hapart := hf.copyable.apart
    have hrange : 16 * nr ≤ dirIndex (current.startCode + x) ∧
        dirIndex (current.startCode + x) < 16 * nr + dirCount current.dataLimit := by
      rw [hdir]
      omega
    have hindex : tableIndex (current.startCode + x) < copiedEntries current := by
      have hlt := tableIndex_lt (current.startCode + x)
      rw [copiedEntries]
      split
      next hzero =>
        have hnr : nr = 0 := by omega
        have hfirst := hf.task.first hnr
        rw [hzero, Nat.zero_add, tableIndex]
        omega
      next => exact hlt
    refine read_eq_of_range hf.copyable hrange hindex (houtside _ (by omega)) (fun t ht i => ?_)
      fun q hq => ?_
    · have hused := hf.copyable.tables _ hrange.1 hrange.2 t ht
      have hused' : ¬m.Free t := fun hno => hused ((getFreePage_free_iff hget).1 hno).1
      rw [hfreed.table t fun k hk hlt heq => hused' (hcopied.fresh k hk hlt t heq),
        hcopied.page t hused' i, getFreePage_table_ne hget fun heq : t = p => hused (heq ▸ hp)]
    · have hq' : ¬m.Free q := fun hno => hq ((getFreePage_free_iff hget).1 hno).1
      rw [hfreed.bytes, hcopied.bytes q hq', getFreePage_bytes_ne hget fun heq : q = p => hq (heq ▸ hp)]

/-- The page of the task goes back. -/
theorem freePage_task (hget : getFreePage s.mem = some (p, m)) (hhigh : p < m₂.highMemory)
    (hmap : m₂.memMap = m.memMap) : freePage p m₂ = .ok (m₂.withCounts s.mem.memMap) := by
  have hp := getFreePage_free hget
  have hcount : ∀ q, m₂.memMap q = s.mem.memMap q + (Entry.user p).refs q := by
    intro q
    rw [hmap, memMap_of_getFreePage hget, Entry.refs]
    by_cases hq : q = p
    · subst hq
      rw [Function.update_self, hp.2.2, if_pos ⟨hp.1, rfl⟩]
    · rw [Function.update_of_ne hq, if_neg fun heq => hq (Option.some.inj heq.2).symm, Nat.add_zero]
  refine freePage_undo rfl hcount fun _ => ⟨hhigh, ?_⟩
  rw [hmap, memMap_of_getFreePage hget, Function.update_self]
  omega

/-! ## The states that are reached -/

/-- The tables of a task that has one of its own. -/
theorem dirRef_of_page {k : Fin 1024} (hk : 4 ≤ k.val) {t : ℕ} (ht : (m.pgDir k).page = some t) :
    dirRef m k = some t :=
  dirRef_eq_some.2 ⟨hk, Entry.page_eq_some.mp ht⟩

theorem entryAt_of_page {k i : Fin 1024} {t q : ℕ} (hd : dirRef m k = some t)
    (hq : (m.table t i).page = some q) : ∃ e, entryAt m (k, i) = some e ∧ e.frame = q := by
  obtain ⟨hpresent, hframe⟩ := Entry.page_eq_some.mp hq
  exact ⟨m.table t i, entryAt_eq_some.2 ⟨t, hd, hpresent, rfl⟩, hframe⟩

/-- A free page is a page of the memory. -/
theorem Consistent.free_lt {bounds : Bounds} {held : List ℕ} (hc : Consistent bounds m held)
    (hp : m.Free p) : p < m.highMemory := by
  by_contra hge
  exact hc.counted.reserved p hp.1 (.inr (Nat.not_lt.mp hge)) hp.2.2

/-- The range of the first task: one table, with pages below `LOW_MEM`. -/
theorem Consistent.copyable_first {bounds : Bounds} {held : List ℕ} (hc : Consistent bounds m held)
    (hpos : 1 ≤ child) (hempty : ∀ k, 16 * child ≤ k → k < 16 * child + 16 →
      (m.pgDir k).present = false) : Copyable 0xA0 m 1 0 (16 * child) := by
  obtain ⟨htable, hentries⟩ := hc.kernel
  have hlow : ∀ k, 0 ≤ k → k < 0 + 1 → ∀ t, (m.pgDir k).page = some t → ∀ i < 0xA0, ∀ q,
      (m.table t i).page = some q → q < LOW_MEM := by
    intro k _ hk t ht i hi q hq
    obtain rfl : k = 0 := by omega
    rw [← (Entry.page_eq_some.mp ht).2] at hq
    rw [← (Entry.page_eq_some.mp hq).2]
    exact hentries i hi
  refine ⟨fun k hk hlt => hempty k hk (by omega), by omega, fun k _ hk t ht hfree => ?_,
    fun k hk hlt t ht i hi q hq hfree => ?_, fun k hk hlt t ht i hi q hq hlow' => ?_,
    fun q hq => ?_, fun q hq => hc.free_lt hq⟩
  · obtain rfl : k = 0 := by omega
    rw [(Entry.page_eq_some.mp ht).2] at htable
    exact absurd hfree.1 (Nat.not_le.2 htable)
  · exact absurd hfree.1 (Nat.not_le.2 (hlow k hk hlt t ht i hi q hq))
  · exact absurd hlow' (Nat.not_le.2 (hlow k hk hlt t ht i hi q hq))
  · obtain ⟨hlow', k, hk, hlt, hpresent, i, hi, hp⟩ := exists_of_mapRefs_pos hq
    have := hlow k hk hlt _ (Entry.page_eq_some.mpr ⟨hpresent, rfl⟩) i hi q hp
    omega

/-- The range of another task. -/
theorem Consistent.copyable {bounds : Bounds} {held : List ℕ} (hc : Consistent bounds m held)
    (hpos : 1 ≤ nr) (hlt : nr < 64) (hn : n ≤ 16) (hne : child ≠ nr)
    (hempty : ∀ k, 16 * child ≤ k → k < 16 * child + 16 → (m.pgDir k).present = false) :
    Copyable 1024 m n (16 * nr) (16 * child) := by
  have hdir : ∀ k, 16 * nr ≤ k → (hk : k < 16 * nr + n) → ∀ t, (m.pgDir k).page = some t →
      dirRef m ⟨k, by omega⟩ = some t := fun k hk hk' t ht =>
    dirRef_of_page (k := ⟨k, by omega⟩) (by dsimp only; omega) ht
  have hused : ∀ k, 16 * nr ≤ k → (hk : k < 16 * nr + n) → ∀ t, (m.pgDir k).page = some t →
      ∀ i, (hi : i < 1024) → ∀ q, (m.table t i).page = some q →
      ∃ e, entryAt m (⟨k, by omega⟩, ⟨i, hi⟩) = some e ∧ e.frame = q := fun k hk hk' t ht i hi q hq =>
    entryAt_of_page (i := ⟨i, hi⟩) (hdir k hk hk' t ht) hq
  refine ⟨fun k hk hk' => hempty k hk (by omega), by omega, fun k hk hk' t ht hfree => ?_,
    fun k hk hk' t ht i hi q hq hfree => ?_, fun k hk hk' t ht i hi q hq hlow => ?_,
    fun q hq => ?_, fun q hq => hc.free_lt hq⟩
  · have hone := (hc.counted.tables _ t (hdir k hk hk' t ht)).2
    have hzero := hfree.2.2
    omega
  · obtain ⟨e, he, rfl⟩ := hused k hk hk' t ht i hi q hq
    rcases hc.entry_used he with hlow | hcount
    · exact absurd hfree.1 (Nat.not_le.2 hlow)
    · exact hcount hfree.2.2
  · obtain ⟨e, he, rfl⟩ := hused k hk hk' t ht i hi q hq
    exact (hc.counted.managed (refOf_entry he) hlow).2
  · obtain ⟨hlow, k, hk, hk', hpresent, i, hi, hp⟩ := exists_of_mapRefs_pos hq
    obtain ⟨e, he, rfl⟩ := hused k hk hk' _ (Entry.page_eq_some.mpr ⟨hpresent, rfl⟩) i hi q hp
    have hcount := hc.counted.count_le (refOf_entry he) hlow
    -- two entries of one task for one page are one entry
    have hone : m.mapRefs 1024 e.frame n (16 * nr) ≤ 1 := by
      refine mapRefs_le_one fun k l i j hk hk' hl hl' hi hj hpk hpl hpi hpj => ?_
      obtain ⟨e₁, he₁, heq₁⟩ := hused k hk hk' _ (Entry.page_eq_some.mpr ⟨hpk, rfl⟩) i hi _ hpi
      obtain ⟨e₂, he₂, heq₂⟩ := hused l hl hl' _ (Entry.page_eq_some.mpr ⟨hpl, rfl⟩) j hj _ hpj
      have hoffset := hc.counted.offsets _ _ _ _ e.frame (heq₁ ▸ refOf_entry he₁)
        (heq₂ ▸ refOf_entry he₂) hlow
      have hindex := congrArg Fin.val hoffset.2
      have hmod := hoffset.1
      dsimp only at hindex hmod
      exact ⟨by omega, hindex⟩
    omega

/-- In a state with exact counts every task can be copied to every free slot. -/
theorem Sys.Inv.forkable {bounds : Bounds} {lost : List ℕ} (h : s.Inv bounds lost)
    (ht : s.task nr = some current) (hpos : 1 ≤ child) (hlt : child < NR_TASKS)
    (hslot : s.task child = none) : Forkable nr child current s.mem := by
  have hok := h.tasks nr current ht
  obtain ⟨held, hc, -⟩ := h.pages
  have hchild : child < 64 := hlt
  have hlimit : current.dataLimit ≤ 2 ^ 26 := hok.dataLimit
  have hne : child ≠ nr := by
    rintro rfl
    cases ht.symm.trans hslot
  have hempty : ∀ k, 16 * child ≤ k → k < 16 * child + 16 → (s.mem.pgDir k).present = false :=
    fun k hk hk' => not_present_of_dirRef_none (d := ⟨k, by omega⟩) (by dsimp only; omega)
      (h.dirRef_none hslot (by dsimp only; omega))
  refine ⟨hok, hpos, hlt, hempty, ?_⟩
  rcases Nat.eq_zero_or_pos nr with rfl | hnr
  · have hstart : current.startCode = 0 := hok.startCode.trans (Nat.zero_mul _)
    rw [copiedEntries, if_pos hstart, hok.first rfl]
    exact hc.copyable_first hpos hempty
  · have hstart : current.startCode ≠ 0 := by
      rw [hok.startCode]
      unfold TASK_SIZE
      omega
    rw [copiedEntries, if_neg hstart]
    exact hc.copyable hnr hok.lt (dirCount_le hlimit) hne hempty

/-! ## A `fork` that fails -/

/-- Wherever `copy_page_tables` runs out of memory, `copy_process` returns `-EAGAIN`
and all is as before. -/
theorem failed_fork_restores (hf : Forkable nr child current s.mem) (hslot : s.task child = none)
    {m' : Memory} (hget : getFreePage s.mem = some (p, m))
    (hfail : copyPageTables current.startCode (child * TASK_SIZE) current.dataLimit m =
      .ok (false, m')) :
    ∃ s', copyProcessRet child pid current s = .ok (-EAGAIN, s') ∧ Restored child current s s' := by
  obtain ⟨ok, m'', hcopy, hcopied⟩ := copyDirs_refs
    (hf.copyable.alloc hget) copiedEntries_le
  rw [← copyPageTables_eq hf.task.startCode, hfail] at hcopy
  obtain ⟨rfl, rfl⟩ := Prod.mk.inj (Except.ok.inj hcopy)
  obtain ⟨m₂, hfree, hmap, hhigh, hempty, hread⟩ := hf.freed hget hcopied
  have hpage := freePage_task hget (hhigh ▸ hf.copyable.free p (getFreePage_free hget)) hmap
  have hmem : copyMem child current m = .ok (false, m₂) := by
    rw [copyMem, if_neg (Nat.not_lt.2 hf.task.codeLimit)]
    exact undo_eq_ok hfail hfree
  have htask : ∀ t, Function.update (Function.update s.task child (some t)) child none = s.task := by
    intro t
    rw [Function.update_idem]
    exact Function.update_eq_self_iff.2 hslot.symm
  refine ⟨{ s with mem := m₂.withCounts s.mem.memMap }, ?_, rfl, rfl, hempty, fun x hx => ?_⟩
  · simp only [copyProcessRet, hget, hmem, hpage, htask, bind, Except.bind, pure, Except.pure,
      Bool.false_eq_true, if_false]
  · rw [← hread x hx]
    exact read_withCounts m₂ _ _

/-- One page is free. -/
theorem findFree_of_only {memMap : ℕ → ℕ} {k n : ℕ} (hk : memMap (LOW_MEM + k) = 0)
    (hother : ∀ q, k < q → memMap (LOW_MEM + q) ≠ 0) (hlt : k < n) :
    findFree memMap n = some (LOW_MEM + k) := by
  induction n with
  | zero => cases hlt
  | succ n ih =>
      rw [findFree]
      rcases Nat.lt_succ_iff_lt_or_eq.1 hlt with hlt | rfl
      · rw [if_neg (hother n hlt)]
        exact ih hlt
      · rw [if_pos hk]

/-- A memory of one free page hands it out once. -/
theorem getFreePage_boot_only {k : ℕ} (hk : k < PAGING_PAGES) :
    ∃ m, getFreePage (Memory.boot (LOW_MEM + k) (LOW_MEM + k + 1)) = some (LOW_MEM + k, m) ∧
      getFreePage m = none := by
  have hmap : ∀ q, (Memory.boot (LOW_MEM + k) (LOW_MEM + k + 1)).memMap q =
      if q = LOW_MEM + k then 0 else USED := fun q => by
    rw [Memory.boot]
    exact if_congr (by omega) rfl rfl
  have hfree : findFree (Memory.boot (LOW_MEM + k) (LOW_MEM + k + 1)).memMap PAGING_PAGES =
      some (LOW_MEM + k) :=
    findFree_of_only (by rw [hmap, if_pos rfl])
      (fun q hq => by rw [hmap, if_neg (by omega)]; decide) hk
  obtain ⟨m, hget⟩ : ∃ m, getFreePage (Memory.boot (LOW_MEM + k) (LOW_MEM + k + 1)) =
      some (LOW_MEM + k, m) := by
    rw [getFreePage, hfree]
    exact ⟨_, rfl⟩
  refine ⟨m, hget, ?_⟩
  cases hnext : getFreePage m with
  | none => rfl
  | some handed =>
      obtain ⟨q, m'⟩ := handed
      obtain ⟨hq, hne⟩ := (getFreePage_free_iff hget).1 (getFreePage_free hnext)
      have hzero := hq.2.2
      rw [hmap, if_neg hne] at hzero
      cases hzero

/-- The first task forks and there is one page, which the new task gets. -/
theorem failed_fork_restores_boot : ∃ s',
    copyProcessRet 1 7 initTask (Sys.boot 256 257) = .ok (-EAGAIN, s') ∧
      Restored 1 initTask (Sys.boot 256 257) s' := by
  obtain ⟨m, hget, hnone⟩ := @getFreePage_boot_only 0 (by decide)
  have hfail : copyPageTables initTask.startCode (1 * TASK_SIZE) initTask.dataLimit m =
      .ok (false, m) := by
    have hcount : dirCount initTask.dataLimit = 1 := by decide
    have hstart : initTask.startCode = 0 * TASK_SIZE := (Nat.zero_mul _).symm
    have hpgDir : m.pgDir = (Memory.boot 256 257).pgDir := (getFreePage_pgDir hget).1
    rw [copyPageTables_eq hstart, hcount]
    simp [copyDirs, hpgDir, hnone, Memory.boot, Entry.user, Entry.zero]
  have hforkable : Forkable 0 1 initTask (Sys.boot 256 257).mem :=
    (Sys.inv_boot (by decide)).forkable rfl (by decide) (by decide) rfl
  exact failed_fork_restores hforkable rfl hget hfail

end Fork

/-! ## A page that is not counted -/

section Uncounted

variable {bounds : Bounds} {lost : List ℕ} {m : Memory} {s : Sys} {current : Task}

/-- The second process that gets a key maps the page, which is not counted again. -/
theorem sysShmget_attach {key : ℤ} {size i a : ℕ} {shm : Shm} (hsize : size ≤ PAGE_SIZE)
    (hid : shm.initKeyArrIfNot.getShmid key = some i)
    (hpid : (shm.initKeyArrIfNot.shareMemoryArr i).pid ≠ current.pid)
    (ha : (current.startCode + current.shmAddress) % 2 ^ 32 = a)
    (hdir : (m.pgDir (dirIndex a)).present) :
    (sysShmget key size current m shm).mem =
        m.setEntry (m.pgDir (dirIndex a)).frame (tableIndex a)
          (.user (shm.initKeyArrIfNot.shareMemoryArr i).page) ∧
      (sysShmget key size current m shm).current =
        { current with shareMemoryNum := current.shareMemoryNum + 1 } := by
  subst ha
  rw [Task.shmAddress] at hdir ⊢
  simp only [sysShmget, if_neg (Nat.not_lt.2 hsize), hid, if_neg hpid, shmMap, putPage, if_pos hdir,
    and_self]

theorem Sys.run_nil : Sys.run [] s = .ok s := rfl

theorem Sys.run_cons {a : Action} {as : List Action} {s₁ : Sys} {r : Except String Sys}
    (hexec : s.exec a = .ok s₁) (hrun : Sys.run as s₁ = r) : Sys.run (a :: as) s = r := by
  rw [Sys.run, List.foldlM_cons, hexec]
  exact hrun

theorem Sys.run_append {as bs : List Action} {s₁ : Sys} {r : Except String Sys}
    (has : Sys.run as s = .ok s₁) (hbs : Sys.run bs s₁ = r) : Sys.run (as ++ bs) s = r := by
  rw [Sys.run, List.foldlM_append, show List.foldlM Sys.exec s as = .ok s₁ from has]
  exact hbs

/-- The task that gets the page first, and the one that gets it then. -/
def sharer : Task :=
  { initTask with page := 4095, pid := 1, startCode := 1 * TASK_SIZE, shareMemoryNum := 1 }

def sharingParent : Task := { initTask with page := 4093, pid := 2, startCode := 2 * TASK_SIZE }

/-- Of five pages two are task structures, two are page tables, and one is mapped
by the first entry of task 1. -/
structure SharedByOne (s : Sys) : Prop where
  sharer : s.task 1 = some sharer
  parent : s.task 2 = some sharingParent
  slot : s.task 3 = none
  dirs : s.mem.pgDir 16 = .user 4094 ∧ s.mem.pgDir 32 = .user 4092 ∧
    (s.mem.pgDir 48).present = false
  entry : s.mem.table 4094 0 = { Entry.user 4091 with dirty := true }
  byte : s.mem.bytes 4091 0 = 9
  used : ∀ k < 5, s.mem.memMap (4091 + k) = 1
  key : s.shm.initKeyArrIfNot.getShmid 5 = some 0
  keyPage : (s.shm.initKeyArrIfNot.shareMemoryArr 0).page = 4091
  keyPid : (s.shm.initKeyArrIfNot.shareMemoryArr 0).pid = 1
  kernel : s.kernel = []

theorem sharedByOne_reached : ∃ s lost, Sys.run [.fork 0 1 1, .fork 0 2 2, .shmget 1 5 4096,
    .write 1 0 (fun _ => 0) 0 9] (.boot 4091 4096) = .ok s ∧ s.Inv ⟨4091, 4096⟩ lost ∧
      SharedByOne s := by
  obtain ⟨s₂, hrun₂, h₂⟩ := @Sys.Inv.run ⟨4091, 4096⟩ [.fork 0 1 1, .fork 0 2 2] [] _
    (Sys.inv_boot (by decide)) (by simp [Action.isShmget])
  have hsafe : ∀ s ∈ (Sys.run [.fork 0 1 1, .fork 0 2 2] (.boot 4091 4096)).toOption,
      s.ShmSafe (.shmget 1 5 4096) := by decide +kernel
  obtain ⟨s₃, lost, hget, h₃⟩ := h₂.execSafe (hsafe s₂ (toOption_eq_some.2 hrun₂))
  obtain ⟨s, hwrite, h⟩ := h₃.exec (a := .write 1 0 (fun _ => 0) 0 9) rfl
  have hrun := Sys.run_append hrun₂ (Sys.run_cons hget (Sys.run_cons hwrite Sys.run_nil))
  rw [List.cons_append, List.cons_append, List.nil_append] at hrun
  have hview : ∀ s ∈ (Sys.run [.fork 0 1 1, .fork 0 2 2, .shmget 1 5 4096,
      .write 1 0 (fun _ => 0) 0 9] (.boot 4091 4096)).toOption,
      s.task 1 = some sharer ∧ s.task 2 = some sharingParent ∧ s.task 3 = none ∧
      (s.mem.pgDir 16 = .user 4094 ∧ s.mem.pgDir 32 = .user 4092 ∧
        (s.mem.pgDir 48).present = false) ∧
      s.mem.table 4094 0 = { Entry.user 4091 with dirty := true } ∧ s.mem.bytes 4091 0 = 9 ∧
      (∀ k < 5, s.mem.memMap (4091 + k) = 1) ∧ s.shm.initKeyArrIfNot.getShmid 5 = some 0 ∧
      (s.shm.initKeyArrIfNot.shareMemoryArr 0).page = 4091 ∧
      (s.shm.initKeyArrIfNot.shareMemoryArr 0).pid = 1 ∧ s.kernel = [] := by
    decide +kernel
  obtain ⟨h₁, h₂, h₃, h₄, h₅, h₆, h₇, h₈, h₉, h₁₀, h₁₁⟩ := hview s (toOption_eq_some.2 hrun)
  exact ⟨s, lost, hrun, h, h₁, h₂, h₃, h₄, h₅, h₆, h₇, h₈, h₉, h₁₀, h₁₁⟩

/-- The counts after the exit of task 1. -/
def exitCounts (s : Sys) (p : ℕ) : ℕ := if p = 4091 ∨ p = 4094 then 0 else s.mem.memMap p

namespace SharedByOne

/-- Task 1 maps no other page from `LOW_MEM` on. -/
theorem entries (hs : SharedByOne s) (h : s.Inv ⟨4091, 4096⟩ lost) {k p : ℕ} (hk : k < 1024)
    (hp : (s.mem.table 4094 k).page = some p) (hlow : LOW_MEM ≤ p) : p = 4091 ∧ k = 0 := by
  obtain ⟨held, hc, hheld⟩ := h.pages
  obtain ⟨hdir, hdir', -⟩ := hs.dirs
  have ht : dirRef s.mem ⟨16, by omega⟩ = some 4094 :=
    dirRef_of_page (show 4 ≤ 16 by omega) (by rw [hdir]; rfl)
  have ht' : dirRef s.mem ⟨32, by omega⟩ = some 4092 :=
    dirRef_of_page (show 4 ≤ 32 by omega) (by rw [hdir']; rfl)
  obtain ⟨e, he, rfl⟩ := entryAt_of_page (i := ⟨k, hk⟩) ht hp
  have hrange := hc.counted.managed (refOf_entry he) hlow
  have hnot := hc.counted.notMem_held (refOf_entry he)
  have htask : e.frame ≠ 4095 ∧ e.frame ≠ 4093 :=
    ⟨fun heq => hnot (hheld.task _ ⟨1, _, le_rfl, hs.sharer, heq.symm⟩),
      fun heq => hnot (hheld.task _ ⟨2, _, by decide, hs.parent, heq.symm⟩)⟩
  have htable := hc.entry_ne_table he ht
  have htable' := hc.entry_ne_table he ht'
  have hframe : e.frame = 4091 := by
    rw [hc.high] at hrange
    dsimp only at hrange
    omega
  refine ⟨hframe, ?_⟩
  -- the entry of the shared page can be written, so that it is the only one
  have he₀ : entryAt s.mem (⟨16, by omega⟩, ⟨0, by omega⟩) = some (s.mem.table 4094 0) :=
    entryAt_eq_some.2 ⟨4094, ht, by rw [hs.entry]; rfl, rfl⟩
  have hunique := hc.writable_unique he₀ (by rw [hs.entry]; rfl)
    ((refOf_entry he).trans (by rw [hframe, hs.entry]; rfl))
  exact congrArg (fun y : Fin 1024 × Fin 1024 => y.2.val) (Sum.inr.inj hunique)

theorem count_ne_zero (hs : SharedByOne s) (h : s.Inv ⟨4091, 4096⟩ lost) {p : ℕ}
    (hlow : LOW_MEM ≤ p) : s.mem.memMap p ≠ 0 := by
  obtain ⟨held, hc, -⟩ := h.pages
  by_cases hp : 4091 ≤ p ∧ p < 4096
  · have hone := hs.used (p - 4091) (by omega)
    rw [Nat.add_sub_cancel' hp.1] at hone
    omega
  · refine hc.counted.reserved p hlow ?_
    rw [hc.high]
    dsimp only
    omega

theorem entryRefs_eq (hs : SharedByOne s) (h : s.Inv ⟨4091, 4096⟩ lost) (p : ℕ) :
    entryRefs (s.mem.table 4094) p 1024 0 = if p = 4091 then 1 else 0 := by
  by_cases hp : p = 4091
  · subst hp
    have hle := @entryRefs_le_one (s.mem.table 4094) 1024 0 4091 fun k l _ hkl hl hk hl' => by
      obtain ⟨-, hzero⟩ := hs.entries h (by omega) hl' (by decide)
      omega
    have hpos := @entryRefs_pos (s.mem.table 4094) 1024 0 4091 0 le_rfl (by omega) (by decide)
      (by rw [hs.entry]; rfl)
    rw [if_pos rfl]
    omega
  · rw [if_neg hp]
    by_contra hpos
    obtain ⟨hlow, k, -, hk, hpage⟩ := exists_of_entryRefs_pos (Nat.pos_of_ne_zero hpos)
    exact hp (hs.entries h (by omega) hpage hlow).1

/-- Task 1 gives back its table and the page, which task 2 maps by now. -/
theorem exit (hs : SharedByOne s) (h : s.Inv ⟨4091, 4096⟩ lost) :
    ∃ m, freeSegments Mm.sharer (s.mem.setEntry 4092 0 (.user 4091)) = .ok (m.setDir 16 .zero) ∧
      m.memMap = exitCounts s ∧ OnlyTable 4094 (s.mem.setEntry 4092 0 (.user 4091)) m := by
  obtain ⟨held, hc, -⟩ := h.pages
  have hhigh : s.mem.highMemory = 4096 := hc.high
  have htable : (s.mem.setEntry 4092 0 (.user 4091)).table 4094 = s.mem.table 4094 :=
    setEntry_table_ne s.mem (show 4094 ≠ 4092 by omega) ..
  have hdir : (s.mem.setEntry 4092 0 (.user 4091)).pgDir 16 = .user 4094 := hs.dirs.1
  have hone : s.mem.memMap 4091 = 1 := hs.used 0 (by omega)
  have htwo : s.mem.memMap 4094 = 1 := hs.used 3 (by omega)
  obtain ⟨m, hfree, hmap, honly⟩ := @freeDir_undo (s.mem.setEntry 4092 0 (.user 4091))
    (exitCounts s) 16 4094 (by rw [hdir]; rfl)
    (fun p => by
      rw [htable, hs.entryRefs_eq h, hdir, Entry.refs, exitCounts]
      change s.mem.memMap p = _
      by_cases hp : p = 4091
      · subst hp
        rw [if_pos (.inl rfl), if_pos rfl, if_neg (by decide), hone]
      · by_cases hp' : p = 4094
        · subst hp'
          rw [if_pos (.inr rfl), if_neg hp, if_pos (by decide), htwo]
        · rw [if_neg (by omega), if_neg hp, if_neg fun hno => hp' (Option.some.inj hno.2).symm]
          omega)
    (fun i hi p hp hlow => by
      rw [htable] at hp
      obtain ⟨rfl, -⟩ := hs.entries h hi hp hlow
      change 4091 < s.mem.highMemory ∧ s.mem.memMap 4091 ≤ 255
      omega)
    (by
      change 4094 < s.mem.highMemory ∧ s.mem.memMap 4094 ≤ 255
      omega)
  have hfirst : freePageTables Mm.sharer.startCode 0xA0000 (s.mem.setEntry 4092 0 (.user 4091)) =
      .ok (m.setDir 16 .zero) := by
    refine (freePageTables_eq le_rfl _ _).trans ?_
    rw [show dirCount 0xA0000 = 1 by decide, freeDirs, hfree]
    rfl
  have hagain : freePageTables Mm.sharer.startCode 0xA0000 (m.setDir 16 .zero) =
      .ok (m.setDir 16 .zero) := by
    refine (freePageTables_eq le_rfl _ _).trans ?_
    rw [show dirCount 0xA0000 = 1 by decide, freeDirs, freeDir,
      if_neg (by simp [Memory.setDir, Entry.zero])]
    rfl
  refine ⟨m, ?_, hmap, honly⟩
  rw [freeSegments, show Mm.sharer.codeLimit = 0xA0000 from rfl,
    show Mm.sharer.dataLimit = 0xA0000 from rfl, hfirst]
  exact hagain

/-- The free pages are taken from above. -/
theorem findFree_exit (hs : SharedByOne s) (h : s.Inv ⟨4091, 4096⟩ lost) :
    findFree (exitCounts s) PAGING_PAGES = some 4094 ∧
      findFree (Function.update (exitCounts s) 4094 1) PAGING_PAGES = some 4091 := by
  have hlow : LOW_MEM = 256 := rfl
  have hexit : ∀ k, 3835 < k → k ≠ 3838 → exitCounts s (LOW_MEM + k) ≠ 0 := fun k hk hne => by
    rw [exitCounts, if_neg (by omega)]
    exact hs.count_ne_zero h (by omega)
  constructor
  · exact @findFree_of_only (exitCounts s) 3838 _ rfl (fun k hk => hexit k (by omega) (by omega))
      (by decide)
  · refine @findFree_of_only _ 3835 _ rfl (fun k hk => ?_) (by decide)
    by_cases heq : k = 3838
    · subst heq
      exact Nat.one_ne_zero
    · rw [Function.update_of_ne (by omega)]
      exact hexit k hk heq

end SharedByOne

/-- The first address of task 2. -/
theorem read_shared (hdir : m.pgDir 32 = .user 4092) (htable : m.table 4092 0 = .user 4091) :
    m.read (2 * TASK_SIZE) = some (m.bytes 4091 0) := by
  rw [read_eq_page, show dirIndex (2 * TASK_SIZE) = 32 by decide,
    show tableIndex (2 * TASK_SIZE) = 0 by decide, hdir,
    show (Entry.user 4092).page = some 4092 from rfl, Option.bind_some, htable]
  rfl

theorem getFreePage_of_find {p : ℕ} (h : findFree m.memMap PAGING_PAGES = some p) :
    getFreePage m = some (p, (m.setCount p 1).clearPage p) := by
  rw [getFreePage, h, Option.map_some]

/-- The page that task 2 maps by its first entry is the only free one. -/
structure FreeWhileMapped (s : Sys) (current : Task) : Prop where
  parent : s.task 2 = some current
  slot : s.task 3 = none
  start : current.startCode = 2 * TASK_SIZE
  limits : current.codeLimit = 0xA0000 ∧ current.dataLimit = 0xA0000
  dirs : s.mem.pgDir 32 = .user 4092 ∧ (s.mem.pgDir 48).present = false
  entry : s.mem.table 4092 0 = .user 4091
  byte : s.mem.bytes 4091 0 = 9
  high : s.mem.highMemory = 4096
  find : findFree s.mem.memMap PAGING_PAGES = some 4091
  used : ∀ p, LOW_MEM ≤ p → p ≠ 4091 → s.mem.memMap p ≠ 0

/-- Task 1 exits, and the kernel takes the page of its table. -/
theorem freeWhileMapped_reached : ∃ s current,
    Sys.run [.fork 0 1 1, .fork 0 2 2, .shmget 1 5 4096, .write 1 0 (fun _ => 0) 0 9,
      .shmget 2 5 4096, .exit 1, .allocate] (.boot 4091 4096) = .ok s ∧
    FreeWhileMapped s current := by
  obtain ⟨s, lost, hrun, h, hs⟩ := sharedByOne_reached
  obtain ⟨m, hfree, hmap, honly⟩ := hs.exit h
  obtain ⟨hfind, hfind'⟩ := hs.findFree_exit h
  obtain ⟨hmem, hcurrent⟩ := @sysShmget_attach s.mem sharingParent 5 4096 0 (2 * TASK_SIZE) s.shm
    (by decide) hs.key (by rw [hs.keyPid]; decide) (by decide)
    (by rw [show dirIndex (2 * TASK_SIZE) = 32 by decide, hs.dirs.2.1]; rfl)
  rw [show dirIndex (2 * TASK_SIZE) = 32 by decide, show tableIndex (2 * TASK_SIZE) = 0 by decide,
    hs.dirs.2.1, show (Entry.user 4092).frame = 4092 from rfl, hs.keyPage] at hmem
  have hget := getFreePage_of_find (m := m.setDir 16 .zero) (hmap ▸ hfind)
  generalize hm₁ : ((m.setDir 16 .zero).setCount 4094 1).clearPage 4094 = m₁ at hget
  have hmap₁ : m₁.memMap = Function.update (exitCounts s) 4094 1 := by
    rw [← hm₁, ← hmap]
    rfl
  have hpgDir : m₁.pgDir = Function.update s.mem.pgDir 16 .zero := by
    rw [← hm₁]
    exact congrArg (Function.update · 16 Entry.zero) honly.pgDir
  -- the run
  generalize hr : sysShmget 5 4096 sharingParent s.mem s.shm = r at hmem hcurrent
  have hshmget : s.exec (.shmget 2 5 4096) =
      .ok ⟨r.mem, Function.update s.task 2 (some r.current), s.kernel, r.shm⟩ := by
    rw [Sys.exec, Sys.live_eq_some.2 ⟨hs.parent, by decide, rfl⟩, ← hr]
  have hexit : Sys.exec ⟨r.mem, Function.update s.task 2 (some r.current), s.kernel, r.shm⟩
      (.exit 1) = .ok ⟨m.setDir 16 .zero, Function.update (Function.update s.task 2 (some r.current))
        1 (some { sharer with executable := none, zombie := true }), s.kernel, r.shm⟩ := by
    have hlive : Sys.live ⟨r.mem, Function.update s.task 2 (some r.current), s.kernel, r.shm⟩ 1 =
        some sharer := Sys.live_eq_some.2 ⟨hs.sharer, le_rfl, rfl⟩
    rw [Sys.exec, hlive]
    dsimp only
    rw [doExit, show Sys.mem ⟨r.mem, _, s.kernel, r.shm⟩ = _ from hmem, hfree]
    rfl
  have halloc : Sys.exec ⟨m.setDir 16 .zero, Function.update (Function.update s.task 2
      (some r.current)) 1 (some { sharer with executable := none, zombie := true }), s.kernel, r.shm⟩
      .allocate = .ok ⟨m₁, Function.update (Function.update s.task 2 (some r.current)) 1
        (some { sharer with executable := none, zombie := true }), 4094 :: s.kernel, r.shm⟩ := by
    rw [Sys.exec, hget]
  have hall := Sys.run_append hrun
    (Sys.run_cons hshmget (Sys.run_cons hexit (Sys.run_cons halloc Sys.run_nil)))
  rw [List.cons_append, List.cons_append, List.cons_append, List.cons_append, List.nil_append] at hall
  -- the memory after it
  refine ⟨_, r.current, hall, ?_, hs.slot, by rw [hcurrent]; rfl, by rw [hcurrent]; exact ⟨rfl, rfl⟩,
    ⟨?_, ?_⟩, ?_, ?_, ?_, ?_, fun p hlow hp => ?_⟩ <;> dsimp only
  · rw [Function.update_of_ne (by omega), Function.update_self]
  · rw [hpgDir, Function.update_of_ne (by omega), hs.dirs.2.1]
  · rw [hpgDir, Function.update_of_ne (by omega), hs.dirs.2.2]
  · rw [getFreePage_table_ne hget (by omega)]
    change m.table 4092 0 = _
    rw [honly.table 4092 (by omega), setEntry_table_self, Function.update_self]
  · rw [getFreePage_bytes_ne hget (by omega)]
    exact (congrFun (congrFun honly.bytes 4091) 0).trans hs.byte
  · obtain ⟨held, hc, -⟩ := h.pages
    rw [(getFreePage_pgDir hget).2]
    exact honly.highMemory.trans hc.high
  · rw [hmap₁, hfind']
  · rw [hmap₁, Function.update_apply]
    split
    next => exact Nat.one_ne_zero
    next hne =>
        rw [exitCounts, if_neg (by omega)]
        exact hs.count_ne_zero h hlow

namespace FreeWhileMapped

theorem read (hs : FreeWhileMapped s current) : s.mem.read (2 * TASK_SIZE) = some 9 := by
  rw [read_shared hs.dirs.1 hs.entry, hs.byte]

/-- A `fork` of task 2 takes the page for the new task, finds none for the table
and gives the page back, which `get_free_page` has cleared. -/
theorem fork (hs : FreeWhileMapped s current) : ∃ m s', getFreePage s.mem = some (4091, m) ∧
    copyPageTables current.startCode (3 * TASK_SIZE) current.dataLimit m = .ok (false, m) ∧
    copyProcessRet 3 7 current s = .ok (-EAGAIN, s') ∧ s'.mem.read (2 * TASK_SIZE) = some 0 := by
  have hget := getFreePage_of_find hs.find
  generalize hm : (s.mem.setCount 4091 1).clearPage 4091 = m at hget
  obtain ⟨hpgDir, hhigh⟩ := getFreePage_pgDir hget
  have hdir : m.pgDir 32 = .user 4092 := by rw [hpgDir, hs.dirs.1]
  have hslot : (m.pgDir 48).present = false := by rw [hpgDir, hs.dirs.2]
  have hcount : dirCount current.dataLimit = 1 := by
    rw [hs.limits.2]
    decide
  have hnone : getFreePage m = none := by
    cases hnext : getFreePage m with
    | none => rfl
    | some handed =>
        obtain ⟨hq, hne⟩ := (getFreePage_free_iff hget).1 (getFreePage_free hnext)
        exact absurd hq.2.2 (hs.used _ hq.1 hne)
  have hcopy : copyPageTables current.startCode (3 * TASK_SIZE) current.dataLimit m =
      .ok (false, m) := by
    rw [copyPageTables_eq hs.start, hcount, copyDirs, if_neg (by simp [hslot]),
      if_neg (by rw [hdir]; simp [Entry.user]), hnone]
  have hmem : copyMem 3 current m = .ok (false, m) := by
    have hfree : freePageTables (3 * TASK_SIZE) current.dataLimit m = .ok m := by
      rw [freePageTables_eq (by omega), hcount, freeDirs, freeDir, if_neg (by simp [hslot])]
      rfl
    rw [copyMem, if_neg (by rw [hs.limits.1, hs.limits.2]; decide)]
    exact undo_eq_ok hcopy hfree
  have hpage : freePage 4091 m = .ok (m.decCount 4091) := by
    rw [freePage, if_neg (by decide), hhigh, hs.high, if_neg (by omega), memMap_of_getFreePage hget,
      Function.update_self, if_pos (by omega)]
  obtain ⟨task, hret⟩ := @copyProcessRet_failed m _ _ s 3 4091 7 current hget hmem hpage
  refine ⟨m, _, hget, hcopy, hret, ?_⟩
  change (m.decCount 4091).read (2 * TASK_SIZE) = _
  rw [read_shared (m := m.decCount 4091) hdir
    ((congrFun (getFreePage_table_ne hget (by omega)) 0).trans hs.entry), ← hm]
  change some (Function.update s.mem.bytes 4091 (fun _ => 0) 4091 0) = _
  rw [Function.update_self]

end FreeWhileMapped

/-- Task 1 exits and a page that task 2 maps counts as free.  A `fork` of task 2
that fails clears it for the new task, and the parent reads 0 where it read 9. -/
theorem failed_fork_clears_shared : ∃ s current m m' s',
    Sys.run [.fork 0 1 1, .fork 0 2 2, .shmget 1 5 4096, .write 1 0 (fun _ => 0) 0 9,
      .shmget 2 5 4096, .exit 1, .allocate] (.boot 4091 4096) = .ok s ∧
    s.task 2 = some current ∧ s.task 3 = none ∧ getFreePage s.mem = some (4091, m) ∧
    copyPageTables current.startCode (3 * TASK_SIZE) current.dataLimit m = .ok (false, m') ∧
    copyProcessRet 3 7 current s = .ok (-EAGAIN, s') ∧ ¬Restored 3 current s s' := by
  obtain ⟨s, current, hrun, hs⟩ := freeWhileMapped_reached
  obtain ⟨m, s', hget, hcopy, hret, hafter⟩ := hs.fork
  refine ⟨s, current, m, m, s', hrun, hs.parent, hs.slot, hget, hcopy, hret, fun hrestored => ?_⟩
  have hread := hrestored.read 0 (by rw [hs.limits.2]; decide)
  rw [Nat.add_zero, hs.start, hs.read, hafter] at hread
  cases hread

end Uncounted

end MyJavaExample.Mm
