import MyJavaExample.Lib.Run
import MyJavaExample.Mm.Isolation

/-!
# Runs of the memory management

From boot on, as long as `sys_shmget` is not called, no action panics, every
count is the number of references and a page that a task can write has one
entry.
-/

namespace MyJavaExample.Mm

open Lib

/-! ## Boot -/

section Boot

variable {start high : ℕ}

theorem dirRef_boot (d : Fin 1024) : dirRef (.boot start high) d = none := by
  rw [dirRef]
  refine if_neg ?_
  rintro ⟨hd4, hpresent⟩
  rw [Memory.boot] at hpresent
  dsimp only at hpresent
  rw [if_neg (by omega)] at hpresent
  cases hpresent

theorem refOf_boot (r : Place) : refOf (.boot start high) r = none := by
  rcases r with d | ⟨d, i⟩
  · exact dirRef_boot d
  · rw [refOf, Sum.elim_inr, entryAt_of_dirRef_none (dirRef_boot d), Option.map_none]

theorem consistent_boot (hstart : LOW_MEM ≤ start) : Consistent ⟨start, high⟩ (.boot start high) [] := by
  have hnone : ∀ {r : Place} {p : ℕ}, refOf (.boot start high) r ≠ some p := by
    intro r p hr
    rw [refOf_boot] at hr
    cases hr
  refine ⟨⟨hstart, fun p h₁ h₂ => ?_, fun p hlow hout => ?_, fun r p hr => absurd hr hnone,
    fun d t hd => absurd hd hnone, fun p hp => ?_, fun d i d' i' p h₁ => absurd h₁ hnone⟩,
    fun x e he => absurd (refOf_entry he) hnone, ⟨?_, fun i hi => ?_⟩, rfl⟩
  · rw [refCount_eq_zero fun r => hnone]
    exact if_pos ⟨h₁, h₂⟩
  · have hused : (Memory.boot start high).memMap p = USED := if_neg fun hno =>
      hout.elim (Nat.not_lt.2 hno.1) (Nat.not_le.2 hno.2)
    rw [hused]
    decide
  · cases hp
  · exact show 1 < LOW_MEM by decide
  · have hframe : ((Memory.boot start high).table ((Memory.boot start high).pgDir 0).frame i).frame =
        i := by
      change ((1 - 1) * 1024 + i) = i
      omega
    rw [hframe]
    unfold LOW_MEM
    omega

theorem Sys.inv_boot (hstart : LOW_MEM ≤ start) : (Sys.boot start high).Inv ⟨start, high⟩ [] := by
  have htask : ∀ nr t, (Sys.boot start high).task nr = some t → nr = 0 ∧ t = initTask := by
    intro nr t ht
    by_cases hzero : nr = 0
    · subst hzero
      cases ht
      exact ⟨rfl, rfl⟩
    · rw [Sys.boot] at ht
      dsimp only at ht
      rw [if_neg hzero] at ht
      cases ht
  have hpage : ∀ p, ¬(Sys.boot start high).IsTaskPage p := by
    rintro p ⟨nr, t, hpos, ht, -⟩
    have := (htask nr t ht).1
    omega
  refine ⟨⟨[], consistent_boot hstart, fun p hp => absurd hp (hpage p), fun p hp => ?_,
    fun p hp => ?_⟩, fun nr nr' t t' hpos _ ht _ _ => ?_, ⟨List.nodup_nil, fun p _ => hpage p⟩,
    fun nr t ht => ?_, fun d t hd => ?_⟩
  · cases hp
  · cases hp
  · have := (htask nr t ht).1
    omega
  · obtain ⟨rfl, rfl⟩ := htask nr t ht
    exact ⟨by decide, rfl, le_rfl, by decide, fun _ => rfl⟩
  · rw [show dirRef (Sys.boot start high).mem d = none from dirRef_boot d] at hd
    cases hd

end Boot

/-! ## Steps -/

/-- An action other than `sys_shmget`. -/
def Action.isShmget : Action → Bool
  | .shmget _ _ _ => true
  | _ => false

section Steps

variable {bounds : Bounds} {lost : List ℕ} {s : Sys}

theorem Sys.Inv.writeVerify (h : s.Inv bounds lost) {nr : ℕ} {current : Task}
    (hlive : s.live nr = some current) {x : ℕ} (hx : x < current.dataLimit) {m : Memory}
    (hverify : Mm.writeVerify (current.startCode + x) s.mem = some m) :
    Sys.Inv bounds lost { s with mem := m } := by
  obtain ⟨held, hc, hheld⟩ := h.pages
  obtain ⟨-, hd, hi, hd4, -⟩ := h.lookup hlive hx s.mem
  unfold Mm.writeVerify at hverify
  rw [hd, hi] at hverify
  dsimp only at hverify
  split at hverify
  next hpresent =>
    have hdir := dirRef_eq_some.2 ⟨hd4, hpresent.1, rfl⟩
    have he := entryAt_eq_some.2 ⟨_, hdir, hpresent.2.1, rfl⟩
    obtain ⟨hc', hdir', -⟩ := unWpPage_spec hc hdir he hverify
    exact h.setMem hc' hheld (by
      rw [hdir']
      exact h.dirs)
  next =>
    cases hverify
    exact h

theorem Sys.Inv.doWpPage (h : s.Inv bounds lost) {nr : ℕ} {current : Task}
    (hlive : s.live nr = some current) {x : ℕ} (hx : x < current.dataLimit)
    (hpresent : s.mem.lookup (current.startCode + x) ≠ none) {m : Memory}
    (hwp : Mm.doWpPage (current.startCode + x) s.mem = some m) :
    Sys.Inv bounds lost { s with mem := m } := by
  obtain ⟨held, hc, hheld⟩ := h.pages
  obtain ⟨hlookup, hd, hi, hd4, -⟩ := h.lookup hlive hx s.mem
  rw [hlookup] at hpresent
  obtain ⟨e, he⟩ := Option.ne_none_iff_exists'.1 hpresent
  obtain ⟨t, hdir, -, -⟩ := entryAt_eq_some.1 he
  rw [Mm.doWpPage, hd, hi, (dirRef_eq_some.1 hdir).2.2] at hwp
  obtain ⟨hc', hdir', -⟩ := unWpPage_spec hc hdir he hwp
  exact h.setMem hc' hheld (by
    rw [hdir']
    exact h.dirs)

/-- The invariant is not about the shared memory. -/
theorem Sys.Inv.setShm (h : s.Inv bounds lost) (shm : Shm) : Sys.Inv bounds lost { s with shm } := by
  obtain ⟨held, hc, hheld⟩ := h.pages
  exact ⟨⟨held, hc, hheld.task, hheld.kernel, hheld.only⟩, h.distinct, h.kernel, h.tasks, h.dirs⟩

/-- A function that maps a page for an address of a task. -/
theorem Sys.Inv.settleAt (h : s.Inv bounds lost) {nr : ℕ} {current : Task}
    (hlive : s.live nr = some current) {x : ℕ} (hx : x < current.dataLimit) {outcome : Outcome}
    (houtcome : ∀ held, Consistent bounds s.mem held →
      Settled bounds held s.mem (place nr x).1 outcome) :
    ∃ s', s.settle nr current outcome = .ok s' ∧ s'.Inv bounds lost := by
  obtain ⟨held, hc, hheld⟩ := h.pages
  obtain ⟨-, -, -, -, howned⟩ := h.lookup hlive hx s.mem
  exact h.settle hlive howned hheld (houtcome held hc)

/-- Every action but `sys_shmget` keeps the invariant and does not panic. -/
theorem Sys.Inv.exec (h : s.Inv bounds lost) {a : Action} (ha : a.isShmget = false) :
    ∃ s', s.exec a = .ok s' ∧ s'.Inv bounds lost := by
  cases a with
  | allocate =>
      rw [Sys.exec]
      cases hget : getFreePage s.mem with
      | none => exact ⟨s, rfl, h⟩
      | some handed => exact ⟨_, rfl, h.allocate hget⟩
  | free page =>
      rw [Sys.exec]
      split
      next hp =>
        obtain ⟨m, hfree, h'⟩ := h.free hp
        exact ⟨_, by rw [hfree]; rfl, h'⟩
      next => exact ⟨s, rfl, h⟩
  | fill page content =>
      rw [Sys.exec]
      split
      next => exact ⟨_, rfl, h.fill content⟩
      next => exact ⟨s, rfl, h⟩
  | put nr page x =>
      rw [Sys.exec]
      cases hlive : s.live nr with
      | none => exact ⟨s, rfl, h⟩
      | some current =>
          dsimp only
          split
          next hcond =>
            cases hput : putPage page (current.startCode + x) s.mem with
            | none => exact ⟨s, rfl, h⟩
            | some m => exact ⟨_, rfl, h.put hlive hcond.1 hcond.2 hput⟩
          next => exact ⟨s, rfl, h⟩
  | getEmptyPage nr x =>
      rw [Sys.exec]
      cases hlive : s.live nr with
      | none => exact ⟨s, rfl, h⟩
      | some current =>
          dsimp only
          split
          next habsent =>
            refine h.settleAt hlive habsent.1 fun held hc => ?_
            obtain ⟨hlookup, hd, hi, hd4, -⟩ := h.lookup hlive habsent.1 s.mem
            exact (getEmptyPage_spec hc hd hi hd4 (hlookup ▸ habsent.2)).settled
          next => exact ⟨s, rfl, h⟩
  | tryToShare nr p x =>
      rw [Sys.exec]
      cases hlive : s.live nr with
      | none => exact ⟨s, rfl, h⟩
      | some current =>
          cases hsource : s.live p with
          | none => exact ⟨s, rfl, h⟩
          | some source =>
              dsimp only
              split
              next hcond =>
                obtain ⟨ht, hpos, -⟩ := Sys.live_eq_some.1 hsource
                obtain ⟨held, hc, hheld⟩ := h.pages
                obtain ⟨-, -, -, -, howned⟩ := h.lookup hlive hcond.2.1 s.mem
                have hshares := h.shares hlive ht hpos hcond.1.symm hcond.2 rfl hc
                cases hshare : Mm.tryToShare x source.startCode current.startCode s.mem with
                | shared m =>
                    rw [hshare] at hshares
                    exact ⟨_, rfl, h.setMem hshares.1 hheld (h.owned_of_ne howned hshares.2.1)⟩
                | notShared => exact ⟨s, rfl, h⟩
                | oom => exact h.doExit hlive
                | panic message =>
                    rw [hshare] at hshares
                    exact hshares.elim
              next => exact ⟨s, rfl, h⟩
  | doNoPage nr iCount content x =>
      rw [Sys.exec]
      cases hlive : s.live nr with
      | none => exact ⟨s, rfl, h⟩
      | some current =>
          dsimp only
          split
          next habsent =>
            exact h.settleAt hlive habsent.1 fun held hc =>
              (h.doNoPage hlive habsent hc iCount content).settled
          next => exact ⟨s, rfl, h⟩
  | doWpPage nr x =>
      rw [Sys.exec]
      cases hlive : s.live nr with
      | none => exact ⟨s, rfl, h⟩
      | some current =>
          dsimp only
          split
          next hcond =>
            cases hwp : Mm.doWpPage (current.startCode + x) s.mem with
            | none => exact h.doExit hlive
            | some m => exact ⟨_, rfl, h.doWpPage hlive hcond.1 hcond.2 hwp⟩
          next => exact ⟨s, rfl, h⟩
  | writeVerify nr x =>
      rw [Sys.exec]
      cases hlive : s.live nr with
      | none => exact ⟨s, rfl, h⟩
      | some current =>
          dsimp only
          split
          next hx =>
            cases hverify : Mm.writeVerify (current.startCode + x) s.mem with
            | none => exact h.doExit hlive
            | some m => exact ⟨_, rfl, h.writeVerify hlive hx hverify⟩
          next => exact ⟨s, rfl, h⟩
  | write nr iCount content x v =>
      rw [Sys.exec]
      cases hlive : s.live nr with
      | none => exact ⟨s, rfl, h⟩
      | some current =>
          dsimp only
          split
          next hx =>
            exact h.settleAt hlive hx fun held hc =>
              (h.userWrite hlive hx hc iCount content v).settled
          next => exact ⟨s, rfl, h⟩
  | fork nr child pid =>
      rw [Sys.exec]
      cases ht : s.task nr with
      | none => exact ⟨s, rfl, h⟩
      | some current =>
          dsimp only
          split
          next hcond => exact h.copyProcess ht hcond.2.1 hcond.2.2.1 hcond.2.2.2 pid
          next => exact ⟨s, rfl, h⟩
  | exit nr =>
      rw [Sys.exec]
      cases hlive : s.live nr with
      | none => exact ⟨s, rfl, h⟩
      | some current => exact h.doExit hlive
  | release nr =>
      rw [Sys.exec]
      cases ht : s.task nr with
      | none => exact ⟨s, rfl, h⟩
      | some p =>
          dsimp only
          split
          next hcond => exact h.release ht hcond.1 hcond.2
          next => exact ⟨s, rfl, h⟩
  | execve nr aText aData inode =>
      rw [Sys.exec]
      cases hlive : s.live nr with
      | none => exact ⟨s, rfl, h⟩
      | some current =>
          dsimp only
          split
          next hsize => exact h.doExecve hlive hsize inode
          next => exact ⟨s, rfl, h⟩
  | shmget nr key size => cases ha
  | shmat nr shmid => exact ⟨_, rfl, h.setShm _⟩

end Steps

/-! ## Runs without shared memory -/

section Runs

variable {bounds : Bounds} {start high : ℕ} {as : List Action}

theorem Sys.Inv.run {lost : List ℕ} {s : Sys} (h : s.Inv bounds lost)
    (has : ∀ a ∈ as, a.isShmget = false) : ∃ s', Sys.run as s = .ok s' ∧ s'.Inv bounds lost := by
  induction as generalizing s with
  | nil => exact ⟨s, rfl, h⟩
  | cons a as ih =>
      obtain ⟨s₁, hexec, h₁⟩ := h.exec (has a List.mem_cons_self)
      obtain ⟨s', hrun, h'⟩ := ih h₁ fun b hb => has b (List.mem_cons_of_mem a hb)
      refine ⟨s', ?_, h'⟩
      rw [Sys.run, List.foldlM_cons, hexec]
      exact hrun

/-- In every run without `sys_shmget` nothing panics, and the count of a page
that is not one of the kernel's own is the number of the entries, of the tables
and of the directory, that refer to it. -/
theorem page_counts (hstart : LOW_MEM ≤ start) (has : ∀ a ∈ as, a.isShmget = false) :
    ∃ s, Sys.run as (.boot start high) = .ok s ∧
      ∀ p, start ≤ p → p < high → ¬s.IsTaskPage p → p ∉ s.kernel →
        s.mem.memMap p = refCount (refOf s.mem) p := by
  obtain ⟨s, hrun, h⟩ := (@Sys.inv_boot start high hstart).run has
  refine ⟨s, hrun, fun p h₁ h₂ htask hkernel => ?_⟩
  obtain ⟨held, hc, hheld⟩ := h.pages
  have hnot : p ∉ held := fun hp => by
    rcases hheld.only p hp with hp | hp | hp
    · exact htask hp
    · exact hkernel hp
    · cases hp
  rw [hc.counted.counts p h₁ (hc.high ▸ h₂), List.count_eq_zero_of_not_mem hnot, Nat.add_zero]

theorem page_counts_forks : ∃ s,
    Sys.run [.fork 0 1 1, .execve 1 8192 4096 7, .write 1 1 (fun _ => 3) 5000 9, .fork 1 2 2,
      .write 2 2 (fun _ => 3) 5000 8, .exit 1, .release 1] (.boot 1024 4096) = .ok s ∧
      ∀ p, 1024 ≤ p → p < 4096 → ¬s.IsTaskPage p → p ∉ s.kernel →
        s.mem.memMap p = refCount (refOf s.mem) p :=
  page_counts (by decide) (by simp [Action.isShmget])

/-! ## Isolation -/

/-- The byte a task reads at a linear address, if its page is there. -/
def Memory.read (m : Memory) (address : ℕ) : Option UInt8 :=
  (m.lookup address).map fun e => m.bytes e.frame (address % PAGE_SIZE)

theorem dirIndex_lt (a : ℕ) : dirIndex a < 1024 := Nat.mod_lt _ (by decide)

theorem tableIndex_lt (a : ℕ) : tableIndex a < 1024 := Nat.mod_lt _ (by decide)

/-- The place of the entry for a linear address. -/
def linearPlace (a : ℕ) : Fin 1024 × Fin 1024 :=
  (⟨dirIndex a, dirIndex_lt a⟩, ⟨tableIndex a, tableIndex_lt a⟩)

section Linear

variable {a b : ℕ}

theorem lookup_linear (ha : 2 ^ 24 ≤ a) (ha' : a < 2 ^ 32) (m : Memory) :
    m.lookup a = entryAt m (linearPlace a) :=
  lookup_eq_entryAt rfl rfl (by simp only [dirIndex]; omega)

theorem read_linear (ha : 2 ^ 24 ≤ a) (ha' : a < 2 ^ 32) (m : Memory) :
    m.read a = byteAt m (linearPlace a) (a % PAGE_SIZE) := by
  rw [Memory.read, byteAt, lookup_linear ha ha']

theorem linearPlace_inj (ha : a < 2 ^ 32) (hb : b < 2 ^ 32) (h : linearPlace a = linearPlace b) :
    a / PAGE_SIZE = b / PAGE_SIZE := by
  have hd : dirIndex a = dirIndex b := congrArg (fun x => x.1.val) h
  have hi : tableIndex a = tableIndex b := congrArg (fun x => x.2.val) h
  rw [dirIndex, dirIndex] at hd
  rw [tableIndex, tableIndex] at hi
  unfold PAGE_SIZE
  omega

theorem place_eq_linearPlace {nr x : ℕ} (hnr : nr < 64) (hx : x < 2 ^ 26) :
    place nr x = linearPlace (nr * TASK_SIZE + x) := by
  refine Prod.ext (Fin.ext ?_) (Fin.ext ?_)
  · exact (dirIndex_eq hnr hx).symm
  · exact (tableIndex_eq nr x).symm

end Linear

/-- A page that a task can write has no other entry, and a write of a task leaves
what the other tasks read, and the other bytes of the task. -/
structure Sys.Isolated (s : Sys) : Prop where
  alone : ∀ a b e e', 2 ^ 24 ≤ a → a < 2 ^ 32 → 2 ^ 24 ≤ b → b < 2 ^ 32 → s.mem.lookup a = some e →
    s.mem.lookup b = some e' → e.writable → e'.frame = e.frame → a / PAGE_SIZE = b / PAGE_SIZE
  write : ∀ nr current iCount content x v m, s.live nr = some current → x < current.dataLimit →
    userWrite s nr current iCount content x v = .done m →
    m.read (nr * TASK_SIZE + x) = some v ∧
    (∀ nr' y, 1 ≤ nr' → nr' < NR_TASKS → nr' ≠ nr → y < TASK_SIZE →
      m.read (nr' * TASK_SIZE + y) = s.mem.read (nr' * TASK_SIZE + y)) ∧
    ∀ y, y < TASK_SIZE → y ≠ x → s.mem.read (nr * TASK_SIZE + y) ≠ none →
      m.read (nr * TASK_SIZE + y) = s.mem.read (nr * TASK_SIZE + y)

/-- The tasks are isolated in every state that a run without `sys_shmget`
reaches. -/
theorem copy_on_write_isolation (hstart : LOW_MEM ≤ start) (has : ∀ a ∈ as, a.isShmget = false)
    {s : Sys} (hrun : Sys.run as (.boot start high) = .ok s) : s.Isolated := by
  obtain ⟨s', hrun', h⟩ := (@Sys.inv_boot start high hstart).run has
  cases hrun.symm.trans hrun'
  obtain ⟨held, hc, -⟩ := h.pages
  constructor
  · intro a b e e' ha ha' hb hb' he he' hw hframe
    rw [lookup_linear ha ha'] at he
    rw [lookup_linear hb hb'] at he'
    have href : refOf s.mem (.inr (linearPlace b)) = some e.frame := hframe ▸ refOf_entry he'
    exact linearPlace_inj ha' hb' (Sum.inr.inj (hc.writable_unique he hw href)).symm
  · intro nr current iCount content x v m hlive hx hwrite
    have hwritten := h.userWrite hlive hx hc iCount content v
    obtain ⟨ht, hpos, -⟩ := Sys.live_eq_some.1 hlive
    have hok := h.tasks nr current ht
    have hlt : nr < 64 := hok.lt
    have hx' : x < 2 ^ 26 := hx.trans_le hok.dataLimit
    rw [hwrite, hok.startCode, place_eq_linearPlace hlt hx'] at hwritten
    obtain ⟨-, -, hself, hother⟩ := hwritten
    have hbase : ∀ nr' y, 1 ≤ nr' → nr' < 64 → y < 2 ^ 26 →
        2 ^ 24 ≤ nr' * TASK_SIZE + y ∧ nr' * TASK_SIZE + y < 2 ^ 32 := by
      intro nr' y h₁ h₂ h₃
      unfold TASK_SIZE
      omega
    obtain ⟨hlo, hhi⟩ := hbase nr x hpos hlt hx'
    refine ⟨?_, fun nr' y hpos' hlt' hne hy => ?_, fun y hy hne hsome => ?_⟩
    · rw [read_linear hlo hhi, hself]
    · obtain ⟨hlo', hhi'⟩ := hbase nr' y hpos' hlt' hy
      have hplace : linearPlace (nr' * TASK_SIZE + y) ≠ linearPlace (nr * TASK_SIZE + x) := by
        intro heq
        have hpage := linearPlace_inj hhi' hhi heq
        have hy' : y < 2 ^ 26 := hy
        unfold PAGE_SIZE TASK_SIZE at hpage
        omega
      rw [read_linear hlo' hhi', read_linear hlo' hhi']
      exact hother _ _ (fun heq => hplace (Prod.mk.inj heq).1) (.inl hplace)
    · obtain ⟨hlo', hhi'⟩ := hbase nr y hpos hlt hy
      rw [read_linear hlo' hhi'] at hsome
      rw [read_linear hlo' hhi', read_linear hlo' hhi']
      by_cases hplace : linearPlace (nr * TASK_SIZE + y) = linearPlace (nr * TASK_SIZE + x)
      · refine hother _ _ (fun heq => hne ?_) (.inr fun hnone => hsome ?_)
        · have hpage := linearPlace_inj hhi' hhi hplace
          have hoffset := (Prod.mk.inj heq).2
          unfold PAGE_SIZE at hpage hoffset
          omega
        · rw [byteAt, hplace, hnone, Option.map_none]
      · exact hother _ _ (fun heq => hplace (Prod.mk.inj heq).1) (.inl hplace)

theorem copy_on_write_isolation_forks : ∃ s,
    Sys.run [.fork 0 1 1, .execve 1 8192 4096 7, .write 1 1 (fun _ => 3) 5000 9, .fork 1 2 2]
      (.boot 1024 4096) = .ok s ∧ s.Isolated := by
  obtain ⟨s, hrun, -⟩ := @Sys.Inv.run ⟨1024, 4096⟩
    [.fork 0 1 1, .execve 1 8192 4096 7, .write 1 1 (fun _ => 3) 5000 9, .fork 1 2 2] [] _
    (Sys.inv_boot (by decide)) (by simp [Action.isShmget])
  exact ⟨s, hrun, copy_on_write_isolation (by decide) (by simp [Action.isShmget]) hrun⟩

end Runs

end MyJavaExample.Mm
