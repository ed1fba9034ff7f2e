import MyJavaExample.Kernel.ProcessInv

/-!
# The end of a process, and the wait for it

A task becomes a zombie and tells its father in one action, so a father that
sleeps in `sys_waitpid` has the signal as soon as there is something to wait
for; and it goes to sleep in the action that looked through the table.
-/

namespace MyJavaExample.Kernel

namespace Table

section

variable {s s' : Table} {i j k : Task} {p q : Process} {pid code : ℤ}

/-! ## The zombie -/

theorem findPid_eq_some (h : s.findPid pid = some j) : ∃ p, s.task j = some p ∧ p.pid = pid := by
  have hany := List.find?_some h
  obtain ⟨p, hp, hpid⟩ := (Option.any_eq_true _ _).1 hany
  exact ⟨p, hp, of_decide_eq_true hpid⟩

theorem findPid_isSome (h : s.task j = some p) (hpid : p.pid = pid) : (s.findPid pid).isSome := by
  unfold findPid
  rw [List.find?_isSome]
  exact ⟨j, List.mem_finRange j, by simp [h, hpid]⟩

/-- The task `i` becomes a zombie, and the task `j` is told. -/
def bury (s : Table) (i j : Task) (code : ℤ) : Table :=
  (s.modify i fun p => p.setZombie code).modify j fun p => p.post (sigMask SIGCHLD)

/-- What a process is after it, and the state is that of a zombie for `i` only. -/
structure Buried (i j k : Task) (code : ℤ) (p p' : Process) : Prop where
  pid : p'.pid = p.pid
  father : p'.father = p.father
  call : p'.call = p.call
  zombie : k = i → p'.state = .zombie ∧ p'.exitCode = code
  other : k ≠ i → p'.state = p.state ∧ p'.exitCode = p.exitCode
  child : p.hasChild ∨ k = j → p'.hasChild

theorem buried (k : Task) (hj : j ≠ i) (code : ℤ) (p : Process) :
    Buried i j k code p (if k = i then p.setZombie code
      else if k = j then p.post (sigMask SIGCHLD) else p) := by
  by_cases hi : k = i
  · rw [if_pos hi]
    exact ⟨rfl, rfl, rfl, fun _ => ⟨rfl, rfl⟩, fun hno => absurd hi hno, fun h =>
      h.elim id fun hk => absurd (hk.symm.trans hi) hj⟩
  · rw [if_neg hi]
    split
    next => exact ⟨rfl, rfl, rfl, fun hno => absurd hno hi, fun _ => ⟨rfl, rfl⟩, fun _ => hasChild_post p⟩
    next hk =>
      exact ⟨rfl, rfl, rfl, fun hno => absurd hno hi, fun _ => ⟨rfl, rfl⟩, fun h =>
        h.elim id fun hno => absurd hno hk⟩

theorem task_bury (s : Table) (hj : j ≠ i) (k : Task) :
    (s.bury i j code).task k = (s.task k).map fun p => if k = i then p.setZombie code
      else if k = j then p.post (sigMask SIGCHLD) else p := by
  unfold bury
  by_cases hk : k = j
  · subst hk
    rw [task_modify_self, task_modify_of_ne hj]
    simp only [if_neg hj, if_true]
  · rw [task_modify_of_ne hk]
    by_cases hi : k = i
    · subst hi
      rw [task_modify_self]
      simp only [if_true]
    · rw [task_modify_of_ne hi]
      simp only [if_neg hi, if_neg hk, Option.map_id']

theorem bury_right {p' : Process} (hj : j ≠ i) (h : (s.bury i j code).task k = some p') :
    ∃ p, s.task k = some p ∧ Buried i j k code p p' := by
  rw [task_bury s hj] at h
  obtain ⟨p, hp, rfl⟩ := Option.map_eq_some_iff.1 h
  exact ⟨p, hp, buried k hj code p⟩

theorem bury_left (hj : j ≠ i) (h : s.task k = some p) (code : ℤ) :
    ∃ p', (s.bury i j code).task k = some p' ∧ Buried i j k code p p' :=
  ⟨_, by rw [task_bury s hj, h, Option.map_some], buried k hj code p⟩

theorem pidAt_bury (s : Table) (hj : j ≠ i) (code : ℤ) (k : Task) :
    (s.bury i j code).toProcTable.pidAt k = s.toProcTable.pidAt k := by
  rw [pidAt_toProcTable, pidAt_toProcTable, task_bury s hj, Option.map_map]
  cases s.task k with
  | none => rfl
  | some p => exact congrArg some (buried k hj code p).pid

/-- The father of the zombie is told. -/
theorem Inv.bury (h : s.Inv) (hp : s.task i = some p) (hexit : p.call.isExiting) (hj : j ≠ i)
    (hq : s.task j = some q) (hfather : q.pid = p.father) (code : ℤ) :
    (s.bury i j code).Inv := by
  refine ⟨(ProcTable.Keeps.of_pidAt (pidAt_bury s hj code) rfl).valid h.valid, fun r hr => ?_, ?_,
    fun k r hr hz => ?_, fun k r hr hstop => ?_, fun k r h₀ h₁ hr => ?_,
    fun w r k z hr hz hzombie hawaits => ?_⟩
  · obtain ⟨r₀, hr₀, hb⟩ := bury_right hj hr
    rw [hb.call, h.idle r₀ hr₀]
  · obtain ⟨p₁, hp₁, hone, hno⟩ := h.init
    obtain ⟨p₁', hp₁', hb⟩ := bury_left hj hp₁ code
    exact ⟨p₁', hp₁', hb.pid.trans hone, by rw [hb.call, hno]⟩
  · obtain ⟨r₀, hr₀, hb⟩ := bury_right hj hr
    rw [hb.call]
    by_cases hk : k = i
    · subst hk
      cases hp.symm.trans hr₀
      exact hexit
    · exact h.zombie k r₀ hr₀ ((hb.other hk).1.symm.trans hz)
  · obtain ⟨r₀, hr₀, hb⟩ := bury_right hj hr
    by_cases hk : k = i
    · rw [(hb.zombie hk).1] at hstop
      cases hstop
    · exact h.unstopped k r₀ hr₀ ((hb.other hk).1.symm.trans hstop)
  · obtain ⟨r₀, hr₀, hb⟩ := bury_right hj hr
    obtain ⟨hne, k', q', hq', hpid, hno⟩ := h.father k r₀ h₀ h₁ hr₀
    obtain ⟨q'', hq'', hb'⟩ := bury_left hj hq' code
    exact ⟨hb.father ▸ hne, k', q'', hq'', by rw [hb'.pid, hpid, hb.father], by rw [hb'.call, hno]⟩
  · obtain ⟨r₀, hr₀, hbr⟩ := bury_right hj hr
    obtain ⟨z₀, hz₀, hbz⟩ := bury_right hj hz
    obtain ⟨hsleep, hchild, pid, nohang, untraced, hcall, haccept⟩ := hawaits
    by_cases hk : k = i
    · -- the new zombie: the sleeper is the father
      subst hk
      cases hp.symm.trans hz₀
      refine hbr.child (.inr (h.unique hr₀ hq ?_))
      rw [hfather, ← hbz.father, hchild, hbr.pid]
    · have hw : w ≠ i := by
        rintro rfl
        rw [(hbr.zombie rfl).1] at hsleep
        cases hsleep
      refine hbr.child (.inl (h.child w r₀ k z₀ hr₀ hz₀ ((hbz.other hk).1.symm.trans hzombie)
        ⟨(hbr.other hw).1.symm.trans hsleep, ?_, pid, nohang, untraced, hbr.call.symm.trans hcall, ?_⟩))
      · rw [← hbz.father, hchild, hbr.pid]
      · rwa [← hbz.pid]

/-- A task that exits finds its father. -/
theorem finishExit_eq (h : s.Inv) (hp : s.task i = some p) (hi : i ≠ 0) (hexit : p.call.isExiting)
    (code : ℤ) : ∃ s₁ p₁ j q, Evolves s s₁ ∧ s₁.task i = some p₁ ∧ Benign p p₁ ∧ j ≠ i ∧
      s₁.task j = some q ∧ q.pid = p.father ∧
      s.finishExit i p code = (s₁.bury i j code, [.exited p.pid code]) := by
  have hi₁ : i ≠ 1 := by
    rintro rfl
    obtain ⟨p₁, hp₁, -, hno⟩ := h.init
    cases hp.symm.trans hp₁
    rw [hno] at hexit
    cases hexit
  obtain ⟨hzero, k, q, hq, hpid, hno⟩ := h.father i p hi hi₁ hp
  have hki : k ≠ i := by
    rintro rfl
    cases hp.symm.trans hq
    rw [hno] at hexit
    cases hexit
  obtain ⟨s₁, hs₁⟩ : ∃ s₁, s₁ = if p.leader then s.killSession p.session else s := ⟨_, rfl⟩
  have hevolves : Evolves s s₁ := by
    rw [hs₁]
    split
    next => exact evolves_killSession s p.session
    next => exact .refl s
  obtain ⟨p₁, hp₁, hb⟩ := hevolves.some_left hp
  obtain ⟨q₁, hq₁, hb'⟩ := hevolves.some_left hq
  have hfind : (s₁.modify i fun p => p.setZombie code).findPid p.father = some k := by
    obtain ⟨j, hj⟩ := Option.isSome_iff_exists.1 (findPid_isSome
      (show (s₁.modify i fun p => p.setZombie code).task k = some q₁ by
        rw [task_modify_of_ne hki, hq₁]) (hb'.pid.trans hpid))
    obtain ⟨r, hr, hrpid⟩ := findPid_eq_some hj
    rw [hj]
    congr 1
    by_cases hji : j = i
    · subst hji
      rw [task_modify_self, hp₁, Option.map_some, Option.some_inj] at hr
      subst hr
      refine (hki (h.unique hq hp ?_)).elim
      rw [hpid, ← hrpid]
      exact hb.pid
    · rw [task_modify_of_ne hji] at hr
      exact (hevolves.inv h).unique hr hq₁ (by rw [hrpid, hb'.pid, hpid])
  refine ⟨s₁, p₁, k, q₁, hevolves, hp₁, hb, hki, hq₁, hb'.pid.trans hpid, ?_⟩
  unfold finishExit tellFather
  dsimp only
  rw [if_neg hzero, ← hs₁, hfind]
  rfl

theorem Inv.finishExit (h : s.Inv) (hp : s.task i = some p) (hi : i ≠ 0)
    (hexit : p.call.isExiting) (code : ℤ) : (s.finishExit i p code).1.Inv := by
  obtain ⟨s₁, p₁, j, q, hevolves, hp₁, hb, hj, hq, hpid, heq⟩ := finishExit_eq h hp hi hexit code
  rw [heq]
  exact (hevolves.inv h).bury hp₁ (hb.exiting.trans hexit) hj hq (by rw [hpid, hb.father]) code

/-! ## The wait -/

/-- A call of `sys_waitpid` that does not sleep. -/
theorem Inv.setOther (h : s.Inv) (hp : s.task i = some p) (hno : p.call.isExiting = false) :
    (s.modify i fun p => p.setCall .other).Inv := by
  refine Evolves.inv (.modify s i fun q hq => ?_) h
  cases hp.symm.trans hq
  exact ⟨rfl, rfl, rfl, hno.symm, fun _ => rfl, Iff.rfl, id, fun _ _ _ hcall => by cases hcall⟩

/-- The zombie that is reaped is nobody's father. -/
theorem Inv.reap (h : s.Inv) (hq : s.task j = some q) (hz : q.state = .zombie) :
    (s.setTask j none).Inv := by
  obtain ⟨hj₀, hj₁⟩ := h.zombie_ne hq hz
  have hold : ∀ {k : Task} {r : Process}, (s.setTask j none).task k = some r →
      k ≠ j ∧ s.task k = some r := by
    intro k r hr
    rcases task_setTask_eq_some hr with ⟨-, hno⟩ | hr
    · cases hno
    · exact hr
  refine ⟨?_, fun r hr => h.idle r (hold hr).2, ?_, fun k r hr => h.zombie k r (hold hr).2,
    fun k r hr => h.unstopped k r (hold hr).2, fun k r h₀ h₁ hr => ?_,
    fun w r k z hr hz => h.child w r k z (hold hr).2 (hold hz).2⟩
  · rw [Table.toProcTable_setTask]
    exact (ProcTable.keeps_setTask_none hj₀).valid h.valid
  · obtain ⟨p₁, hp₁, hone, hno⟩ := h.init
    exact ⟨p₁, by rw [task_setTask_of_ne hj₁.symm, hp₁], hone, hno⟩
  · obtain ⟨hne, k', q', hq', hpid, hno⟩ := h.father k r h₀ h₁ (hold hr).2
    refine ⟨hne, k', q', ?_, hpid, hno⟩
    rw [task_setTask_of_ne _, hq']
    rintro rfl
    cases hq.symm.trans hq'
    rw [h.zombie _ q hq hz] at hno
    cases hno

theorem mem_slots : i ∈ Sched.slots ↔ i ≠ 0 := by
  revert i
  decide

/-- A child that is a zombie is reported. -/
theorem reports_of_awaits {p' : Process} {nohang untraced : Bool} (hawaits : p'.Awaits q)
    (hp : p.state = .running) (hpid : p'.pid = p.pid)
    (hcall : p'.call = .waiting pid nohang untraced) (hi : s.task i = some p)
    (hq : s.task j = some q) (hz : q.state = .zombie) : s.reports i p pid untraced j = true := by
  obtain ⟨-, hfather, pid', nohang', untraced', hcall', haccept⟩ := hawaits
  rw [hcall] at hcall'
  cases hcall'
  have hne : j ≠ i := by
    rintro rfl
    cases hi.symm.trans hq
    rw [hp] at hz
    cases hz
  have hwaits : ProcTable.waitsFor pid p.toProc q.toProc = true := by
    unfold ProcTable.waitsFor
    rw [hfather, hpid]
    rcases haccept with rfl | ⟨hpos, heq⟩
    · simp
    · simp [hpos, heq]
  simp [reports, accepts, hq, hne, hwaits, hz, ProcTable.reported]

/-- A process that found no child to report goes to sleep. -/
theorem Inv.sleepWait (h : s.Inv) (hp : s.task i = some p) (hrun : p.state = .running)
    (hi : i ≠ 0) {nohang untraced : Bool}
    (hnone : ∀ j, j ≠ 0 → s.reports i p pid untraced j = false) :
    (s.modify i fun p =>
      (p.setState .interruptible).setCall (.waiting pid nohang untraced)).Inv := by
  have hnew : (s.modify i fun p => (p.setState .interruptible).setCall
      (.waiting pid nohang untraced)).task i =
        some ((p.setState .interruptible).setCall (.waiting pid nohang untraced)) := by
    rw [task_modify_self, hp, Option.map_some]
  have hold : ∀ {k : Task} {r : Process}, (s.modify i fun p => (p.setState .interruptible).setCall
      (.waiting pid nohang untraced)).task k = some r →
        k = i ∧ r = (p.setState .interruptible).setCall (.waiting pid nohang untraced) ∨
          k ≠ i ∧ s.task k = some r := by
    intro k r hr
    by_cases hk : k = i
    · subst hk
      exact .inl ⟨rfl, Option.some.inj (hr.symm.trans hnew)⟩
    · rw [task_modify_of_ne hk] at hr
      exact .inr ⟨hk, hr⟩
  have hkeep : ∀ {k : Task} {r : Process}, s.task k = some r → r.call.isExiting = false →
      ∃ r', (s.modify i fun p => (p.setState .interruptible).setCall
        (.waiting pid nohang untraced)).task k = some r' ∧ r'.pid = r.pid ∧
          r'.call.isExiting = false := by
    intro k r hr hrno
    by_cases hk : k = i
    · subst hk
      cases hp.symm.trans hr
      exact ⟨_, hnew, rfl, rfl⟩
    · exact ⟨r, by rw [task_modify_of_ne hk, hr], rfl, hrno⟩
  have hpids : ∀ k, (s.modify i fun p => (p.setState .interruptible).setCall
      (.waiting pid nohang untraced)).toProcTable.pidAt k = s.toProcTable.pidAt k := by
    intro k
    rw [pidAt_toProcTable, pidAt_toProcTable]
    by_cases hk : k = i
    · subst hk
      rw [hnew, hp]
      rfl
    · rw [task_modify_of_ne hk]
  refine ⟨(ProcTable.Keeps.of_pidAt hpids rfl).valid h.valid, fun r hr => ?_, ?_,
    fun k r hr hz => ?_, fun k r hr hstop => ?_, fun k r h₀ h₁ hr => ?_,
    fun w r k z hr hz hzombie hawaits => ?_⟩
  · rcases hold hr with ⟨hk, -⟩ | ⟨-, hr⟩
    · exact absurd hk.symm hi
    · exact h.idle r hr
  · obtain ⟨p₁, hp₁, hone, hinit⟩ := h.init
    obtain ⟨p₁', hp₁', hpid, hno'⟩ := hkeep hp₁ hinit
    exact ⟨p₁', hp₁', hpid.trans hone, hno'⟩
  · rcases hold hr with ⟨-, rfl⟩ | ⟨-, hr⟩
    · cases hz
    · exact h.zombie k r hr hz
  · rcases hold hr with ⟨-, rfl⟩ | ⟨-, hr⟩
    · cases hstop
    · exact h.unstopped k r hr hstop
  · have hfather : r.father ≠ 0 ∧ ∃ j q, s.task j = some q ∧ q.pid = r.father ∧
        q.call.isExiting = false := by
      rcases hold hr with ⟨rfl, rfl⟩ | ⟨-, hr⟩
      · exact h.father k p h₀ h₁ hp
      · exact h.father k r h₀ h₁ hr
    obtain ⟨hne, k', q', hq', hpid, hno'⟩ := hfather
    obtain ⟨q'', hq'', hpid', hno''⟩ := hkeep hq' hno'
    exact ⟨hne, k', q'', hq'', hpid'.trans hpid, hno''⟩
  · have hz₀ : k ≠ i ∧ s.task k = some z := by
      rcases hold hz with ⟨-, rfl⟩ | hz
      · cases hzombie
      · exact hz
    rcases hold hr with ⟨rfl, rfl⟩ | ⟨-, hr⟩
    · -- the search went through the same table
      have hreports := reports_of_awaits hawaits hrun rfl rfl hp hz₀.2 hzombie
      rw [hnone k (h.zombie_ne hz₀.2 hzombie).1] at hreports
      cases hreports
    · exact h.child w r k z hr hz₀.2 hzombie hawaits

theorem reports_spec {untraced : Bool} (h : s.reports i p pid untraced j = true) :
    ∃ q, s.task j = some q ∧ j ≠ i ∧ q.father = p.pid ∧
      ProcTable.waitsFor pid p.toProc q.toProc = true ∧
        ProcTable.reported untraced q.state = true := by
  unfold reports accepts at h
  rw [Bool.and_eq_true] at h
  obtain ⟨q, hq, hwaits⟩ := (Option.any_eq_true _ _).1 h.1
  obtain ⟨q', hq', hreported⟩ := (Option.any_eq_true _ _).1 h.2
  cases hq.symm.trans hq'
  rw [Bool.and_eq_true] at hwaits
  refine ⟨q, hq, by simpa using hwaits.1, ?_, hwaits.2, hreported⟩
  unfold ProcTable.waitsFor at hwaits
  rw [Bool.and_eq_true] at hwaits
  exact of_decide_eq_true hwaits.2.1

/-- What a search does: a child is reaped, the process sleeps, or it returns. -/
theorem search_cases (h : s.Inv) (i : Task) (p : Process) (pid : ℤ) (nohang untraced : Bool) :
    (∃ j q, s.reports i p pid untraced j = true ∧ s.task j = some q ∧ j ≠ i ∧ q.state = .zombie ∧
      q.father = p.pid ∧ s.search i p pid nohang untraced =
        ((s.setTask j none).modify i fun p => p.setCall .other, some q.pid,
          [.reaped p.pid q.pid q.exitCode])) ∨
    (∀ j, j ≠ 0 → s.reports i p pid untraced j = false) ∧
      ((s.search i p pid nohang untraced = (s.modify i fun p =>
        (p.setState .interruptible).setCall (.waiting pid nohang untraced), none, [])) ∨
      ∃ r, s.search i p pid nohang untraced = (s.modify i fun p => p.setCall .other, some r, [])) := by
  unfold search
  split
  next j hfind =>
    have hreports := List.find?_some hfind
    obtain ⟨q, hq, hne, hfather, -, hreported⟩ := reports_spec hreports
    have hz : q.state = .zombie := by
      have hstop := h.unstopped j q hq
      revert hreported hstop
      cases q.state <;> simp [ProcTable.reported]
    refine .inl ⟨j, q, hreports, hq, hne, hz, hfather, ?_⟩
    rw [hq]
    dsimp only
    rw [if_pos hz]
  next hfind =>
    have hnone : ∀ j, j ≠ 0 → s.reports i p pid untraced j = false := fun j hj => by
      simpa using List.find?_eq_none.1 hfind j (mem_slots.2 hj)
    refine .inr ⟨hnone, ?_⟩
    split
    next =>
      split
      next => exact .inr ⟨_, rfl⟩
      next => exact .inl rfl
    next => exact .inr ⟨_, rfl⟩

theorem Inv.search (h : s.Inv) (hp : s.task i = some p) (hrun : p.state = .running)
    (hno : p.call.isExiting = false) (hi : i ≠ 0) (pid : ℤ) (nohang untraced : Bool) :
    (s.search i p pid nohang untraced).1.Inv := by
  rcases search_cases h i p pid nohang untraced with
    ⟨j, q, -, hq, hne, hz, -, heq⟩ | ⟨hnone, heq | ⟨r, heq⟩⟩
  · rw [heq]
    exact (h.reap hq hz).setOther (by rw [task_setTask_of_ne hne.symm, hp]) hno
  · rw [heq]
    exact h.sleepWait hp hrun hi hnone
  · rw [heq]
    exact h.setOther hp hno

/-- A process that was woken up in `sys_waitpid` without `SIGCHLD`. -/
theorem evolves_clear (hp : s.task i = some p) (hrun : p.state = .running) (mask : UInt32) :
    Evolves s (s.modify i fun p => p.clear mask) := by
  refine .modify s i fun q hq => ?_
  cases hp.symm.trans hq
  exact .of_awake rfl rfl rfl rfl id (by simp [hrun]) (by simp [Process.clear, hrun])
    (by simp [Process.clear, hrun]) (.inl hrun)

theorem Inv.wakeWait (h : s.Inv) (hp : s.task i = some p) (hrun : p.state = .running)
    (hno : p.call.isExiting = false) (hi : i ≠ 0) (pid : ℤ) (nohang untraced : Bool) :
    (s.wakeWait i pid nohang untraced).1.Inv := by
  have h₁ := (evolves_clear hp hrun (sigMask SIGCHLD)).inv h
  have hp₁ : (s.modify i fun p => p.clear (sigMask SIGCHLD)).task i =
      some (p.clear (sigMask SIGCHLD)) := by
    rw [task_modify_self, hp, Option.map_some]
  unfold Table.wakeWait
  dsimp only
  rw [hp₁]
  dsimp only
  split
  next => exact h₁.search hp₁ hrun hno hi pid nohang untraced
  next => exact h₁.setOther hp₁ hno

end

end Table

end MyJavaExample.Kernel
