import MyJavaExample.Kernel.Process

/-!
# What holds of the processes at any time

As long as the first process does not exit, every process has a father that can
still wait for it: `do_exit` hands the children over before the task can no
longer look after them.  A process that sleeps in `sys_waitpid` has a `SIGCHLD`
when one of the children it waits for is a zombie.

Most calls change neither the numbers nor the fathers of the processes; they are
`Benign`, and one lemma says that they keep the invariant.
-/

namespace MyJavaExample.Kernel

/-! ## Signal masks -/

section Masks

variable {a b c : UInt32}

theorem or_and_distrib (a b c : UInt32) : (a ||| b) &&& c = a &&& c ||| b &&& c :=
  UInt32.toBitVec_inj.1 (by ext; simp [Bool.and_or_distrib_right])

theorem or_and_ne_zero (h : a &&& c ≠ 0) : (a ||| b) &&& c ≠ 0 := by
  rw [or_and_distrib]
  exact fun hno => h (UInt32.or_eq_zero_iff.1 hno).1

theorem or_self_and_ne_zero (h : c ≠ 0) : (a ||| c) &&& c ≠ 0 := by
  rw [or_and_distrib, UInt32.and_self]
  exact fun hno => h (UInt32.or_eq_zero_iff.1 hno).2

/-- A bit of the mask that is pending and not blocked. -/
theorem pending_of_unblocked {m : UInt32} (hb : b &&& m = 0) (ha : a &&& m ≠ 0) :
    a &&& ~~~(c &&& b) ≠ 0 := by
  intro hno
  refine ha (UInt32.toBitVec_inj.1 (BitVec.eq_of_getElem_eq fun i hi => ?_))
  have hbit := congrArg (fun x => x.toBitVec[i]) hno
  have hbit' := congrArg (fun x => x.toBitVec[i]) hb
  simp only [UInt32.toBitVec_and, UInt32.toBitVec_not, BitVec.getElem_and, BitVec.getElem_not,
    UInt32.toBitVec_ofNat, BitVec.getElem_zero] at hbit hbit' ⊢
  revert hbit hbit'
  cases a.toBitVec[i] <;> cases b.toBitVec[i] <;> cases m.toBitVec[i] <;> simp

end Masks

/-- The `SIGCHLD` of a process is pending. -/
def Process.hasChild (p : Process) : Prop := p.signal &&& sigMask SIGCHLD ≠ 0

/-- The process sleeps in `sys_waitpid` for this child. -/
structure Process.Awaits (p q : Process) : Prop where
  asleep : p.state = .interruptible
  father : q.father = p.pid
  call : ∃ pid nohang untraced, p.call = .waiting pid nohang untraced ∧
    (pid = -1 ∨ 0 < pid ∧ q.pid = pid)

namespace Table

structure Inv (s : Table) : Prop where
  valid : s.toProcTable.Valid
  idle : ∀ p, s.task 0 = some p → p.call = .other
  init : ∃ p, s.task 1 = some p ∧ p.pid = 1 ∧ p.call.isExiting = false
  zombie : ∀ i p, s.task i = some p → p.state = .zombie → p.call.isExiting
  unstopped : ∀ i p, s.task i = some p → p.state ≠ .stopped
  father : ∀ i p, i ≠ 0 → i ≠ 1 → s.task i = some p →
    p.father ≠ 0 ∧ ∃ j q, s.task j = some q ∧ q.pid = p.father ∧ q.call.isExiting = false
  child : ∀ i p j q, s.task i = some p → s.task j = some q → q.state = .zombie → p.Awaits q →
    p.hasChild

section

variable {s s' : Table} {i j k : Task} {p q : Process} {pid : ℤ}

@[simp] theorem task_setTask_self (s : Table) (i : Task) (p : Option Process) :
    (s.setTask i p).task i = p := Function.update_self ..

theorem task_setTask_of_ne (h : j ≠ i) (p : Option Process) : (s.setTask i p).task j = s.task j :=
  Function.update_of_ne h ..

@[simp] theorem task_modify_self (s : Table) (i : Task) (f : Process → Process) :
    (s.modify i f).task i = (s.task i).map f := Function.update_self ..

theorem task_modify_of_ne (h : j ≠ i) (f : Process → Process) :
    (s.modify i f).task j = s.task j := Function.update_of_ne h ..

theorem pidAt_toProcTable (s : Table) (i : Task) :
    s.toProcTable.pidAt i = (s.task i).map fun p => p.pid := by
  unfold ProcTable.pidAt toProcTable
  rw [Option.map_map]
  rfl

theorem Inv.unique (h : s.Inv) (hp : s.task i = some p) (hq : s.task j = some q)
    (hpid : p.pid = q.pid) : i = j := by
  refine h.valid.2 i j q.pid ?_ ?_
  · rw [pidAt_toProcTable, hp, Option.map_some, hpid]
  · rw [pidAt_toProcTable, hq, Option.map_some]

theorem Inv.pid_ne_zero (h : s.Inv) (hp : s.task i = some p) (hi : i ≠ 0) : p.pid ≠ 0 := by
  intro hzero
  refine hi (h.valid.2 i 0 0 ?_ h.valid.1.idle)
  rw [pidAt_toProcTable, hp, Option.map_some, hzero]

theorem Inv.zombie_ne (h : s.Inv) (hp : s.task i = some p) (hz : p.state = .zombie) :
    i ≠ 0 ∧ i ≠ 1 := by
  have hexit := h.zombie i p hp hz
  constructor
  · rintro rfl
    rw [h.idle p hp] at hexit
    cases hexit
  · rintro rfl
    obtain ⟨p₁, hp₁, -, hno⟩ := h.init
    cases hp.symm.trans hp₁
    rw [hno] at hexit
    cases hexit

/-! ## Changes that leave the families alone -/

structure Benign (p p' : Process) : Prop where
  pid : p'.pid = p.pid
  father : p'.father = p.father
  exitCode : p'.exitCode = p.exitCode
  exiting : p'.call.isExiting = p.call.isExiting
  other : p.call = .other → p'.call = .other
  zombie : p'.state = .zombie ↔ p.state = .zombie
  stopped : p'.state = .stopped → p.state = .stopped
  child : ∀ pid nohang untraced, p'.call = .waiting pid nohang untraced →
    p'.state = .interruptible → p.call = .waiting pid nohang untraced ∧ p.state = .interruptible ∧
      (p.hasChild → p'.hasChild)

/-- The call stays. -/
theorem Benign.of_call {p p' : Process} (hpid : p'.pid = p.pid) (hfather : p'.father = p.father)
    (hcode : p'.exitCode = p.exitCode) (hcall : p'.call = p.call) (hstate : p'.state = p.state)
    (hchild : p.hasChild → p'.hasChild) : Benign p p' :=
  ⟨hpid, hfather, hcode, by rw [hcall], fun h => hcall.trans h, by rw [hstate],
    fun h => hstate.symm.trans h, fun _ _ _ h hsleep =>
      ⟨hcall.symm.trans h, hstate.symm.trans hsleep, hchild⟩⟩

theorem Benign.refl (p : Process) : Benign p p := .of_call rfl rfl rfl rfl rfl id

theorem Benign.trans {p₁ p₂ : Process} (h : Benign p p₁) (h' : Benign p₁ p₂) : Benign p p₂ := by
  refine ⟨h'.pid.trans h.pid, h'.father.trans h.father, h'.exitCode.trans h.exitCode,
    h'.exiting.trans h.exiting, fun ho => h'.other (h.other ho), h'.zombie.trans h.zombie,
    fun hs => h.stopped (h'.stopped hs), fun pid nohang untraced hcall hsleep => ?_⟩
  obtain ⟨hcall₁, hsleep₁, hkeeps₁⟩ := h'.child pid nohang untraced hcall hsleep
  obtain ⟨hcall₀, hsleep₀, hkeeps₀⟩ := h.child pid nohang untraced hcall₁ hsleep₁
  exact ⟨hcall₀, hsleep₀, fun hchild => hkeeps₁ (hkeeps₀ hchild)⟩

/-- Every task stays, up to benign changes. -/
structure Evolves (s s' : Table) : Prop where
  lastPid : s'.lastPid = s.lastPid
  task : ∀ i, Option.Rel Benign (s.task i) (s'.task i)

theorem Evolves.refl (s : Table) : Evolves s s := by
  refine ⟨rfl, fun i => ?_⟩
  cases s.task i with
  | none => exact .none
  | some p => exact .some (.refl p)

theorem Evolves.trans {s₁ s₂ : Table} (h : Evolves s s₁) (h' : Evolves s₁ s₂) : Evolves s s₂ := by
  refine ⟨h'.lastPid.trans h.lastPid, fun i => ?_⟩
  have h₁ := h.task i
  have h₂ := h'.task i
  revert h₁ h₂
  cases s.task i with
  | none =>
      cases s₁.task i with
      | none => exact fun _ => id
      | some p₁ => rintro ⟨⟩
  | some p =>
      cases s₁.task i with
      | none => rintro ⟨⟩
      | some p₁ =>
          cases s₂.task i with
          | none => rintro _ ⟨⟩
          | some p₂ =>
              rintro ⟨h₁⟩ ⟨h₂⟩
              exact .some (h₁.trans h₂)

theorem Evolves.some_left (h : Evolves s s') (hp : s.task i = some p) :
    ∃ p', s'.task i = some p' ∧ Benign p p' := by
  have hi := h.task i
  rw [hp] at hi
  revert hi
  cases s'.task i with
  | none => rintro ⟨⟩
  | some p' =>
      rintro ⟨hb⟩
      exact ⟨p', rfl, hb⟩

theorem Evolves.some_right {p' : Process} (h : Evolves s s') (hp : s'.task i = some p') :
    ∃ p, s.task i = some p ∧ Benign p p' := by
  have hi := h.task i
  rw [hp] at hi
  revert hi
  cases s.task i with
  | none => rintro ⟨⟩
  | some p =>
      rintro ⟨hb⟩
      exact ⟨p, rfl, hb⟩

theorem Evolves.modify (s : Table) (i : Task) {f : Process → Process}
    (h : ∀ p, s.task i = some p → Benign p (f p)) : Evolves s (s.modify i f) := by
  refine ⟨rfl, fun j => ?_⟩
  by_cases hj : j = i
  · subst hj
    rw [task_modify_self]
    cases hp : s.task j with
    | none => exact .none
    | some p => exact .some (h p hp)
  · rw [task_modify_of_ne hj]
    exact (Evolves.refl s).task j

theorem Evolves.mapTasks (s : Table) {f : Process → Process} (h : ∀ p, Benign p (f p)) :
    Evolves s (s.mapTasks f) := by
  refine ⟨rfl, fun j => ?_⟩
  rw [Table.mapTasks]
  dsimp only
  split
  next => exact (Evolves.refl s).task j
  next =>
    cases s.task j with
    | none => exact .none
    | some p => exact .some (h p)

theorem Evolves.pidAt (h : Evolves s s') (i : Task) :
    s'.toProcTable.pidAt i = s.toProcTable.pidAt i := by
  rw [pidAt_toProcTable, pidAt_toProcTable]
  cases hp : s'.task i with
  | some p' =>
      obtain ⟨p, hp₀, hb⟩ := h.some_right hp
      rw [hp₀, Option.map_some, Option.map_some, hb.pid]
  | none =>
      cases hp₀ : s.task i with
      | none => rfl
      | some p =>
          obtain ⟨p', hp', -⟩ := h.some_left hp₀
          rw [hp] at hp'
          cases hp'

theorem Evolves.inv (h : Evolves s s') (hs : s.Inv) : s'.Inv where
  valid := (ProcTable.Keeps.of_pidAt h.pidAt h.lastPid).valid hs.valid
  idle := by
    intro p' hp'
    obtain ⟨p, hp, hb⟩ := h.some_right hp'
    exact hb.other (hs.idle p hp)
  init := by
    obtain ⟨p, hp, hpid, hno⟩ := hs.init
    obtain ⟨p', hp', hb⟩ := h.some_left hp
    exact ⟨p', hp', hb.pid.trans hpid, hb.exiting.trans hno⟩
  zombie := by
    intro i p' hp' hz
    obtain ⟨p, hp, hb⟩ := h.some_right hp'
    rw [hb.exiting]
    exact hs.zombie i p hp (hb.zombie.1 hz)
  unstopped := by
    intro i p' hp' hstop
    obtain ⟨p, hp, hb⟩ := h.some_right hp'
    exact hs.unstopped i p hp (hb.stopped hstop)
  father := by
    intro i p' h₀ h₁ hp'
    obtain ⟨p, hp, hb⟩ := h.some_right hp'
    obtain ⟨hne, j, q, hq, hpid, hno⟩ := hs.father i p h₀ h₁ hp
    obtain ⟨q', hq', hb'⟩ := h.some_left hq
    exact ⟨hb.father ▸ hne, j, q', hq', by rw [hb'.pid, hpid, hb.father], hb'.exiting.trans hno⟩
  child := by
    intro i p' j q' hp' hq' hz hawaits
    obtain ⟨p, hp, hb⟩ := h.some_right hp'
    obtain ⟨q, hq, hb'⟩ := h.some_right hq'
    obtain ⟨hsleep, hfather, pid, nohang, untraced, hcall, haccept⟩ := hawaits
    obtain ⟨hcall₀, hsleep₀, hkeeps⟩ := hb.child pid nohang untraced hcall hsleep
    refine hkeeps (hs.child i p j q hp hq (hb'.zombie.1 hz) ⟨hsleep₀, ?_, pid, nohang, untraced,
      hcall₀, ?_⟩)
    · rw [← hb'.father, hfather, hb.pid]
    · rwa [← hb'.pid]

/-! ## The benign calls -/

theorem benign_post (p : Process) (mask : UInt32) : Benign p (p.post mask) :=
  .of_call rfl rfl rfl rfl rfl or_and_ne_zero

/-- A process that is no zombie comes to run, or to sleep in another call. -/
theorem Benign.of_awake {p p' : Process} (hpid : p'.pid = p.pid) (hfather : p'.father = p.father)
    (hcode : p'.exitCode = p.exitCode) (hexiting : p'.call.isExiting = p.call.isExiting)
    (hother : p.call = .other → p'.call = .other) (hz : p.state ≠ .zombie)
    (hz' : p'.state ≠ .zombie) (hstop : p'.state ≠ .stopped)
    (hawake : p'.state = .running ∨ ∀ pid nohang untraced, p'.call ≠ .waiting pid nohang untraced) :
    Benign p p' := by
  refine ⟨hpid, hfather, hcode, hexiting, hother, iff_of_false hz' hz, fun h => absurd h hstop,
    fun pid nohang untraced hcall hsleep => ?_⟩
  rcases hawake with hrun | hno
  · rw [hrun] at hsleep
    cases hsleep
  · exact absurd hcall (hno pid nohang untraced)

theorem benign_checkSignals (p : Process) : Benign p p.checkSignals := by
  unfold Process.checkSignals
  split
  next h =>
    exact .of_awake rfl rfl rfl rfl id (by simp [h.2]) (by simp [Process.setState])
      (by simp [Process.setState]) (.inl rfl)
  next => exact .refl p

theorem evolves_sendSig (s : Table) (current : Process) (sig : ℤ) (i : Task) (priv : Bool) :
    Evolves s (s.sendSig current sig i priv).1 := by
  unfold sendSig
  split
  next => exact .refl s
  next =>
    split
    next => exact .refl s
    next =>
      split
      next => exact .modify s i fun p _ => benign_post p _
      next => exact .refl s

theorem evolves_sysKill (s : Table) (current : Process) (pid sig : ℤ) :
    Evolves s (s.sysKill current pid sig).1 := by
  have hloop : ∀ (l : List Task) (r : Table × ℤ), Evolves s r.1 →
      Evolves s (l.foldl (killOne current pid sig) r).1 := by
    intro l
    induction l with
    | nil => exact fun _ h => h
    | cons i l ih =>
        intro r h
        refine ih _ ?_
        unfold killOne
        split
        next => exact h
        next priv _ => exact h.trans (evolves_sendSig r.1 current sig i priv)
  exact hloop _ _ (.refl s)

theorem evolves_killSession (s : Table) (session : ℤ) : Evolves s (s.killSession session) := by
  refine .mapTasks s fun p => ?_
  split
  next => exact benign_post p _
  next => exact .refl p

theorem evolves_sysSetpgid (s : Table) (current : Process) (pid pgid : ℤ) :
    Evolves s (s.sysSetpgid current pid pgid).1 := by
  unfold sysSetpgid
  dsimp only
  split
  next => exact .refl s
  next =>
    split
    next => exact .refl s
    next =>
      split
      next => exact .refl s
      next =>
        split
        next => exact .refl s
        next =>
          exact .modify s _ fun p _ => .of_call rfl rfl rfl rfl rfl id

theorem evolves_sysSetsid (s : Table) (i : Task) (current : Process) :
    Evolves s (s.sysSetsid i current).1 := by
  unfold sysSetsid
  split
  next => exact .refl s
  next =>
    exact .modify s i fun p _ => .of_call rfl rfl rfl rfl rfl id

theorem runs_eq_some {inCall : Call → Bool} :
    s.runs i inCall = some p ↔
      s.task i = some p ∧ i ≠ 0 ∧ p.state = .running ∧ inCall p.call = true := by
  unfold runs
  rw [Option.filter_eq_some_iff]
  simp only [Bool.decide_and, Bool.and_eq_true, decide_eq_true_eq, Bool.decide_coe]

/-! ## `fork` -/

theorem task_setTask_eq_some {x : Option Process} (h : (s.setTask k x).task i = some p) :
    i = k ∧ x = some p ∨ i ≠ k ∧ s.task i = some p := by
  by_cases hi : i = k
  · subst hi
    rw [task_setTask_self] at h
    exact .inl ⟨rfl, h⟩
  · rw [task_setTask_of_ne hi] at h
    exact .inr ⟨hi, h⟩

theorem toProcTable_setTask (s : Table) (k : Task) (x : Option Process) :
    (s.setTask k x).toProcTable = s.toProcTable.setTask k (x.map Process.toProc) := by
  unfold toProcTable setTask ProcTable.setTask
  dsimp only
  congr 1
  funext j
  by_cases hj : j = k
  · subst hj
    rw [Function.update_self, Function.update_self]
  · rw [Function.update_of_ne hj, Function.update_of_ne hj]

theorem Inv.setLastPid (h : s.Inv) {n : ℤ} (hpos : 0 ≤ n) (hlt : n < 2 ^ 31) :
    Inv { s with lastPid := n } :=
  ⟨⟨⟨h.valid.1.idle, hpos, hlt⟩, h.valid.2⟩, h.idle, h.init, h.zombie, h.unstopped, h.father,
    h.child⟩

/-- A new process whose father can wait for it. -/
theorem Inv.addTask (h : s.Inv) (hk : k ≠ 0) (hnone : s.task k = none) (hp : p.state = .running)
    (hfresh : ∀ j, s.toProcTable.pidAt j ≠ some p.pid) (hi : i ≠ 0) (hq : s.task i = some q)
    (hcall : q.call.isExiting = false) (hfather : p.father = q.pid) :
    (s.setTask k (some p)).Inv := by
  have hk₁ : k ≠ 1 := by
    rintro rfl
    obtain ⟨p₁, hp₁, -⟩ := h.init
    rw [hnone] at hp₁
    cases hp₁
  have hold : ∀ {j : Task} {r : Process}, s.task j = some r →
      (s.setTask k (some p)).task j = some r := by
    intro j r hr
    rw [task_setTask_of_ne _ _, hr]
    rintro rfl
    rw [hnone] at hr
    cases hr
  refine ⟨⟨⟨?_, h.valid.1.nonneg, h.valid.1.lt⟩, ?_⟩, fun r hr => ?_, ?_, fun j r hr hz => ?_,
    fun j r hr hstop => ?_, fun j r h₀ h₁ hr => ?_, fun w r j z hr hz hzombie hawaits => ?_⟩
  · rw [toProcTable_setTask, ProcTable.pidAt_setTask_of_ne hk.symm]
    exact h.valid.1.idle
  · rw [toProcTable_setTask]
    exact ProcTable.distinct_setTask h.valid.2 hfresh k
  · rw [task_setTask_of_ne hk.symm] at hr
    exact h.idle r hr
  · obtain ⟨p₁, hp₁, hpid, hno⟩ := h.init
    exact ⟨p₁, hold hp₁, hpid, hno⟩
  · rcases task_setTask_eq_some hr with ⟨-, heq⟩ | ⟨-, hr⟩
    · cases heq
      rw [hp] at hz
      cases hz
    · exact h.zombie j r hr hz
  · rcases task_setTask_eq_some hr with ⟨-, heq⟩ | ⟨-, hr⟩
    · cases heq
      rw [hp] at hstop
      cases hstop
    · exact h.unstopped j r hr hstop
  · rcases task_setTask_eq_some hr with ⟨-, heq⟩ | ⟨-, hr⟩
    · cases heq
      exact ⟨hfather ▸ h.pid_ne_zero hq hi, i, q, hold hq, hfather.symm, hcall⟩
    · obtain ⟨hne, j', q', hq', hpid, hno⟩ := h.father j r h₀ h₁ hr
      exact ⟨hne, j', q', hold hq', hpid, hno⟩
  · rcases task_setTask_eq_some hr with ⟨-, heq⟩ | ⟨-, hr⟩
    · cases heq
      rw [hawaits.asleep] at hp
      cases hp
    · rcases task_setTask_eq_some hz with ⟨-, heq⟩ | ⟨-, hz⟩
      · cases heq
        rw [hzombie] at hp
        cases hp
      · exact h.child w r j z hr hz hzombie hawaits

/-- What `sys_fork` does: nothing but to count on, or a new process. -/
theorem sysFork_cases (h : s.Inv) (current : Process) (page copied : Bool) :
    ∃ n, 0 ≤ n ∧ n < 2 ^ 31 ∧ (∀ j, s.toProcTable.pidAt j ≠ some n) ∧
      ((s.sysFork current page copied = ({ s with lastPid := n }, -EAGAIN, [])) ∨
        ∃ k, k ≠ 0 ∧ s.task k = none ∧ s.sysFork current page copied =
          (Table.setTask { s with lastPid := n } k (some { current with
            state := .running, pid := n, father := current.pid, signal := 0, leader := false }),
            n, [.forked current.pid n])) := by
  obtain ⟨r, nr, hfind, hfresh, hslot⟩ := ProcTable.findEmptyProcess_fresh h.valid.1
  refine ⟨r.lastPid, hfresh.pos.le, hfresh.lt, hfresh.unused, ?_⟩
  unfold sysFork
  rw [hfind NR_TASKS le_rfl]
  dsimp only
  rcases hslot with ⟨k, hk, hnone, rfl⟩ | ⟨rfl, -⟩
  · have hnone' : s.task k = none := by
      have hmap : (s.task k).map Process.toProc = none := hnone
      simpa using hmap
    rw [dif_pos ⟨by rw [Int.toNat_natCast]; exact k.isLt, by omega⟩]
    have hslot : (⟨(k.val : ℤ).toNat, by rw [Int.toNat_natCast]; exact k.isLt⟩ : Task) = k :=
      Fin.ext (Int.toNat_natCast _)
    rw [hslot]
    unfold copyProcess
    split
    next => exact .inl rfl
    next =>
      split
      next =>
        refine .inl ?_
        unfold setTask
        rw [Function.update_eq_self_iff.2 hnone'.symm]
      next => exact .inr ⟨k, hk, hnone', rfl⟩
  · rw [dif_neg (by unfold EAGAIN; omega)]
    exact .inl rfl

theorem Inv.sysFork (h : s.Inv) (hp : s.task i = some p) (hi : i ≠ 0) (hcall : p.call = .other)
    (page copied : Bool) : (s.sysFork p page copied).1.Inv := by
  obtain ⟨n, hpos, hlt, hfresh, hcases⟩ := sysFork_cases h p page copied
  have h₁ := h.setLastPid hpos hlt
  rcases hcases with heq | ⟨k, hk, hnone, heq⟩
  · rw [heq]
    exact h₁
  · rw [heq]
    exact h₁.addTask hk hnone rfl hfresh hi hp (by rw [hcall]; rfl) rfl

/-! ## `exit` -/

/-- What `do_exit` of the process `gone` does to another one while its children
go to the first process. -/
structure Adopted (gone : ℤ) (p p' : Process) : Prop where
  pid : p'.pid = p.pid
  father : p'.father = if p.father = gone then 1 else p.father
  call : p'.call = p.call
  state : p'.state = p.state
  exitCode : p'.exitCode = p.exitCode
  child : p.hasChild → p'.hasChild

theorem adopted_adopt (pid : ℤ) (p : Process) : Adopted pid p (p.adopt pid) := by
  unfold Process.adopt
  split
  next h => exact ⟨rfl, (if_pos h).symm, rfl, rfl, rfl, id⟩
  next h => exact ⟨rfl, (if_neg h).symm, rfl, rfl, rfl, id⟩

theorem Adopted.post {p' : Process} (h : Adopted pid p p') (mask : UInt32) :
    Adopted pid p (p'.post mask) :=
  ⟨h.pid, h.father, h.call, h.state, h.exitCode, fun hchild => or_and_ne_zero (h.child hchild)⟩

theorem hasChild_post (p : Process) : (p.post (sigMask SIGCHLD)).hasChild :=
  or_self_and_ne_zero (by decide)

theorem lastPid_adoptChildren (s : Table) (pid : ℤ) :
    (s.adoptChildren pid).lastPid = s.lastPid := by
  unfold adoptChildren
  dsimp only
  split <;> rfl

theorem rel_adoptChildren (s : Table) (pid : ℤ) (j : Task) :
    Option.Rel (Adopted pid) (s.task j) ((s.adoptChildren pid).task j) := by
  have hmap : Option.Rel (Adopted pid) (s.task j) ((s.task j).map (Process.adopt · pid)) := by
    cases s.task j with
    | none => exact .none
    | some p => exact .some (adopted_adopt pid p)
  unfold adoptChildren
  dsimp only
  split
  next =>
    by_cases hj : j = 1
    · subst hj
      rw [task_modify_self]
      change Option.Rel _ _ (((s.task 1).map (Process.adopt · pid)).map _)
      revert hmap
      cases s.task 1 with
      | none => exact id
      | some p =>
          rintro ⟨hb⟩
          exact .some (hb.post _)
    · rw [task_modify_of_ne hj]
      exact hmap
  next => exact hmap

/-- The first process learns of the zombies that it gets. -/
theorem hasChild_adoptChildren {p' : Process} (hq : s.task j = some q) (hfather : q.father = pid)
    (hz : q.state = .zombie) (hp : (s.adoptChildren pid).task 1 = some p') : p'.hasChild := by
  unfold adoptChildren at hp
  dsimp only at hp
  rw [if_pos] at hp
  · rw [task_modify_self] at hp
    obtain ⟨p, -, rfl⟩ := Option.map_eq_some_iff.1 hp
    exact hasChild_post p
  · exact List.any_eq_true.2 ⟨j, List.mem_finRange j, by simp [hq, hfather, hz]⟩

theorem adoptChildren_right {p' : Process} (h : (s.adoptChildren pid).task j = some p') :
    ∃ p, s.task j = some p ∧ Adopted pid p p' := by
  have hrel := rel_adoptChildren s pid j
  rw [h] at hrel
  revert hrel
  cases s.task j with
  | none => rintro ⟨⟩
  | some p =>
      rintro ⟨hb⟩
      exact ⟨p, rfl, hb⟩

theorem adoptChildren_left (h : s.task j = some p) :
    ∃ p', (s.adoptChildren pid).task j = some p' ∧ Adopted pid p p' := by
  have hrel := rel_adoptChildren s pid j
  rw [h] at hrel
  revert hrel
  cases (s.adoptChildren pid).task j with
  | none => rintro ⟨⟩
  | some p' =>
      rintro ⟨hb⟩
      exact ⟨p', rfl, hb⟩

theorem doExit_right {code : ℤ} {p' : Process} (h : (s.doExit i p code).1.task j = some p') :
    ∃ q, s.task j = some q ∧ Adopted p.pid q { p' with call := q.call } ∧
      p'.call = if j = i then .exiting code else q.call := by
  unfold doExit at h
  dsimp only at h
  by_cases hj : j = i
  · subst hj
    rw [task_modify_self] at h
    obtain ⟨q', hq', rfl⟩ := Option.map_eq_some_iff.1 h
    obtain ⟨q, hq, hb⟩ := adoptChildren_right hq'
    exact ⟨q, hq, ⟨hb.pid, hb.father, rfl, hb.state, hb.exitCode, hb.child⟩, (if_pos rfl).symm⟩
  · rw [task_modify_of_ne hj] at h
    obtain ⟨q, hq, hb⟩ := adoptChildren_right h
    refine ⟨q, hq, ⟨hb.pid, hb.father, rfl, hb.state, hb.exitCode, hb.child⟩, ?_⟩
    rw [if_neg hj, hb.call]

theorem doExit_left (hq : s.task j = some q) (code : ℤ) :
    ∃ p', (s.doExit i p code).1.task j = some p' ∧ Adopted p.pid q { p' with call := q.call } ∧
      p'.call = if j = i then .exiting code else q.call := by
  obtain ⟨q', hq', hb⟩ : ∃ q', (s.adoptChildren p.pid).task j = some q' ∧ Adopted p.pid q q' :=
    adoptChildren_left hq
  unfold doExit
  dsimp only
  by_cases hj : j = i
  · subst hj
    refine ⟨q'.setCall (.exiting code), by rw [task_modify_self, hq']; rfl,
      ⟨hb.pid, hb.father, rfl, hb.state, hb.exitCode, hb.child⟩, (if_pos rfl).symm⟩
  · exact ⟨q', by rw [task_modify_of_ne hj, hq'],
      ⟨hb.pid, hb.father, rfl, hb.state, hb.exitCode, hb.child⟩, by rw [if_neg hj, hb.call]⟩

theorem pidAt_doExit (s : Table) (i : Task) (p : Process) (code : ℤ) (j : Task) :
    (s.doExit i p code).1.toProcTable.pidAt j = s.toProcTable.pidAt j := by
  rw [pidAt_toProcTable, pidAt_toProcTable]
  cases hp' : (s.doExit i p code).1.task j with
  | some p' =>
      obtain ⟨q, hq, hb, -⟩ := doExit_right hp'
      rw [hq, Option.map_some, Option.map_some, ← hb.pid]
  | none =>
      cases hq : s.task j with
      | none => rfl
      | some q =>
          obtain ⟨p', hsome, -⟩ := doExit_left (i := i) (p := p) hq code
          rw [hp'] at hsome
          cases hsome

/-- The task that exits leaves its children to the first process. -/
theorem Inv.doExit (h : s.Inv) (hp : s.task i = some p) (h₀ : i ≠ 0) (h₁ : i ≠ 1) (code : ℤ) :
    (s.doExit i p code).1.Inv := by
  obtain ⟨p₁, hp₁, hone, hinit⟩ := h.init
  obtain ⟨p₁', hp₁', hb₁, hcall₁⟩ := doExit_left (i := i) (p := p) hp₁ code
  rw [if_neg h₁.symm] at hcall₁
  refine ⟨(ProcTable.Keeps.of_pidAt (pidAt_doExit s i p code)
    (lastPid_adoptChildren s p.pid)).valid h.valid, fun q hq => ?_, ?_, fun j q hq hz => ?_,
    fun j q hq hstop => ?_, fun j q hj₀ hj₁ hq => ?_, fun w r j z hr hz hzombie hawaits => ?_⟩
  · obtain ⟨q₀, hq₀, hb, hcall⟩ := doExit_right hq
    rw [hcall, if_neg h₀.symm, h.idle q₀ hq₀]
  · exact ⟨p₁', hp₁', hb₁.pid.trans hone, by rw [hcall₁, hinit]⟩
  · obtain ⟨q₀, hq₀, hb, hcall⟩ := doExit_right hq
    rw [hcall]
    split
    next => rfl
    next => exact h.zombie j q₀ hq₀ (hb.state.symm.trans hz)
  · obtain ⟨q₀, hq₀, hb, -⟩ := doExit_right hq
    exact h.unstopped j q₀ hq₀ (hb.state.symm.trans hstop)
  · obtain ⟨q₀, hq₀, hb, -⟩ := doExit_right hq
    have hfather : q.father = if q₀.father = p.pid then 1 else q₀.father := hb.father
    split at hfather
    next =>
      exact ⟨by omega, 1, p₁', hp₁', (hb₁.pid.trans hone).trans hfather.symm,
        by rw [hcall₁, hinit]⟩
    next hne =>
      obtain ⟨hzero, k, r, hr, hpid, hno⟩ := h.father j q₀ hj₀ hj₁ hq₀
      obtain ⟨r', hr', hb', hcall'⟩ := doExit_left (i := i) (p := p) hr code
      refine ⟨hfather ▸ hzero, k, r', hr', (hb'.pid.trans hpid).trans hfather.symm, ?_⟩
      rw [hcall', if_neg, hno]
      -- the father is not the task that exits
      rintro rfl
      cases hp.symm.trans hr
      exact hne hpid.symm
  · obtain ⟨r₀, hr₀, hbr, hcallr⟩ := doExit_right hr
    obtain ⟨z₀, hz₀, hbz, -⟩ := doExit_right hz
    obtain ⟨hsleep, hfather, pid, nohang, untraced, hcall, haccept⟩ := hawaits
    have hw : w ≠ i := by
      rintro rfl
      rw [hcall, if_pos rfl] at hcallr
      cases hcallr
    rw [if_neg hw] at hcallr
    have hfather₀ : z.father = if z₀.father = p.pid then 1 else z₀.father := hbz.father
    split at hfather₀
    next hchild =>
      -- the zombie goes to the first process, which is told
      have hw₁ : w = 1 := by
        refine h.unique hr₀ hp₁ ?_
        rw [hone, ← hfather₀, hfather]
        exact hbr.pid.symm
      subst hw₁
      have hr' := hr
      unfold Table.doExit at hr'
      dsimp only at hr'
      rw [task_modify_of_ne hw] at hr'
      exact hasChild_adoptChildren hz₀ hchild (hbz.state.symm.trans hzombie) hr'
    next =>
      refine hbr.child (h.child w r₀ j z₀ hr₀ hz₀ (hbz.state.symm.trans hzombie)
        ⟨hbr.state.symm.trans hsleep, ?_, pid, nohang, untraced, hcallr.symm.trans hcall, ?_⟩)
      · exact (hfather₀.symm.trans hfather).trans hbr.pid
      · have hpid : z.pid = z₀.pid := hbz.pid
        rwa [← hpid]

end

end Table

end MyJavaExample.Kernel
