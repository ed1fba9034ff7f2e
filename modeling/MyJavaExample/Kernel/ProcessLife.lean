import MyJavaExample.Kernel.ProcessSteps

/-!
# The life of each process over whole runs

Seen from one number a run is a walk through a small automaton: a process is
forked, exits and is reaped, in this order; while it lives or is a zombie its
father is the process that forked it, or the first one after that one left.  A
process is reaped by its father only, once, and with the code it exited with,
and its number is free again only then.
-/

namespace MyJavaExample.Kernel

/-! ## The automaton -/

inductive Life where
  | absent
  | alive (father : ℤ)
  | dead (father code : ℤ)
deriving DecidableEq

/-- The children of `gone` belong to the first process. -/
def Life.adopted (gone : ℤ) : Life → Life
  | .absent => .absent
  | .alive father => .alive (if father = gone then 1 else father)
  | .dead father code => .dead (if father = gone then 1 else father) code

/-- What an event makes of the process `pid`; none if it must not happen. -/
def Life.step (pid : ℤ) (life : Life) : Event → Option Life
  | .left gone => some (life.adopted gone)
  | .forked father n =>
      if n = pid then if life = .absent then some (.alive father) else none else some life
  | .exited n code =>
      if n = pid then
        match life with
        | .alive father => some (.dead father code)
        | _ => none
      else some life
  | .reaped father n code =>
      if n = pid then if life = .dead father code then some .absent else none else some life
  | .vanished n => if n = pid then none else some life

def Process.life (p : Process) : Life :=
  if p.state = .zombie then .dead p.father p.exitCode else .alive p.father

/-- The first process begins to exit. -/
def ProcessAct.endsInit : ProcessAct → Bool
  | .exit i _ => i = 1
  | _ => false

namespace Table

/-- What the table says of a number. -/
def life (s : Table) (pid : ℤ) : Life :=
  match (s.findPid pid).bind s.task with
  | none => .absent
  | some p => p.life

section

variable {s s' : Table} {i j k : Task} {p q : Process} {pid code : ℤ} {a : ProcessAct}

theorem life_of_task (h : s.Inv) (hp : s.task i = some p) : s.life p.pid = p.life := by
  obtain ⟨j, hj⟩ := Option.isSome_iff_exists.1 (findPid_isSome hp rfl)
  obtain ⟨q, hq, hpid⟩ := findPid_eq_some hj
  obtain rfl := h.unique hq hp hpid
  rw [life, hj, Option.bind_some, hp]

theorem life_absent (h : ∀ i, s.toProcTable.pidAt i ≠ some pid) : s.life pid = .absent := by
  cases hj : s.findPid pid with
  | none => rw [life, hj, Option.bind_none]
  | some j =>
      obtain ⟨q, hq, hpid⟩ := findPid_eq_some hj
      refine absurd ?_ (h j)
      rw [pidAt_toProcTable, hq, Option.map_some, hpid]

theorem findPid_congr (h : ∀ i, s'.toProcTable.pidAt i = s.toProcTable.pidAt i) (pid : ℤ) :
    s'.findPid pid = s.findPid pid := by
  unfold findPid
  congr 1
  funext i
  have hi := h i
  rw [pidAt_toProcTable, pidAt_toProcTable] at hi
  revert hi
  cases s'.task i with
  | none =>
      cases s.task i with
      | none => exact fun _ => rfl
      | some p => exact fun hno => by cases hno
  | some p' =>
      cases s.task i with
      | none => exact fun hno => by cases hno
      | some p =>
          intro hi
          have hpid : p'.pid = p.pid := Option.some.inj hi
          simp [hpid]

/-- Tasks that keep their numbers, and what becomes of one of the numbers. -/
theorem life_map (g : Life → Life) (hg : g .absent = .absent)
    (h : ∀ i, Option.Rel (fun p p' => p'.pid = p.pid ∧ (p.pid = pid → p'.life = g p.life))
      (s.task i) (s'.task i)) : s'.life pid = g (s.life pid) := by
  have hpids : ∀ i, s'.toProcTable.pidAt i = s.toProcTable.pidAt i := by
    intro i
    have hi := h i
    rw [pidAt_toProcTable, pidAt_toProcTable]
    revert hi
    cases s.task i with
    | none =>
        cases s'.task i with
        | none => exact fun _ => rfl
        | some p' => rintro ⟨⟩
    | some p =>
        cases s'.task i with
        | none => rintro ⟨⟩
        | some p' =>
            rintro ⟨hpid, -⟩
            rw [Option.map_some, Option.map_some, hpid]
  unfold life
  rw [findPid_congr hpids]
  cases hj : s.findPid pid with
  | none => exact hg.symm
  | some j =>
      obtain ⟨p, hp, hpid⟩ := findPid_eq_some hj
      have hrel := h j
      rw [Option.bind_some, Option.bind_some, hp]
      rw [hp] at hrel
      revert hrel
      cases s'.task j with
      | none => rintro ⟨⟩
      | some p' =>
          rintro ⟨-, hlife⟩
          exact hlife hpid

theorem Benign.life {p p' : Process} (h : Benign p p') : p'.life = p.life := by
  unfold Process.life
  rw [h.father, h.exitCode]
  exact if_congr h.zombie rfl rfl

theorem Evolves.life (h : Evolves s s') (pid : ℤ) : s'.life pid = s.life pid :=
  life_map id rfl fun i => by
    have hi := h.task i
    revert hi
    cases s.task i with
    | none =>
        cases s'.task i with
        | none => exact fun _ => .none
        | some p' => rintro ⟨⟩
    | some p =>
        cases s'.task i with
        | none => rintro ⟨⟩
        | some p' =>
            rintro ⟨hb⟩
            exact .some ⟨hb.pid, fun _ => hb.life⟩

/-- A change of one task that the number does not show. -/
theorem life_modify (s : Table) (i : Task) (f : Process → Process)
    (h : ∀ p, s.task i = some p → (f p).pid = p.pid ∧ (f p).life = p.life) (pid : ℤ) :
    (s.modify i f).life pid = s.life pid :=
  life_map id rfl fun j => by
    by_cases hj : j = i
    · subst hj
      rw [task_modify_self]
      cases hp : s.task j with
      | none => exact .none
      | some p => exact .some ⟨(h p hp).1, fun _ => (h p hp).2⟩
    · rw [task_modify_of_ne hj]
      cases s.task j with
      | none => exact .none
      | some p => exact .some ⟨rfl, fun _ => rfl⟩

theorem life_setOther (s : Table) (i : Task) (pid : ℤ) :
    (s.modify i fun p => p.setCall .other).life pid = s.life pid :=
  life_modify s i (fun p => p.setCall .other) (fun _ _ => ⟨rfl, rfl⟩) pid

/-- What happened agrees with the tables before and after it. -/
def Follows (s s' : Table) (events : List Event) : Prop :=
  ∀ pid, events.foldlM (Life.step pid) (s.life pid) = some (s'.life pid)

theorem follows_one {e : Event} (h : ∀ pid, Life.step pid (s.life pid) e = some (s'.life pid)) :
    Follows s s' [e] := fun pid => by
  change (Life.step pid (s.life pid) e >>= pure) = _
  rw [bind_pure, h pid]

theorem Evolves.follows (h : Evolves s s') : Follows s s' [] := fun pid =>
  congrArg some (h.life pid).symm

theorem life_setTask_none (h : s.Inv) (hq : s.task j = some q) (h' : (s.setTask j none).Inv)
    (pid : ℤ) : (s.setTask j none).life pid = if q.pid = pid then .absent else s.life pid := by
  split
  next heq =>
    refine life_absent fun k => ?_
    rw [pidAt_toProcTable]
    by_cases hk : k = j
    · subst hk
      rw [task_setTask_self]
      simp
    · rw [task_setTask_of_ne hk]
      intro hmap
      obtain ⟨r, hr, hpid⟩ := Option.map_eq_some_iff.1 hmap
      exact hk (h.unique hr hq (hpid.trans heq.symm))
  next hne =>
    by_cases hex : ∃ k r, s.task k = some r ∧ r.pid = pid
    · obtain ⟨k, r, hr, rfl⟩ := hex
      have hk : k ≠ j := by
        rintro rfl
        cases hq.symm.trans hr
        exact hne rfl
      rw [life_of_task h hr, life_of_task h' (by rw [task_setTask_of_ne hk, hr])]
    · have hnone : ∀ k, s.toProcTable.pidAt k ≠ some pid := fun k hmap => by
        rw [pidAt_toProcTable] at hmap
        obtain ⟨r, hr, hpid⟩ := Option.map_eq_some_iff.1 hmap
        exact hex ⟨k, r, hr, hpid⟩
      rw [life_absent hnone, life_absent fun k => ?_]
      rw [pidAt_toProcTable]
      intro hmap
      obtain ⟨r, hr, hpid⟩ := Option.map_eq_some_iff.1 hmap
      rcases task_setTask_eq_some hr with ⟨-, hno⟩ | ⟨-, hr⟩
      · cases hno
      · exact hex ⟨k, r, hr, hpid⟩

/-! ## One action -/

theorem follows_sysFork (h : s.Inv) (hp : s.task i = some p) (hi : i ≠ 0) (hcall : p.call = .other)
    (page copied : Bool) :
    Follows s (s.sysFork p page copied).1 (s.sysFork p page copied).2.2 := by
  obtain ⟨n, hpos, hlt, hfresh, hcases⟩ := sysFork_cases h p page copied
  have h' := h.sysFork hp hi hcall page copied
  rcases hcases with heq | ⟨k, hk, hnone, heq⟩
  · rw [heq]
    exact fun pid => rfl
  · rw [heq] at h' ⊢
    dsimp only at h' ⊢
    refine follows_one fun pid => ?_
    rw [Life.step]
    by_cases hpid : n = pid
    · subst hpid
      rw [if_pos rfl, if_pos (life_absent hfresh)]
      exact congrArg some (life_of_task h' (task_setTask_self ..)).symm
    · rw [if_neg hpid]
      congr 1
      symm
      by_cases hex : ∃ j r, s.task j = some r ∧ r.pid = pid
      · obtain ⟨j, r, hr, rfl⟩ := hex
        have hj : j ≠ k := by
          rintro rfl
          rw [hnone] at hr
          cases hr
        rw [life_of_task h hr]
        exact life_of_task h' (by rw [task_setTask_of_ne hj]; exact hr)
      · have hno : ∀ j, s.toProcTable.pidAt j ≠ some pid := fun j hmap => by
          rw [pidAt_toProcTable] at hmap
          obtain ⟨r, hr, hrpid⟩ := Option.map_eq_some_iff.1 hmap
          exact hex ⟨j, r, hr, hrpid⟩
        rw [life_absent hno]
        refine life_absent fun j hmap => ?_
        rw [pidAt_toProcTable] at hmap
        obtain ⟨r, hr, hrpid⟩ := Option.map_eq_some_iff.1 hmap
        rcases task_setTask_eq_some hr with ⟨-, hnew⟩ | ⟨-, hr⟩
        · cases hnew
          exact hpid hrpid
        · exact hex ⟨j, r, hr, hrpid⟩

theorem Adopted.life {gone : ℤ} {p p' : Process} (h : Adopted gone p p') :
    p'.life = p.life.adopted gone := by
  unfold Process.life
  rw [h.state, h.father, h.exitCode]
  split <;> rfl

theorem follows_doExit (s : Table) (i : Task) (p : Process) (code : ℤ) :
    Follows s (s.doExit i p code).1 (s.doExit i p code).2 := by
  refine follows_one fun pid => ?_
  rw [Life.step]
  refine congrArg some (life_map (Life.adopted p.pid) rfl fun j => ?_).symm
  cases hq : s.task j with
  | none =>
      cases hq' : (s.doExit i p code).1.task j with
      | none => exact .none
      | some q' =>
          obtain ⟨q, hsome, -⟩ := doExit_right hq'
          rw [hq] at hsome
          cases hsome
  | some q =>
      obtain ⟨q', hq', hb, -⟩ := doExit_left (i := i) (p := p) hq code
      rw [hq']
      exact .some ⟨hb.pid, fun _ => hb.life⟩

theorem follows_bury (h : s.Inv) (h' : (s.bury i j code).Inv) (hp : s.task i = some p)
    (hrun : p.state ≠ .zombie) (hj : j ≠ i) : Follows s (s.bury i j code) [.exited p.pid code] := by
  refine follows_one fun pid => ?_
  by_cases hpid : p.pid = pid
  · subst hpid
    obtain ⟨p', hp', hb⟩ := bury_left hj hp code
    have halive : p.life = .alive p.father := if_neg hrun
    have hdead : p'.life = .dead p.father code := by
      rw [← hb.father, ← (hb.zombie rfl).2]
      exact if_pos (hb.zombie rfl).1
    have hlife : (s.bury i j code).life p.pid = .dead p.father code := by
      rw [← hb.pid, life_of_task h' hp', hdead]
    rw [life_of_task h hp, halive, hlife]
    exact if_pos rfl
  · refine (if_neg hpid).trans (congrArg some (life_map id rfl fun k => ?_).symm)
    rw [task_bury s hj]
    cases hr : s.task k with
    | none => exact .none
    | some r =>
        have hb := buried k hj code r
        refine .some ⟨hb.pid, fun hrpid => ?_⟩
        have hk : k ≠ i := by
          rintro rfl
          cases hp.symm.trans hr
          exact hpid hrpid
        unfold Process.life
        rw [(hb.other hk).1, (hb.other hk).2, hb.father]
        rfl

theorem follows_finishExit (h : s.Inv) (hp : s.task i = some p) (hi : i ≠ 0)
    (hrun : p.state = .running) (hexit : p.call.isExiting) (code : ℤ) :
    Follows s (s.finishExit i p code).1 (s.finishExit i p code).2 := by
  have h' := h.finishExit hp hi hexit code
  obtain ⟨s₁, p₁, j, q, hevolves, hp₁, hb, hj, hq, hpid, heq⟩ := finishExit_eq h hp hi hexit code
  rw [heq] at h' ⊢
  have hfollows := follows_bury (hevolves.inv h) h' hp₁ (fun hz => by
    rw [hb.zombie.1 hz] at hrun
    cases hrun) hj
  intro pid
  rw [← hevolves.life pid, ← hb.pid]
  exact hfollows pid

theorem follows_search (h : s.Inv) (hp : s.task i = some p) (hrun : p.state = .running)
    (pid : ℤ) (nohang untraced : Bool) :
    Follows s (s.search i p pid nohang untraced).1 (s.search i p pid nohang untraced).2.2 := by
  rcases search_cases h i p pid nohang untraced with
    ⟨j, q, -, hq, -, hz, hfather, heq⟩ | ⟨-, heq | ⟨r, heq⟩⟩
  · rw [heq]
    refine follows_one fun n => ?_
    rw [life_setOther, life_setTask_none h hq (h.reap hq hz), Life.step]
    split
    next hn =>
      subst hn
      have hdead : q.life = .dead p.pid q.exitCode := by
        rw [← hfather]
        exact if_pos hz
      rw [life_of_task h hq, hdead, if_pos rfl]
    next => rfl
  · rw [heq]
    refine fun n => congrArg some (life_modify s i
      (fun p => (p.setState .interruptible).setCall (.waiting pid nohang untraced))
      (fun r hr => ⟨rfl, ?_⟩) n).symm
    cases hp.symm.trans hr
    unfold Process.life
    rw [hrun]
    rfl
  · rw [heq]
    exact fun n => congrArg some (life_setOther s i n).symm

theorem follows_wakeWait (h : s.Inv) (hp : s.task i = some p) (hrun : p.state = .running)
    (pid : ℤ) (nohang untraced : Bool) :
    Follows s (s.wakeWait i pid nohang untraced).1 (s.wakeWait i pid nohang untraced).2.2 := by
  have hevolves := evolves_clear hp hrun (sigMask SIGCHLD)
  have hp₁ : (s.modify i fun p => p.clear (sigMask SIGCHLD)).task i =
      some (p.clear (sigMask SIGCHLD)) := by
    rw [task_modify_self, hp, Option.map_some]
  intro n
  rw [← hevolves.life n]
  unfold wakeWait
  dsimp only
  rw [hp₁]
  dsimp only
  split
  next => exact follows_search (hevolves.inv h) hp₁ hrun pid nohang untraced n
  next => exact congrArg some (life_setOther _ i n).symm

/-- An action is benign, or one of those of the life of a process. -/
theorem Inv.next (h : s.Inv) (ha : a.endsInit = false) :
    (s.next a).1.Inv ∧ Follows s (s.next a).1 (s.next a).2 := by
  have hevolves : ∀ {s'}, Evolves s s' → s'.Inv ∧ Follows s s' [] := fun h' => ⟨h'.inv h, h'.follows⟩
  have hself := hevolves (.refl s)
  cases a with
  | fork i page copied =>
      rw [Table.next]
      split
      next => exact hself
      next current hcurrent =>
        obtain ⟨hp, hi, hrun, hcall⟩ := runs_eq_some.1 hcurrent
        have hother : current.call = .other := of_decide_eq_true hcall
        exact ⟨h.sysFork hp hi hother page copied, follows_sysFork h hp hi hother page copied⟩
  | exit i code =>
      rw [Table.next]
      split
      next => exact hself
      next current hcurrent =>
        obtain ⟨hp, hi, -, -⟩ := runs_eq_some.1 hcurrent
        have hi₁ : i ≠ 1 := of_decide_eq_false ha
        exact ⟨h.doExit hp hi hi₁ code, follows_doExit s i current code⟩
  | finishExit i =>
      rw [Table.next]
      split
      next current hcurrent =>
        obtain ⟨hp, hi, hrun, hexit⟩ := runs_eq_some.1 hcurrent
        split
        next code _ =>
          exact ⟨h.finishExit hp hi hexit code, follows_finishExit h hp hi hrun hexit code⟩
        next => exact hself
      next => exact hself
  | waitpid i pid nohang untraced =>
      rw [Table.next]
      split
      next => exact hself
      next current hcurrent =>
        obtain ⟨hp, hi, hrun, hcall⟩ := runs_eq_some.1 hcurrent
        have hother : current.call = .other := of_decide_eq_true hcall
        exact ⟨h.search hp hrun (by rw [hother]; rfl) hi pid nohang untraced,
          follows_search h hp hrun pid nohang untraced⟩
  | wakeWait i =>
      rw [Table.next]
      split
      next current hcurrent =>
        obtain ⟨hp, hi, hrun, -⟩ := runs_eq_some.1 hcurrent
        split
        next pid nohang untraced hcall =>
          exact ⟨h.wakeWait hp hrun (by rw [hcall]; rfl) hi pid nohang untraced,
            follows_wakeWait h hp hrun pid nohang untraced⟩
        next => exact hself
      next => exact hself
  | schedule => exact hevolves (.mapTasks s benign_checkSignals)
  | kill i pid sig =>
      rw [Table.next]
      split
      next => exact hself
      next current _ => exact hevolves (evolves_sysKill s current pid sig)
  | post j mask => exact hevolves (.modify s j fun p _ => benign_post p mask)
  | deliver i mask =>
      rw [Table.next]
      split
      next => exact hself
      next current hcurrent =>
        obtain ⟨hp, -, hrun, -⟩ := runs_eq_some.1 hcurrent
        exact hevolves (evolves_clear hp hrun mask)
  | setBlocked i mask =>
      rw [Table.next]
      split
      next => exact hself
      next => exact hevolves (.modify s i fun p _ => .of_call rfl rfl rfl rfl rfl id)
  | setEuid i euid =>
      rw [Table.next]
      split
      next => exact hself
      next => exact hevolves (.modify s i fun p _ => .of_call rfl rfl rfl rfl rfl id)
  | setpgid i pid pgid =>
      rw [Table.next]
      split
      next => exact hself
      next current _ => exact hevolves (evolves_sysSetpgid s current pid pgid)
  | setsid i =>
      rw [Table.next]
      split
      next => exact hself
      next current _ => exact hevolves (evolves_sysSetsid s i current)
  | sleep i interruptible =>
      rw [Table.next]
      split
      next => exact hself
      next current hcurrent =>
        obtain ⟨hp, -, hrun, hcall⟩ := runs_eq_some.1 hcurrent
        refine hevolves (.modify s i fun q hq => ?_)
        cases hp.symm.trans hq
        refine .of_awake rfl rfl rfl rfl id (by simp [hrun]) ?_ ?_ (.inr ?_)
        · cases interruptible <;> simp [Process.setState]
        · cases interruptible <;> simp [Process.setState]
        · rintro pid nohang untraced heq
          have hcall' : current.call = .waiting pid nohang untraced := heq
          rw [hcall'] at hcall
          cases hcall
  | wakeUp i =>
      rw [Table.next]
      split
      next => exact hself
      next p hp =>
        split
        next hsleep =>
          refine hevolves (.modify s i fun q hq => ?_)
          cases hp.symm.trans hq
          refine .of_awake rfl rfl rfl rfl id ?_ (by simp [Process.setState])
            (by simp [Process.setState]) (.inl rfl)
          rcases hsleep with hsleep | hsleep <;> simp [hsleep]
        next => exact hself

/-! ## Runs -/

theorem inv_boot : boot.Inv := by
  have hcases : ∀ {i : Task} {p : Process}, boot.task i = some p → p.state = .running ∧ p.call = .other ∧
      (i = 0 ∧ p.pid = 0 ∨ i = 1 ∧ p.pid = 1) := by
    intro i p hp
    unfold boot at hp
    dsimp only at hp
    split at hp
    next hi =>
      cases hp
      exact ⟨rfl, rfl, .inl ⟨hi, rfl⟩⟩
    next =>
      split at hp
      next hi =>
        cases hp
        exact ⟨rfl, rfl, .inr ⟨hi, rfl⟩⟩
      next => cases hp
  refine ⟨⟨⟨rfl, by decide, by decide⟩, fun i j pid hi hj => ?_⟩, fun p hp => (hcases hp).2.1,
    ⟨_, rfl, rfl, rfl⟩, fun i p hp hz => ?_, fun i p hp hstop => ?_, fun i p h₀ h₁ hp => ?_,
    fun w r k z _ hz hzombie => ?_⟩
  · rw [pidAt_toProcTable] at hi hj
    obtain ⟨p, hp, hpid⟩ := Option.map_eq_some_iff.1 hi
    obtain ⟨q, hq, hqid⟩ := Option.map_eq_some_iff.1 hj
    rcases (hcases hp).2.2 with ⟨hi, hone⟩ | ⟨hi, hone⟩ <;>
      rcases (hcases hq).2.2 with ⟨hj, hone'⟩ | ⟨hj, hone'⟩
    · rw [hi, hj]
    · omega
    · omega
    · rw [hi, hj]
  · rw [(hcases hp).1] at hz
    cases hz
  · rw [(hcases hp).1] at hstop
    cases hstop
  · rcases (hcases hp).2.2 with ⟨hi, -⟩ | ⟨hi, -⟩
    · exact absurd hi h₀
    · exact absurd hi h₁
  · rw [(hcases hz).1] at hzombie
    cases hzombie

theorem Inv.run {as : List ProcessAct} (h : s.Inv) (has : ∀ a ∈ as, a.endsInit = false) :
    (s.run as).1.Inv ∧ Follows s (s.run as).1 (s.run as).2 := by
  induction as generalizing s with
  | nil => exact ⟨h, fun pid => rfl⟩
  | cons a as ih =>
      obtain ⟨h₁, hfollows₁⟩ := h.next (has a List.mem_cons_self)
      obtain ⟨h', hfollows⟩ := ih h₁ fun b hb => has b (List.mem_cons_of_mem a hb)
      refine ⟨h', fun pid => ?_⟩
      change ((s.next a).2 ++ _).foldlM _ _ = _
      rw [List.foldlM_append, hfollows₁ pid]
      exact hfollows pid

section Boot

variable {as : List ProcessAct}

/-- As long as the first process does not exit, the life of every number is a
walk through the automaton. -/
theorem life_cycle (has : ∀ a ∈ as, a.endsInit = false) (pid : ℤ) :
    (boot.run as).2.foldlM (Life.step pid) (boot.life pid) = some ((boot.run as).1.life pid) :=
  (inv_boot.run has).2 pid

theorem life_cycle_child :
    (boot.run [.fork 1 true true, .waitpid 1 (-1) false false, .exit 2 7, .finishExit 2, .schedule,
      .wakeWait 1]).2.foldlM (Life.step 2) (boot.life 2) =
    some ((boot.run [.fork 1 true true, .waitpid 1 (-1) false false, .exit 2 7, .finishExit 2,
      .schedule, .wakeWait 1]).1.life 2) :=
  life_cycle (by decide) 2

/-- Every process but the first two has a father that does not exit, and a
process that sleeps in `sys_waitpid` knows of the zombies it waits for. -/
structure LookedAfter (s : Table) : Prop where
  father : ∀ i p, i ≠ 0 → i ≠ 1 → s.task i = some p →
    ∃ j q, s.task j = some q ∧ q.pid = p.father ∧ q.state ≠ .zombie ∧ q.call.isExiting = false
  told : ∀ i p j q, s.task i = some p → s.task j = some q → q.state = .zombie → p.Awaits q →
    p.hasChild

theorem looked_after (has : ∀ a ∈ as, a.endsInit = false) : (boot.run as).1.LookedAfter := by
  have h := (inv_boot.run has).1
  refine ⟨fun i p h₀ h₁ hp => ?_, h.child⟩
  obtain ⟨-, j, q, hq, hpid, hno⟩ := h.father i p h₀ h₁ hp
  refine ⟨j, q, hq, hpid, fun hz => ?_, hno⟩
  rw [h.zombie j q hq hz] at hno
  cases hno

theorem looked_after_orphan :
    (boot.run [.fork 1 true true, .fork 2 true true, .waitpid 1 (-1) false false, .exit 2 7,
      .finishExit 2]).1.LookedAfter :=
  looked_after (by decide)

theorem hasSignal_of_hasChild {p : Process} (h : p.hasChild)
    (hblocked : p.blocked &&& sigMask SIGCHLD = 0) : p.hasSignal = true := by
  unfold Process.hasSignal
  rw [decide_eq_true_eq]
  exact pending_of_unblocked hblocked h

/-- What a search finds of a child that is awaited. -/
theorem search_reaps (h : s.Inv) (hp : s.task i = some p) (hrun : p.state = .running)
    {r : Process} {nohang untraced : Bool} (hcall : r.call = .waiting pid nohang untraced)
    (hpid : r.pid = p.pid) (hq : s.task j = some q) (hz : q.state = .zombie)
    (hawaits : r.Awaits q) : ∃ k z, s.task k = some z ∧ z.state = .zombie ∧ z.father = p.pid ∧
      (pid = -1 ∨ z.pid = pid) ∧ s.search i p pid nohang untraced =
        ((s.setTask k none).modify i fun p => p.setCall .other, some z.pid,
          [.reaped p.pid z.pid z.exitCode]) ∧ k ≠ i := by
  have hreports := reports_of_awaits hawaits hrun hpid hcall hp hq hz
  rcases search_cases h i p pid nohang untraced with
    ⟨k, z, hk, hzk, hne, hzz, hfather, heq⟩ | ⟨hnone, -⟩
  · refine ⟨k, z, hzk, hzz, hfather, ?_, heq, hne⟩
    obtain ⟨-, -, pid', nohang', untraced', hcall', haccept⟩ := hawaits
    cases hcall.symm.trans hcall'
    refine haccept.imp_right fun hpos => ?_
    obtain ⟨z', hz', -, -, hwaits, -⟩ := reports_spec hk
    cases hzk.symm.trans hz'
    unfold ProcTable.waitsFor at hwaits
    rw [Bool.and_eq_true, if_pos hpos.1] at hwaits
    exact of_decide_eq_true hwaits.2
  · rw [hnone j (h.zombie_ne hq hz).1] at hreports
    cases hreports

/-- A process that sleeps in `sys_waitpid` and does not block `SIGCHLD` wakes up
when a child that it waits for is a zombie; if it has no other signal it reaps
one. -/
theorem wait_reaps (has : ∀ a ∈ as, a.endsInit = false) {nohang untraced : Bool}
    (hp : (boot.run as).1.task i = some p) (hcall : p.call = .waiting pid nohang untraced)
    (hq : (boot.run as).1.task j = some q) (hz : q.state = .zombie) (hawaits : p.Awaits q)
    (hblocked : p.blocked &&& sigMask SIGCHLD = 0) :
    (∃ p', ((boot.run as).1.run [.schedule, .wakeWait i]).1.task i = some p' ∧
      p'.state = .running ∧ p'.call = .other) ∧
    (p.signal &&& ~~~sigMask SIGCHLD = 0 → ∃ k z, (boot.run as).1.task k = some z ∧
      z.state = .zombie ∧ z.father = p.pid ∧ (pid = -1 ∨ z.pid = pid) ∧
      ((boot.run as).1.run [.schedule, .wakeWait i]).2 = [.reaped p.pid z.pid z.exitCode] ∧
      ((boot.run as).1.run [.schedule, .wakeWait i]).1.task k = none) := by
  have h := (inv_boot.run has).1
  generalize (boot.run as).1 = s at hp hq h ⊢
  have hi : i ≠ 0 := by
    rintro rfl
    rw [h.idle p hp] at hcall
    cases hcall
  have hwoken := hasSignal_of_hasChild (h.child i p j q hp hq hz hawaits) hblocked
  have hevolves₁ : Evolves s (s.mapTasks Process.checkSignals) := .mapTasks s benign_checkSignals
  have hp₁ : (s.mapTasks Process.checkSignals).task i = some (p.setState .running) := by
    have hcheck : p.checkSignals = p.setState .running := if_pos ⟨hwoken, hawaits.asleep⟩
    rw [← hcheck]
    unfold Table.mapTasks
    dsimp only
    rw [if_neg hi, hp, Option.map_some]
  obtain ⟨s₁, hs₁⟩ : ∃ s₁, s₁ = s.mapTasks Process.checkSignals := ⟨_, rfl⟩
  rw [← hs₁] at hevolves₁ hp₁
  have hrun : s.run [.schedule, .wakeWait i] =
      ((s₁.wakeWait i pid nohang untraced).1, (s₁.wakeWait i pid nohang untraced).2.2) := by
    have hruns : s₁.runs i (fun _ => true) = some (p.setState .running) :=
      runs_eq_some.2 ⟨hp₁, hi, rfl, rfl⟩
    have hnext : s₁.next (.wakeWait i) =
        ((s₁.wakeWait i pid nohang untraced).1, (s₁.wakeWait i pid nohang untraced).2.2) := by
      rw [Table.next, hruns]
      dsimp only
      rw [show (p.setState .running).call = _ from hcall]
    rw [Table.run, Table.next, ← hs₁]
    dsimp only
    rw [Table.run, hnext]
    dsimp only
    rw [Table.run, List.append_nil, List.nil_append]
  have hevolves₂ := evolves_clear hp₁ rfl (sigMask SIGCHLD)
  have hp₂ : (s₁.modify i fun p => p.clear (sigMask SIGCHLD)).task i =
      some ((p.setState .running).clear (sigMask SIGCHLD)) := by
    rw [task_modify_self, hp₁, Option.map_some]
  have h₂ := hevolves₂.inv (hevolves₁.inv h)
  have hevolves := hevolves₁.trans hevolves₂
  rw [hrun]
  unfold Table.wakeWait
  dsimp only
  rw [hp₂]
  dsimp only
  split
  next hsignal =>
    obtain ⟨q₂, hq₂, hbq⟩ := hevolves.some_left hq
    obtain ⟨k, z₂, hz₂, hzombie, hfather, haccept, heq, hne⟩ := search_reaps (r := p) h₂ hp₂ rfl
      hcall rfl hq₂ (hbq.zombie.2 hz) (by
        obtain ⟨hsleep, hfather, pid', nohang', untraced', hcall', haccept⟩ := hawaits
        exact ⟨hsleep, by rw [hbq.father, hfather], pid', nohang', untraced', hcall', by rwa [hbq.pid]⟩)
    obtain ⟨z, hzk, hbz⟩ := hevolves.some_right hz₂
    rw [heq]
    refine ⟨⟨_, by rw [task_modify_self, task_setTask_of_ne hne.symm, hp₂]; rfl, rfl, rfl⟩,
      fun _ => ⟨k, z, hzk, hbz.zombie.1 hzombie, hbz.father.symm.trans hfather,
        by rwa [← hbz.pid], ?_, ?_⟩⟩
    · dsimp only
      rw [hbz.pid, hbz.exitCode]
      rfl
    · rw [task_modify_of_ne hne, task_setTask_self]
  next hsignal =>
    exact ⟨⟨_, by rw [task_modify_self, hp₂]; rfl, rfl, rfl⟩, fun hno => absurd hno hsignal⟩

theorem wait_reaps_child : ∃ k z,
    (boot.run [.fork 1 true true, .waitpid 1 (-1) false false, .exit 2 7, .finishExit 2]).1.task k =
      some z ∧ z.state = .zombie ∧
    ((boot.run [.fork 1 true true, .waitpid 1 (-1) false false, .exit 2 7,
      .finishExit 2]).1.run [.schedule, .wakeWait 1]).2 = [.reaped 1 z.pid z.exitCode] := by
  have hfather : ((boot.run [.fork 1 true true, .waitpid 1 (-1) false false, .exit 2 7,
      .finishExit 2]).1.task 1).any (fun p => p.pid = 1 ∧ p.state = .interruptible ∧
        p.call = .waiting (-1) false false ∧ p.blocked = 0 ∧ p.signal = sigMask SIGCHLD) = true := by
    decide +kernel
  have hchild : ((boot.run [.fork 1 true true, .waitpid 1 (-1) false false, .exit 2 7,
      .finishExit 2]).1.task 2).any (fun q => q.father = 1 ∧ q.state = .zombie) = true := by
    decide +kernel
  obtain ⟨p, hp, hdec⟩ := (Option.any_eq_true _ _).1 hfather
  obtain ⟨q, hq, hdec'⟩ := (Option.any_eq_true _ _).1 hchild
  obtain ⟨hpid, hsleep, hcall, hblocked, hsignal⟩ := of_decide_eq_true hdec
  obtain ⟨hone, hz⟩ := of_decide_eq_true hdec'
  obtain ⟨-, hreaps⟩ := wait_reaps (by decide) hp hcall hq hz
    ⟨hsleep, hone.trans hpid.symm, _, _, _, hcall, .inl rfl⟩ (by rw [hblocked]; decide)
  obtain ⟨k, z, hzk, hzombie, -, -, hevents, -⟩ := hreaps (by rw [hsignal]; decide)
  exact ⟨k, z, hzk, hzombie, hpid ▸ hevents⟩

end Boot

end

end Table

end MyJavaExample.Kernel
