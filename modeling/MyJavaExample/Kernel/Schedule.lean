import MyJavaExample.Kernel.WaitQueue
import MyJavaExample.Lib.Int32

/-!
# The scheduler: `schedule`, `do_timer` and `sys_nice` of `kernel/sched.c`

`schedule` takes the runnable task with the largest counter.  When the largest
one is zero, all counters are computed anew from the priorities, also those of
the sleeping tasks, and the search is repeated.  It starts with `c = -1`, so a
task with a negative counter is never found.

Counters stay positive as long as the new counters fit into a `long`.
`sys_nice` lets every task raise its own priority without a limit; a task with a
large priority that sleeps through a recalculation has a negative counter after
it and is passed over when it wakes up.
-/

namespace MyJavaExample.Kernel

open Lib

/-- The fields of `struct task_struct` that the scheduler uses. -/
structure TaskStruct where
  state : TaskState
  counter : ℤ
  priority : ℤ
  signal : UInt32
  blocked : UInt32
  alarm : ℤ
deriving DecidableEq

def SIGKILL : UInt32 := 9

def SIGALRM : UInt32 := 14

def SIGSTOP : UInt32 := 19

def sigMask (nr : UInt32) : UInt32 := 1 <<< (nr - 1)

def BLOCKABLE : UInt32 := ~~~(sigMask SIGKILL ||| sigMask SIGSTOP)

structure Sched where
  task : Task → Option TaskStruct
  current : Task
  jiffies : ℤ

namespace Sched

variable (s : Sched)

/-- Change one task. -/
def modify (t : Task) (f : TaskStruct → TaskStruct) : Sched :=
  { s with task := Function.update s.task t ((s.task t).map f) }

/-- A loop over all tasks but the first. -/
def mapTasks (f : TaskStruct → TaskStruct) : Sched :=
  { s with task := fun t => if t = 0 then s.task t else (s.task t).map f }

/-- The alarm and the signals of a task. -/
def checkSignals (jiffies : ℤ) (p : TaskStruct) : TaskStruct :=
  let p :=
    if p.alarm ≠ 0 ∧ p.alarm < jiffies then
      { p with signal := p.signal ||| sigMask SIGALRM, alarm := 0 }
    else p
  if p.signal &&& ~~~(BLOCKABLE &&& p.blocked) ≠ 0 ∧ p.state = .interruptible then
    { p with state := .running }
  else p

/-- The tasks that the search visits, the last one first. -/
def slots : List Task := (List.finRange NR_TASKS).tail.reverse

/-- One step of the search: `c` and `next`. -/
def better (best : ℤ × Task) (i : Task) : ℤ × Task :=
  match s.task i with
  | none => best
  | some p => if p.state = .running ∧ best.1 < p.counter then (p.counter, i) else best

def search : ℤ × Task := slots.foldl s.better (-1, 0)

def recalculate (p : TaskStruct) : TaskStruct :=
  { p with counter := toInt32 (p.counter / 2 + p.priority) }

/-- The `while (1)` of `schedule`. -/
def loop : ℕ → Sched → Option Sched
  | 0, _ => none
  | fuel + 1, s =>
      if s.search.1 ≠ 0 then some { s with current := s.search.2 }
      else loop fuel (s.mapTasks recalculate)

/-- The state in which the search begins. -/
def enter : Sched := s.mapTasks (checkSignals s.jiffies)

def schedule (fuel : ℕ) : Option Sched := loop fuel s.enter

/-- `do_timer` up to the call of `schedule`, and whether it is made. -/
def countDown (cpl : Bool) : Sched × Bool :=
  let s := { s with jiffies := s.jiffies + 1 }
  let s := s.modify s.current fun p => { p with counter := toInt32 (p.counter - 1) }
  match s.task s.current with
  | none => (s, false)
  | some p =>
      if 0 < p.counter then (s, false) else (s.modify s.current fun p => { p with counter := 0 }, cpl)

def sysNice (increment : ℤ) : Sched :=
  s.modify s.current fun p =>
    if 0 < toInt32 (p.priority - increment) then
      { p with priority := toInt32 (p.priority - increment) }
    else p

end Sched

inductive SchedAction where
  | tick (cpl : Bool)
  | nice (increment : ℤ)
  /-- A task goes to sleep or is woken up. -/
  | setState (t : Task) (state : TaskState)
  | signal (t : Task) (mask : UInt32)
  | setAlarm (alarm : ℤ)
  | schedule

namespace Sched

/-- The state before the call of `schedule`, if the action makes one. -/
def caller (s : Sched) : SchedAction → Option Sched
  | .tick cpl => if (s.countDown cpl).2 then some (s.countDown cpl).1 else none
  | .schedule => some s
  | _ => none

def next (s : Sched) : SchedAction → Sched
  | .tick cpl =>
      let r := s.countDown cpl
      if r.2 then (r.1.schedule 2).getD r.1 else r.1
  | .nice increment => s.sysNice increment
  | .setState t state => s.modify t fun p => { p with state }
  | .signal t mask => s.modify t fun p => { p with signal := p.signal ||| mask }
  | .setAlarm alarm => s.modify s.current fun p => { p with alarm }
  | .schedule => (s.schedule 2).getD s

/-- The current task is a runnable one with the largest counter, or the idle
task when no other is runnable. -/
def Selected (s : Sched) : Prop :=
  (s.current ≠ 0 ∧ ∃ p ∈ s.task s.current, p.state = .running ∧
    ∀ t ≠ 0, ∀ q ∈ s.task t, q.state = .running → q.counter ≤ p.counter) ∨
  (s.current = 0 ∧ ∀ t ≠ 0, ∀ q ∈ s.task t, q.state ≠ .running)

/-- A call of `schedule` returns and selects well. -/
def SchedulesWell (s : Sched) : Prop := ∃ fuel s', s.schedule fuel = some s' ∧ s'.Selected

/-- Priorities and counters are 15, as in `INIT_TASK`. -/
def Boot (s : Sched) : Prop := ∀ t, ∀ p ∈ s.task t, p.counter = 15 ∧ p.priority = 15

/-- If the counters are computed anew, each fits into a `long`. -/
def Fits (s : Sched) (a : SchedAction) : Prop :=
  ∀ s' ∈ s.caller a, s'.enter.search.1 = 0 →
    ∀ t ≠ 0, ∀ p ∈ s'.enter.task t, p.counter / 2 + p.priority < 2 ^ 31

instance (s : Sched) (a : SchedAction) : Decidable (s.Fits a) :=
  inferInstanceAs (Decidable (∀ s' ∈ s.caller a, _ → ∀ t ≠ 0, ∀ p ∈ s'.enter.task t, _))

/-! ## The search -/

variable {s : Sched}

/-- What the search has found among the tasks it has seen. -/
structure Best (s : Sched) (seen : List Task) (best : ℤ × Task) : Prop where
  found : best = (-1, 0) ∨ best.2 ∈ seen ∧ -1 < best.1 ∧
    ∃ p ∈ s.task best.2, p.state = .running ∧ p.counter = best.1
  le : ∀ t ∈ seen, ∀ p ∈ s.task t, p.state = .running → p.counter ≤ best.1

theorem Best.better {seen : List Task} {best : ℤ × Task} (h : Best s seen best) (i : Task) :
    Best s (seen ++ [i]) (s.better best i) := by
  have hlow : -1 ≤ best.1 := by
    rcases h.found with hb | ⟨-, hb, -⟩
    · rw [hb]
    · omega
  rw [Sched.better]
  split
  next hi =>
    refine ⟨h.found.imp_right fun hf => ⟨List.mem_append_left _ hf.1, hf.2⟩, fun t ht p hp => ?_⟩
    rcases List.mem_append.1 ht with ht | ht
    · exact h.le t ht p hp
    · rw [List.mem_singleton.1 ht, hi] at hp
      cases hp
  next q hq =>
    split
    next hlt =>
      refine ⟨Or.inr ⟨List.mem_append_right _ List.mem_cons_self, by omega, q, hq, hlt.1, rfl⟩,
        fun t ht p hp hrun => ?_⟩
      rcases List.mem_append.1 ht with ht | ht
      · have := h.le t ht p hp hrun
        dsimp only
        omega
      · rw [List.mem_singleton.1 ht, hq] at hp
        cases hp
        exact Int.le_refl _
    next hno =>
      refine ⟨h.found.imp_right fun hf => ⟨List.mem_append_left _ hf.1, hf.2⟩,
        fun t ht p hp hrun => ?_⟩
      rcases List.mem_append.1 ht with ht | ht
      · exact h.le t ht p hp hrun
      · rw [List.mem_singleton.1 ht, hq] at hp
        cases hp
        have : ¬best.1 < q.counter := fun hlt => hno ⟨hrun, hlt⟩
        omega

theorem Best.foldl {l seen : List Task} {best : ℤ × Task} (h : Best s seen best) :
    Best s (seen ++ l) (l.foldl s.better best) := by
  induction l generalizing seen best with
  | nil => rwa [List.append_nil]
  | cons i l ih =>
      have := ih (h.better i)
      rwa [List.append_assoc] at this

theorem mem_slots : ∀ t, t ∈ slots ↔ t ≠ 0 := by decide +kernel

theorem search_best (s : Sched) : Best s slots s.search := by
  have hempty : Best s [] (-1, 0) := ⟨Or.inl rfl, fun _ ht => absurd ht List.not_mem_nil⟩
  exact hempty.foldl

/-- A search that finds a task finds the right one. -/
theorem selected_of_search (hpos : -1 < s.search.1) : { s with current := s.search.2 }.Selected := by
  have hbest := search_best s
  rcases hbest.found with hb | ⟨hmem, -, p, hp, hrun, hcounter⟩
  · rw [hb] at hpos
    exact absurd hpos (by decide)
  · refine Or.inl ⟨(mem_slots _).1 hmem, p, hp, hrun, fun t ht q hq hqrun => ?_⟩
    rw [hcounter]
    exact hbest.le t ((mem_slots t).2 ht) q hq hqrun

/-! ## Counters and priorities -/

/-- A counter is not negative and a priority is positive. -/
structure Sound (p : TaskStruct) : Prop where
  counter_nonneg : 0 ≤ p.counter
  counter_lt : p.counter < 2 ^ 31
  priority_pos : 0 < p.priority
  priority_lt : p.priority < 2 ^ 31

def Inv (s : Sched) : Prop := ∀ t, ∀ p ∈ s.task t, Sound p

theorem Inv.boot (h : s.Boot) : s.Inv := by
  intro t p hp
  obtain ⟨hc, hpr⟩ := h t p hp
  exact ⟨by omega, by omega, by omega, by omega⟩

theorem Inv.modify (h : s.Inv) (t : Task) {f : TaskStruct → TaskStruct}
    (hf : ∀ p ∈ s.task t, Sound p → Sound (f p)) : (s.modify t f).Inv := by
  intro u p hp
  by_cases hut : u = t
  · subst hut
    simp only [Sched.modify, Function.update_self] at hp
    obtain ⟨q, hq, rfl⟩ := Option.mem_map.1 hp
    exact hf q hq (h u q hq)
  · simp only [Sched.modify, Function.update_of_ne hut] at hp
    exact h u p hp

theorem Inv.mapTasks (h : s.Inv) {f : TaskStruct → TaskStruct}
    (hf : ∀ t ≠ 0, ∀ p ∈ s.task t, Sound p → Sound (f p)) : (s.mapTasks f).Inv := by
  intro t p hp
  simp only [Sched.mapTasks] at hp
  split at hp
  next => exact h t p hp
  next ht =>
    obtain ⟨q, hq, rfl⟩ := Option.mem_map.1 hp
    exact hf t ht q hq (h t q hq)

theorem Sound.checkSignals {p : TaskStruct} (h : Sound p) (jiffies : ℤ) :
    Sound (Sched.checkSignals jiffies p) := by
  have hkeep : (Sched.checkSignals jiffies p).counter = p.counter ∧
      (Sched.checkSignals jiffies p).priority = p.priority := by
    rw [Sched.checkSignals]
    split <;> split <;> exact ⟨rfl, rfl⟩
  exact ⟨hkeep.1 ▸ h.1, hkeep.1 ▸ h.2, hkeep.2 ▸ h.3, hkeep.2 ▸ h.4⟩

theorem Inv.enter (h : s.Inv) : s.enter.Inv :=
  h.mapTasks fun _ _ _ _ hp => hp.checkSignals _

theorem Sound.recalculate {p : TaskStruct} (h : Sound p)
    (hfits : p.counter / 2 + p.priority < 2 ^ 31) : Sound (Sched.recalculate p) := by
  obtain ⟨h₁, h₂, h₃, h₄⟩ := h
  have hval : (Sched.recalculate p).counter = p.counter / 2 + p.priority :=
    toInt32_of_range (by omega) hfits
  refine ⟨?_, ?_, h₃, h₄⟩
  · rw [hval]
    omega
  · rw [hval]
    exact hfits

/-- After the counters are computed anew, the search finds a task. -/
theorem Inv.search_recalculated (h : s.Inv) (hzero : s.search.1 = 0) :
    0 < (s.mapTasks recalculate).search.1 := by
  -- some runnable task has the counter zero and gets its priority
  rcases (search_best s).found with hb | ⟨hmem, -, p, hp, hrun, hcounter⟩
  · rw [hb] at hzero
    exact absurd hzero (by decide)
  · have hsound := h _ p hp
    have hval : (recalculate p).counter = p.priority := by
      have h₃ := hsound.priority_pos
      have h₄ := hsound.priority_lt
      rw [hzero] at hcounter
      rw [Sched.recalculate, hcounter]
      change toInt32 (0 / 2 + p.priority) = _
      rw [Int.zero_ediv, Int.zero_add, toInt32_of_range (by omega) h₄]
    have hp' : recalculate p ∈ (s.mapTasks recalculate).task s.search.2 := by
      simp only [Sched.mapTasks, if_neg ((mem_slots _).1 hmem)]
      exact Option.mem_map_of_mem _ hp
    have hle := (search_best (s.mapTasks recalculate)).le _ hmem _ hp' hrun
    rw [hval] at hle
    exact Int.lt_of_lt_of_le hsound.priority_pos hle

/-- Two rounds of the loop are enough. -/
theorem Inv.loop (h : s.Inv) :
    (∃ s', Sched.loop 2 s = some s' ∧ s'.Selected) ∧
      ((s.search.1 = 0 → ∀ t ≠ 0, ∀ p ∈ s.task t, p.counter / 2 + p.priority < 2 ^ 31) →
        ∀ s', Sched.loop 2 s = some s' → s'.Inv) := by
  by_cases hzero : s.search.1 = 0
  · have hfound := h.search_recalculated hzero
    have hloop : Sched.loop 2 s = some
        { s.mapTasks recalculate with current := (s.mapTasks recalculate).search.2 } := by
      rw [Sched.loop, if_neg (not_not_intro hzero), Sched.loop, if_pos (by omega)]
    rw [hloop]
    refine ⟨⟨_, rfl, selected_of_search (by omega)⟩, fun hfits s' hs' => ?_⟩
    cases hs'
    exact h.mapTasks fun t ht p hp hsound => hsound.recalculate (hfits hzero t ht p hp)
  · have hloop : Sched.loop 2 s = some { s with current := s.search.2 } := by
      rw [Sched.loop, if_pos hzero]
    rw [hloop]
    refine ⟨⟨_, rfl, ?_⟩, fun _ s' hs' => ?_⟩
    · rcases (search_best s).found with hb | ⟨-, hpos, -⟩
      · refine Or.inr ⟨by rw [hb], fun t ht q hq hrun => ?_⟩
        -- a runnable task would have a negative counter
        have hle := (search_best s).le t ((mem_slots t).2 ht) q hq hrun
        have hsound := (h t q hq).counter_nonneg
        rw [hb] at hle
        dsimp only at hle
        omega
      · exact selected_of_search hpos
    · cases hs'
      exact h

theorem Inv.schedulesWell (h : s.Inv) : s.SchedulesWell :=
  ⟨2, h.enter.loop.1⟩

/-! ## Runs -/

theorem modify_modify (t : Task) (f g : TaskStruct → TaskStruct) :
    (s.modify t f).modify t g = s.modify t (g ∘ f) := by
  simp only [Sched.modify, Function.update_self, Function.update_idem, Option.map_map]

theorem Inv.countDown (h : s.Inv) (cpl : Bool) : (s.countDown cpl).1.Inv := by
  have hjiffies : { s with jiffies := s.jiffies + 1 }.Inv := h
  unfold Sched.countDown
  dsimp only
  cases hcur : s.task s.current with
  | none =>
      simp only [Sched.modify, hcur, Option.map_none, Function.update_self]
      have hsame : Function.update s.task s.current none = s.task := by
        rw [← hcur, Function.update_eq_self]
      rw [hsame]
      exact hjiffies
  | some p =>
      have hsound := h _ p hcur
      have hdec : toInt32 (p.counter - 1) = p.counter - 1 :=
        toInt32_of_range (by have := hsound.counter_nonneg; omega)
          (by have := hsound.counter_lt; omega)
      split
      next hnone => simp [Sched.modify, hcur] at hnone
      next q hq =>
        have hqp : q = { p with counter := p.counter - 1 } := by
          simpa [Sched.modify, hcur, hdec, eq_comm] using hq
        split
        next hpos =>
          refine hjiffies.modify _ fun r hr hr' => ?_
          cases hr.symm.trans hcur
          rw [hdec]
          rw [hqp] at hpos
          exact ⟨Int.le_of_lt hpos, by have := hr'.counter_lt; dsimp only; omega, hr'.3, hr'.4⟩
        next =>
          change (Sched.modify (Sched.modify _ s.current _) s.current _).Inv
          rw [modify_modify]
          exact hjiffies.modify _ fun r _ hr' => ⟨by simp, by simp, hr'.3, hr'.4⟩

/-- A call of `schedule` after which the counters fit keeps them positive. -/
theorem Inv.schedule (h : s.Inv) (hfits : s.enter.search.1 = 0 →
    ∀ t ≠ 0, ∀ p ∈ s.enter.task t, p.counter / 2 + p.priority < 2 ^ 31) :
    ((s.schedule 2).getD s).Inv := by
  obtain ⟨s', hs', -⟩ := h.enter.loop.1
  rw [Sched.schedule, hs']
  exact h.enter.loop.2 hfits s' hs'

theorem Inv.next (h : s.Inv) {a : SchedAction} (hok : s.Fits a) : (s.next a).Inv := by
  cases a with
  | tick cpl =>
      simp only [Sched.next]
      split
      next hcall =>
        exact (h.countDown cpl).schedule (hok _ (by simp [caller, hcall]))
      next => exact h.countDown cpl
  | nice increment =>
      refine h.modify _ fun p _ hp => ?_
      split
      next hpos => exact ⟨hp.1, hp.2, hpos, toInt32_upper _⟩
      next => exact hp
  | setState t state => exact h.modify _ fun p _ hp => ⟨hp.1, hp.2, hp.3, hp.4⟩
  | signal t mask => exact h.modify _ fun p _ hp => ⟨hp.1, hp.2, hp.3, hp.4⟩
  | setAlarm alarm => exact h.modify _ fun p _ hp => ⟨hp.1, hp.2, hp.3, hp.4⟩
  | schedule => exact h.schedule (hok s rfl)

/-- As long as the counters that are computed anew fit into a `long`, every call
of `schedule` returns with the right task. -/
theorem schedule_runs_runnable (s : Sched) (as : List SchedAction) (hs : s.Boot)
    (h : EachStep next Fits s as) : Always next SchedulesWell s as :=
  h.always (fun _ hs => hs.schedulesWell) (fun _ _ hs hok => hs.next hok) (Inv.boot hs)

/-- The idle task and two others, of which the first runs. -/
def twoTasks : Sched where
  task t := if t.1 ≤ 2 then some ⟨.running, 15, 15, 0, 0, 0⟩ else none
  current := 1
  jiffies := 0

theorem twoTasks_boot : twoTasks.Boot := by
  intro t p hp
  simp only [twoTasks] at hp
  split at hp
  next =>
    cases hp
    exact ⟨rfl, rfl⟩
  next => cases hp

/-- A task with a higher priority that sleeps and comes back. -/
theorem schedule_runs_runnable_nice :
    let as := [.nice (-10), .setState 1 .interruptible, .schedule, .tick true, .signal 1 1, .schedule]
    (twoTasks.Boot ∧ EachStep next Fits twoTasks as) ∧ Always next SchedulesWell twoTasks as :=
  have h : EachStep next Fits twoTasks [.nice (-10), .setState 1 .interruptible, .schedule,
      .tick true, .signal 1 1, .schedule] := by decide +kernel
  ⟨⟨twoTasks_boot, h⟩, schedule_runs_runnable _ _ twoTasks_boot h⟩

/-- A task raises its priority to the largest `long` and sleeps while the other
one uses up its time.  When it wakes up, its counter is negative. -/
def niceRun : List SchedAction :=
  [.nice (16 - 2 ^ 31), .setState 1 .interruptible, .schedule] ++ List.replicate 15 (.tick true) ++
    [.setState 1 .running, .setState 2 .interruptible]

/-- The idle task is selected although a task is runnable. -/
theorem schedule_skips_runnable :
    ¬∀ s as, Boot s → Always next SchedulesWell s as := by
  intro h
  obtain ⟨fuel, s', hs', hsel⟩ := (h twoTasks niceRun twoTasks_boot).last
  rw [Sched.schedule] at hs'
  have hsearch : (niceRun.foldl next twoTasks).enter.search = (-1, 0) := by decide +kernel
  have htask : ((niceRun.foldl next twoTasks).enter.task 1).map TaskStruct.state =
      some .running := by decide +kernel
  generalize (niceRun.foldl next twoTasks).enter = r at hsearch htask hs'
  obtain ⟨p, hp, hrun⟩ := Option.map_eq_some_iff.1 htask
  cases fuel with
  | zero => cases hs'
  | succ fuel =>
      rw [loop, hsearch] at hs'
      cases hs'
      rcases hsel with ⟨hne, -⟩ | ⟨-, hidle⟩
      · exact hne rfl
      · exact hidle 1 (by decide) p hp hrun

end Sched

end MyJavaExample.Kernel
