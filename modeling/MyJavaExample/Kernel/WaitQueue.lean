import Mathlib.Algebra.Ring.Nat
import Mathlib.Data.Fintype.Basic
import MyJavaExample.Lib.Run

/-!
# Wait queues: `sleep_on` and `wake_up` of `kernel/sched.c`

A wait queue is one pointer `*p`.  The tasks behind the one it points to are
only in the variables `tmp` of the suspended calls: each sleeper knows the task
that slept before it and wakes it up when it returns.

The kernel is not preempted, so a call runs up to `schedule` and, when the task
is runnable again, from there to its end or to the next `schedule`.  `next` is
one such part, for a queue on which all tasks use the same one of the two
functions.

`sleep_on` loses no sleeper.  A task in `interruptible_sleep_on` goes back to
sleep when it finds another task at the head, and then nobody knows it if that
task came to an empty queue.
-/

namespace MyJavaExample.Kernel

open Lib

def NR_TASKS : ℕ := 64

instance : NeZero NR_TASKS := ⟨by decide⟩

/-- An index of `task`; the first one is the idle task. -/
abbrev Task : Type := Fin NR_TASKS

inductive TaskState where
  | running
  | interruptible
  | uninterruptible
  | zombie
  | stopped
deriving DecidableEq

/-- The function that the tasks call. -/
inductive SleepCall where
  | sleepOn
  | interruptibleSleepOn
deriving DecidableEq

structure WaitQueue where
  /-- The pointer `*p`. -/
  head : Option Task
  state : Task → TaskState
  /-- The variable `tmp` of a task that is inside the call. -/
  tmp : Task → Option (Option Task)
  panicked : Bool

namespace WaitQueue

variable (q : WaitQueue) (t : Task)

/-- Nobody waits. -/
def empty : WaitQueue where
  head := none
  state := fun _ => .running
  tmp := fun _ => none
  panicked := false

def Inside : Prop := q.tmp t ≠ none

instance : Decidable (q.Inside t) := inferInstanceAs (Decidable (_ ≠ _))

def setState (st : TaskState) : WaitQueue := { q with state := Function.update q.state t st }

/-- `t->state = 0` where `t` may be `NULL`. -/
def wake : Option Task → WaitQueue
  | none => q
  | some t => q.setState t .running

def wakeUp : WaitQueue := { q.wake q.head with head := none }

/-- `sleep_on` or `interruptible_sleep_on` up to `schedule`. -/
def sleep (st : TaskState) : WaitQueue :=
  if t = 0 then { q with panicked := true }
  else
    let q := { q with tmp := Function.update q.tmp t (some q.head), head := some t }
    q.setState t st

/-- The end of the call: the task that slept before is woken up. -/
def leave (tmp : Option Task) : WaitQueue :=
  { q with tmp := Function.update q.tmp t none }.wake tmp

/-- `interruptible_sleep_on` after `schedule`. -/
def interruptibleResume (tmp : Option Task) : WaitQueue :=
  match q.head with
  | none => q.leave t tmp
  | some h =>
      if h = t then { q with head := none }.leave t tmp
      else (q.setState h .running).setState t .interruptible

end WaitQueue

inductive WaitAction where
  /-- A task calls the function. -/
  | sleep (t : Task)
  /-- A task inside the call runs again. -/
  | run (t : Task)
  | wakeUp
  /-- `schedule` finds a signal for the task. -/
  | signal (t : Task)

namespace WaitQueue

/-- An action that the state does not admit changes nothing. -/
def next (call : SleepCall) (q : WaitQueue) (a : WaitAction) : WaitQueue :=
  if q.panicked then q
  else
    match a with
    | .sleep t =>
        if q.Inside t ∨ q.state t ≠ .running then q
        else
          match call with
          | .sleepOn => q.sleep t .uninterruptible
          | .interruptibleSleepOn => q.sleep t .interruptible
    | .run t =>
        match q.tmp t with
        | none => q
        | some tmp =>
            if q.state t ≠ .running then q
            else
              match call with
              | .sleepOn => q.leave t tmp
              | .interruptibleSleepOn => q.interruptibleResume t tmp
    | .wakeUp => q.wakeUp
    | .signal t => if q.state t = .interruptible then q.setState t .running else q

/-- If the queue is empty and no task inside the call can run, then no task
waits. -/
def NoLostSleeper (q : WaitQueue) : Prop :=
  q.head = none → (∀ t, ¬(q.Inside t ∧ q.state t = .running)) →
    ∀ t, ¬(q.Inside t ∧ q.state t ≠ .running)

/-! ## Who knows a sleeper -/

/-- A task that came later will wake this one up. -/
def Behind (q : WaitQueue) (rank : Task → ℕ) (t : Task) : Prop :=
  ∃ u, q.tmp u = some (some t) ∧ rank t < rank u

/-- Tasks inside the call are ranked in the order in which they came.  A task
that cannot run is at the head or behind another one.  With `all` this is also
true of the tasks that can run. -/
structure Known (q : WaitQueue) (all : Bool) (rank : Task → ℕ) (bound : ℕ) : Prop where
  rank_lt : ∀ t, q.Inside t → rank t < bound
  known : ∀ t, q.Inside t → (all = true ∨ q.state t ≠ .running) →
    q.head = some t ∨ q.Behind rank t

variable {q : WaitQueue} {t : Task} {all : Bool} {rank : Task → ℕ} {bound : ℕ}

theorem Known.noLostSleeper (h : Known q all rank bound) : NoLostSleeper q := by
  intro hhead hidle
  -- the rank of a waiting task can always be raised
  have hraise : ∀ n t, q.Inside t → rank t + n = bound → False := by
    intro n
    induction n using Nat.strongRecOn with
    | ind n ih =>
        intro t ht hn
        rcases h.known t ht (Or.inr fun hr => hidle t ⟨ht, hr⟩) with hh | ⟨u, hu, hlt⟩
        · rw [hhead] at hh
          cases hh
        · have hin : q.Inside u := by
            rw [Inside, hu]
            exact Option.some_ne_none _
          have := h.rank_lt u hin
          exact ih (bound - rank u) (by omega) u hin (by omega)
  rintro t ⟨ht, -⟩
  have := h.rank_lt t ht
  exact hraise (bound - rank t) t ht (by omega)

/-! ## What the parts of the calls do -/

theorem Known.weaken (h : Known q all rank bound) : Known q false rank bound where
  rank_lt := h.rank_lt
  known u hu hst := h.known u hu (Or.inr (hst.resolve_left Bool.false_ne_true))

/-- A task is made runnable. -/
theorem Known.wake (h : Known q all rank bound) (o : Option Task) :
    Known (q.wake o) all rank bound := by
  cases o with
  | none => exact h
  | some t =>
      refine ⟨h.rank_lt, fun u hu hst => h.known u hu (hst.imp_right fun hne hr => hne ?_)⟩
      change Function.update q.state t .running u = _
      by_cases hut : u = t
      · rw [hut, Function.update_self]
      · rw [Function.update_of_ne hut, hr]

/-- Where every task is known, states do not matter. -/
theorem Known.setState (h : Known q true rank bound) (t : Task) (st : TaskState) :
    Known (q.setState t st) true rank bound where
  rank_lt := h.rank_lt
  known u hu _ := h.known u hu (Or.inl rfl)

theorem Known.wakeUp (h : Known q all rank bound) : Known q.wakeUp false rank bound := by
  have hq := (h.wake q.head).weaken
  refine ⟨hq.rank_lt, fun u hu hst => Or.inr ?_⟩
  rcases hq.known u hu hst with hh | hb
  · -- the task at the head is runnable now
    exfalso
    have hhead : q.head = some u := by
      cases hqh : q.head with
      | none => rwa [hqh, WaitQueue.wake, hqh] at hh
      | some v => rwa [hqh, WaitQueue.wake, WaitQueue.setState, hqh] at hh
    refine hst.resolve_left Bool.false_ne_true ?_
    change (q.wake q.head).state u = _
    rw [hhead]
    exact Function.update_self ..
  · exact hb

/-- The new task is at the head and the old head behind it. -/
theorem Known.sleep (h : Known q all rank bound) (ht : ¬q.Inside t) (st : TaskState) :
    ∃ rank bound, Known (q.sleep t st) all rank bound := by
  rw [WaitQueue.sleep]
  split
  next => exact ⟨rank, bound, h.rank_lt, h.known⟩
  next =>
    have htmp : q.tmp t = none := Classical.not_not.1 ht
    refine ⟨Function.update rank t bound, bound + 1, fun u hu => ?_, fun u hu hst => ?_⟩
    · by_cases hut : u = t
      · rw [hut, Function.update_self]
        exact Nat.lt_succ_self bound
      · rw [Function.update_of_ne hut]
        refine Nat.lt_succ_of_lt (h.rank_lt u ?_)
        simpa [Inside, WaitQueue.setState, Function.update_of_ne hut] using hu
    · by_cases hut : u = t
      · exact Or.inl (hut ▸ rfl)
      · have hin : q.Inside u := by
          simpa [Inside, WaitQueue.setState, Function.update_of_ne hut] using hu
        have hst' : all = true ∨ q.state u ≠ .running := by
          simpa [WaitQueue.setState, Function.update_of_ne hut] using hst
        refine Or.inr ?_
        rcases h.known u hin hst' with hh | ⟨v, hv, hlt⟩
        · refine ⟨t, ?_, ?_⟩
          · change Function.update q.tmp t (some q.head) t = _
            rw [Function.update_self, hh]
          · rw [Function.update_of_ne hut, Function.update_self]
            exact h.rank_lt u hin
        · have hvt : v ≠ t := by
            rintro rfl
            rw [htmp] at hv
            cases hv
          refine ⟨v, ?_, ?_⟩
          · change Function.update q.tmp t (some q.head) v = _
            rw [Function.update_of_ne hvt, hv]
          · rw [Function.update_of_ne hut, Function.update_of_ne hvt]
            exact hlt

/-- A task that leaves wakes up the one behind it. -/
theorem Known.leave (h : Known q all rank bound) {tmp hd : Option Task} (ht : q.tmp t = some tmp)
    (hhd : hd = q.head ∨ q.head = some t) :
    Known ({ q with head := hd }.leave t tmp) false rank bound := by
  have hin : ∀ u, ({ q with head := hd }.leave t tmp).Inside u → u ≠ t ∧ q.Inside u := by
    intro u hu
    have hu' : Function.update q.tmp t none u ≠ none := by cases tmp <;> exact hu
    have hut : u ≠ t := by
      rintro rfl
      rw [Function.update_self] at hu'
      exact hu' rfl
    rw [Function.update_of_ne hut] at hu'
    exact ⟨hut, hu'⟩
  refine ⟨fun u hu => h.rank_lt u (hin u hu).2, fun u hu hst => ?_⟩
  obtain ⟨hut, hqu⟩ := hin u hu
  have hst := hst.resolve_left Bool.false_ne_true
  have hne : q.state u ≠ .running ∧ tmp ≠ some u := by
    cases tmp with
    | none => exact ⟨hst, Option.some_ne_none u ∘ Eq.symm⟩
    | some v =>
        change Function.update q.state v .running u ≠ _ at hst
        have huv : u ≠ v := by
          rintro rfl
          exact hst (Function.update_self ..)
        rw [Function.update_of_ne huv] at hst
        exact ⟨hst, fun heq => huv (Option.some.inj heq).symm⟩
  rcases h.known u hqu (Or.inr hne.1) with hh | ⟨v, hv, hlt⟩
  · refine Or.inl ?_
    have hhead : hd = some u := by
      rcases hhd with rfl | hhd
      · exact hh
      · exact absurd (Option.some.inj (hh.symm.trans hhd)) hut
    cases tmp <;> exact hhead
  · refine Or.inr ⟨v, ?_, hlt⟩
    have hvt : v ≠ t := by
      rintro rfl
      exact hne.2 (Option.some.inj (ht.symm.trans hv))
    have hv' : Function.update q.tmp t none v = some (some u) := by
      rw [Function.update_of_ne hvt, hv]
    cases tmp <;> exact hv'

/-! ## `sleep_on` -/

/-- Every sleeper is known. -/
def SleepersKnown (q : WaitQueue) : Prop := ∃ rank bound, Known q false rank bound

theorem SleepersKnown.next (h : q.SleepersKnown) (a : WaitAction) :
    (q.next .sleepOn a).SleepersKnown := by
  obtain ⟨rank, bound, h⟩ := h
  unfold WaitQueue.next
  split
  next => exact ⟨rank, bound, h⟩
  next =>
    cases a with
    | sleep t =>
        dsimp only
        split
        next => exact ⟨rank, bound, h⟩
        next hno => exact h.sleep (fun ht => hno (Or.inl ht)) _
    | run t =>
        dsimp only
        split
        next => exact ⟨rank, bound, h⟩
        next tmp htmp =>
          split
          next => exact ⟨rank, bound, h⟩
          next => exact ⟨rank, bound, h.leave htmp (Or.inl rfl)⟩
    | wakeUp => exact ⟨rank, bound, h.wakeUp⟩
    | signal t =>
        dsimp only
        split
        next => exact ⟨rank, bound, h.wake (some t)⟩
        next => exact ⟨rank, bound, h⟩

/-- No run of tasks that call `sleep_on` and `wake_up` loses a sleeper. -/
theorem sleep_on_loses_no_sleeper (as : List WaitAction) :
    Always (next .sleepOn) NoLostSleeper empty as := by
  have hempty : empty.SleepersKnown :=
    ⟨fun _ => 0, 0, fun t ht => absurd rfl ht, fun t ht => absurd rfl ht⟩
  exact Always.of_invariant (fun _ ⟨_, _, h⟩ => h.noLostSleeper) (fun _ a h => h.next a) hempty

/-! ## `interruptible_sleep_on` -/

/-- A task comes only while the head is set or nobody is inside the call. -/
def JoinsQueue (q : WaitQueue) : WaitAction → Prop
  | .sleep _ => q.head ≠ none ∨ ∀ u, ¬q.Inside u
  | _ => True

instance (q : WaitQueue) : ∀ a, Decidable (q.JoinsQueue a)
  | .sleep _ => inferInstanceAs (Decidable (_ ∨ _))
  | .run _ => inferInstanceAs (Decidable True)
  | .wakeUp => inferInstanceAs (Decidable True)
  | .signal _ => inferInstanceAs (Decidable True)

/-- All tasks inside the call are in the queue as long as it has a head, also
those that a signal woke up. -/
def QueueKnown (q : WaitQueue) : Prop := ∃ rank bound, Known q q.head.isSome rank bound

theorem Known.interruptibleResume (h : Known q q.head.isSome rank bound) {tmp : Option Task}
    (ht : q.tmp t = some tmp) : (q.interruptibleResume t tmp).QueueKnown := by
  cases hh : q.head with
  | none =>
      have hleave := h.leave ht (Or.inl rfl)
      simp only [WaitQueue.interruptibleResume, hh]
      refine ⟨rank, bound, ?_⟩
      have hnone : (q.leave t tmp).head = none := by cases tmp <;> exact hh
      rw [hnone]
      exact hleave
  | some v =>
      rw [hh] at h
      simp only [WaitQueue.interruptibleResume, hh]
      split
      next heq =>
        subst heq
        refine ⟨rank, bound, ?_⟩
        have hnone : ({ q with head := none }.leave v tmp).head = none := by cases tmp <;> rfl
        rw [hnone]
        exact h.leave ht (Or.inr hh)
      next =>
        -- the task goes back to sleep behind the others
        refine ⟨rank, bound, ?_⟩
        have hsome : ((q.setState v .running).setState t .interruptible).head = some v := hh
        rw [hsome]
        exact (h.setState v .running).setState t .interruptible

theorem QueueKnown.next (h : q.QueueKnown) {a : WaitAction} (hok : q.JoinsQueue a) :
    (q.next .interruptibleSleepOn a).QueueKnown := by
  obtain ⟨rank, bound, h⟩ := h
  unfold WaitQueue.next
  split
  next => exact ⟨rank, bound, h⟩
  next =>
    cases a with
    | sleep t =>
        dsimp only
        split
        next => exact ⟨rank, bound, h⟩
        next hno =>
          have hall : Known q true rank bound := by
            rcases hok with hhead | hnone
            · rwa [Option.isSome_iff_ne_none.2 hhead] at h
            · exact ⟨h.rank_lt, fun u hu => absurd hu (hnone u)⟩
          by_cases hzero : t = 0
          · simp only [WaitQueue.sleep, if_pos hzero]
            exact ⟨rank, bound, h.rank_lt, h.known⟩
          · have hsleep := hall.sleep (fun ht => hno (Or.inl ht)) .interruptible
            simp only [WaitQueue.sleep, if_neg hzero] at hsleep ⊢
            exact hsleep
    | run t =>
        dsimp only
        split
        next => exact ⟨rank, bound, h⟩
        next tmp htmp =>
          split
          next => exact ⟨rank, bound, h⟩
          next => exact h.interruptibleResume htmp
    | wakeUp => exact ⟨rank, bound, h.wakeUp⟩
    | signal t =>
        dsimp only
        split
        next => exact ⟨rank, bound, h.wake (some t)⟩
        next => exact ⟨rank, bound, h⟩

/-- In a run where a task comes to an empty queue only after all others have
left, no sleeper is lost. -/
theorem interruptible_sleep_on_loses_no_sleeper (as : List WaitAction)
    (h : EachStep (next .interruptibleSleepOn) JoinsQueue empty as) :
    Always (next .interruptibleSleepOn) NoLostSleeper empty as := by
  have hempty : empty.QueueKnown :=
    ⟨fun _ => 0, 0, fun t ht => absurd rfl ht, fun t ht => absurd rfl ht⟩
  exact h.always (fun _ ⟨_, _, h⟩ => h.noLostSleeper) (fun _ _ h hok => h.next hok) hempty

/-- Two tasks, a signal for the first and a wake-up, after which both leave and
the first comes again. -/
theorem interruptible_sleep_on_two_tasks :
    let as := [.sleep 1, .sleep 2, .signal 1, .run 1, .wakeUp, .run 2, .run 1, .sleep 1]
    EachStep (next .interruptibleSleepOn) JoinsQueue empty as ∧
      Always (next .interruptibleSleepOn) NoLostSleeper empty as :=
  have h : EachStep (next .interruptibleSleepOn) JoinsQueue empty
      [.sleep 1, .sleep 2, .signal 1, .run 1, .wakeUp, .run 2, .run 1, .sleep 1] := by
    decide +kernel
  ⟨h, interruptible_sleep_on_loses_no_sleeper _ h⟩

/-- A second task comes between the wake-up of the first and its run.  The first
goes back to sleep, and the second does not know it. -/
theorem interruptible_sleep_on_loses_sleeper :
    ¬∀ as, Always (next .interruptibleSleepOn) NoLostSleeper empty as := by
  intro h
  have hlast := (h [.sleep 1, .wakeUp, .sleep 2, .run 1, .run 2]).last
  exact hlast (by decide +kernel) (by decide +kernel) 1 (by decide +kernel)

end WaitQueue

end MyJavaExample.Kernel
