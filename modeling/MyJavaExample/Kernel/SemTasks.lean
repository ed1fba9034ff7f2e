import MyJavaExample.Kernel.Sem
import MyJavaExample.Lib.Exec

/-!
# Tasks that wait and post

The system is the semaphore table and, for every task, where it is: outside the
calls, in the loop of `sys_sem_wait`, or in the loop of `sys_sem_post`.  A call
runs without interruption up to its first loop test, and every later test is a
step of its own.  Between two tests of a wait any other task may run.  The loop
of a post never sleeps and keeps interrupts off, so in the runs of the source
the tests of a post follow each other; what is said of all runs here holds of
those too.

The source calls `sleep_on(ksem[sem].head)` with the null pointer it stored
there, so `sleep_on` returns at once and `wake_up` wakes nobody.  The action of
a test says whether `sleep_on` blocks, and the action of a post says which
tasks of the queue `wake_up` wakes.  The runs of the source are those where
nothing blocks, and the runs of a working wait queue are among the others.

Four counters record, for each semaphore, the waits that decremented its value,
the waits that left their loop, the posts that incremented the value and the
posts that left their loop.
-/

namespace MyJavaExample.Kernel

open Lib

/-! ## The system -/

/-- Where a task is. -/
inductive SemPc where
  | outside
  /-- In the loop of `sys_sem_wait`, blocked in `sleep_on` or not. -/
  | waiting (i : SemId) (asleep : Bool)
  /-- In the loop of `sys_sem_post`. -/
  | posting (i : SemId)
deriving DecidableEq

def SemPc.waitsOn (i : SemId) : SemPc → Bool
  | .waiting j _ => decide (j = i)
  | _ => false

structure SemSys where
  st : SemState
  pc : TaskNr → SemPc
  /-- Waits that decremented the value. -/
  entered : SemId → ℕ
  /-- Waits that left their loop. -/
  left : SemId → ℕ
  /-- Posts that incremented the value. -/
  posted : SemId → ℕ
  /-- Posts that left their loop. -/
  completed : SemId → ℕ

inductive SemAct where
  | openSem (t : TaskNr) (name : Option CString) (value : ℤ)
  | wait (t : TaskNr) (sem : ℤ) (blocks : Bool)
  | waitTest (t : TaskNr) (blocks : Bool)
  | post (t : TaskNr) (sem : ℤ) (woken : List TaskNr)
  | postTest (t : TaskNr) (woken : List TaskNr)

/-- Count one more event of a semaphore. -/
def bump (f : SemId → ℕ) (i : SemId) : SemId → ℕ := Function.update f i (f i + 1)

@[simp] theorem bump_self (f : SemId → ℕ) (i : SemId) : bump f i i = f i + 1 := by
  simp [bump]

theorem bump_ne (f : SemId → ℕ) {i j : SemId} (h : j ≠ i) : bump f i j = f j := by
  simp [bump, h]

/-- `wake_up` on the queue of a semaphore. -/
def wakeUp (i : SemId) (woken : List TaskNr) (pc : TaskNr → SemPc) : TaskNr → SemPc :=
  fun u => if (pc u).waitsOn i ∧ u ∈ woken then .waiting i false else pc u

/-- One test of the loop condition of `sys_sem_wait`. -/
def testWait (y : SemSys) (t : TaskNr) (i : SemId) (blocks : Bool) : SemSys :=
  if waitBlocked y.st i then { y with pc := Function.update y.pc t (.waiting i blocks) }
  else
    { y with
      st := sti y.st
      pc := Function.update y.pc t .outside
      left := bump y.left i }

/-- One test of the loop condition of `sys_sem_post`. -/
def testPost (y : SemSys) (t : TaskNr) (i : SemId) (woken : List TaskNr) : SemSys :=
  if postBlocked y.st i then
    { y with pc := wakeUp i woken (Function.update y.pc t (.posting i)) }
  else
    { y with
      st := sti y.st
      pc := Function.update y.pc t .outside
      completed := bump y.completed i }

/-- One step of one task. -/
def semNext (y : SemSys) : SemAct → Option SemSys
  | .openSem t name value =>
      if y.pc t = .outside then
        (sysSemOpen name value y.st).map fun r => { y with st := r.2 }
      else none
  | .wait t sem blocks =>
      if y.pc t = .outside then
        match sysSemWaitEnter sem y.st with
        | .returns _ s => some { y with st := s }
        | .loops i s => some (testWait { y with st := s, entered := bump y.entered i } t i blocks)
      else none
  | .waitTest t blocks =>
      match y.pc t with
      | .waiting i false => some (testWait y t i blocks)
      | _ => none
  | .post t sem woken =>
      if y.pc t = .outside then
        match sysSemPostEnter sem y.st with
        | .returns _ s => some { y with st := s }
        | .loops i s => some (testPost { y with st := s, posted := bump y.posted i } t i woken)
      else none
  | .postTest t woken =>
      match y.pc t with
      | .posting i => some (testPost y t i woken)
      | _ => none

def semStep (y : SemSys) (a : SemAct) (y' : SemSys) : Prop := semNext y a = some y'

/-- The ways a step can go, one for each way through a call. -/
inductive SemMove (y : SemSys) : SemAct → SemSys → Prop where
  | opened {t : TaskNr} {name : Option CString} {value r : ℤ} {s : SemState} :
      y.pc t = .outside → sysSemOpen name value y.st = some (r, s) →
      SemMove y (.openSem t name value) { y with st := s }
  | waitReturns {t : TaskNr} {sem v : ℤ} {b : Bool} {s : SemState} :
      y.pc t = .outside → sysSemWaitEnter sem y.st = .returns v s →
      SemMove y (.wait t sem b) { y with st := s }
  | waitLoops {t : TaskNr} {sem : ℤ} {b : Bool} {i : SemId} {s : SemState} :
      y.pc t = .outside → sysSemWaitEnter sem y.st = .loops i s →
      SemMove y (.wait t sem b) (testWait { y with st := s, entered := bump y.entered i } t i b)
  | waitTests {t : TaskNr} {b : Bool} {i : SemId} : y.pc t = .waiting i false →
      SemMove y (.waitTest t b) (testWait y t i b)
  | postReturns {t : TaskNr} {sem v : ℤ} {l : List TaskNr} {s : SemState} :
      y.pc t = .outside → sysSemPostEnter sem y.st = .returns v s →
      SemMove y (.post t sem l) { y with st := s }
  | postLoops {t : TaskNr} {sem : ℤ} {l : List TaskNr} {i : SemId} {s : SemState} :
      y.pc t = .outside → sysSemPostEnter sem y.st = .loops i s →
      SemMove y (.post t sem l) (testPost { y with st := s, posted := bump y.posted i } t i l)
  | postTests {t : TaskNr} {l : List TaskNr} {i : SemId} : y.pc t = .posting i →
      SemMove y (.postTest t l) (testPost y t i l)

theorem semStep_move {y y' : SemSys} {a : SemAct} (h : semStep y a y') : SemMove y a y' := by
  unfold semStep at h
  cases a with
  | openSem t name value =>
      simp only [semNext] at h
      split at h
      next ht =>
        obtain ⟨⟨r, s⟩, ho, rfl⟩ := Option.map_eq_some_iff.1 h
        exact .opened ht ho
      next => cases h
  | wait t sem b =>
      simp only [semNext] at h
      split at h
      next ht =>
        split at h
        next he =>
          cases h
          exact .waitReturns ht he
        next he =>
          cases h
          exact .waitLoops ht he
      next => cases h
  | waitTest t b =>
      simp only [semNext] at h
      split at h
      next ht =>
        cases h
        exact .waitTests ht
      next => cases h
  | post t sem l =>
      simp only [semNext] at h
      split at h
      next ht =>
        split at h
        next he =>
          cases h
          exact .postReturns ht he
        next he =>
          cases h
          exact .postLoops ht he
      next => cases h
  | postTest t l =>
      simp only [semNext] at h
      split at h
      next ht =>
        cases h
        exact .postTests ht
      next => cases h

/-- The semaphore `i` was just opened with the value `v`: no task is inside a
call on it and nothing is counted yet. -/
structure Opened (y : SemSys) (i : SemId) (v : ℤ) : Prop where
  init : y.st.init = true
  use : (y.st.ksem i).use ≠ 0
  value : (y.st.ksem i).semV = v
  nonneg : 0 ≤ v
  lt : v < 2 ^ 31
  noWait : ∀ t, (y.pc t).waitsOn i = false
  entered : y.entered i = 0
  left : y.left i = 0
  posted : y.posted i = 0
  completed : y.completed i = 0

/-! ## One semaphore

The rest of the system does not matter to what a semaphore does.  `View` keeps
what one semaphore can see, and `ViewStep` lists everything a step of the
system can do to it. -/

structure View where
  value : ℤ
  entered : ℕ
  left : ℕ
  posted : ℕ
  completed : ℕ
  waiting : TaskNr → Bool

def view (y : SemSys) (i : SemId) : View where
  value := (y.st.ksem i).semV
  entered := y.entered i
  left := y.left i
  posted := y.posted i
  completed := y.completed i
  waiting := fun t => (y.pc t).waitsOn i

/-- The action is a call of wait or post on the semaphore. -/
def SemAct.Calls (i : SemId) : SemAct → Prop
  | .wait _ sem _ => sem = i
  | .post _ sem _ => sem = i
  | _ => False

inductive ViewStep (i : SemId) (w : View) : SemAct → View → Prop where
  /-- The step does not concern the semaphore, or a test fails again. -/
  | quiet (a : SemAct) : ¬a.Calls i → ViewStep i w a w
  | enterBlock (t : TaskNr) (b : Bool) : w.waiting t = false → toInt32 (w.value - 1) < 0 →
      ViewStep i w (.wait t i b)
        { w with
          value := toInt32 (w.value - 1)
          entered := w.entered + 1
          waiting := Function.update w.waiting t true }
  | enterPass (t : TaskNr) (b : Bool) : 0 ≤ toInt32 (w.value - 1) →
      ViewStep i w (.wait t i b)
        { w with
          value := toInt32 (w.value - 1)
          entered := w.entered + 1
          left := w.left + 1 }
  | pass (t : TaskNr) (b : Bool) : w.waiting t = true → 0 ≤ w.value →
      ViewStep i w (.waitTest t b)
        { w with left := w.left + 1, waiting := Function.update w.waiting t false }
  | postLoop (t : TaskNr) (l : List TaskNr) : toInt32 (w.value + 1) ≤ 0 →
      ViewStep i w (.post t i l)
        { w with value := toInt32 (w.value + 1), posted := w.posted + 1 }
  | postPass (t : TaskNr) (l : List TaskNr) : 0 < toInt32 (w.value + 1) →
      ViewStep i w (.post t i l)
        { w with
          value := toInt32 (w.value + 1)
          posted := w.posted + 1
          completed := w.completed + 1 }
  | postDone (t : TaskNr) (l : List TaskNr) : 0 < w.value →
      ViewStep i w (.postTest t l) { w with completed := w.completed + 1 }

/-! ### The parts of a step -/

/-- `sys_sem_open` does not touch a semaphore that is in use. -/
theorem sysSemOpen_keeps {name : Option CString} {value r : ℤ} {s s' : SemState} {i : SemId}
    (hi : s.init = true) (hu : (s.ksem i).use ≠ 0)
    (h : sysSemOpen name value s = some (r, s')) : s'.init = true ∧ s'.ksem i = s.ksem i := by
  unfold sysSemOpen at h
  have hinit : initKsem (cli s) = cli s := by simp [initKsem, hi]
  cases name with
  | none =>
      cases h
      exact ⟨hi, rfl⟩
  | some n =>
      simp only [hinit] at h
      split at h
      next =>
        cases h
        exact ⟨hi, rfl⟩
      next =>
        split at h
        next =>
          cases h
          exact ⟨hi, rfl⟩
        next => cases h
        next u hs =>
          split at h
          next => cases h
          next =>
            cases h
            have hu0 : (s.ksem u).use = 0 := (search_missing hs (by simp)).2.1 u rfl
            have hne : i ≠ u := by rintro rfl; exact hu hu0
            exact ⟨hi, setSem_ne _ _ hne⟩

/-- What a call does to a semaphore before its loop. -/
theorem semEnter_loops {d sem : ℤ} {s s' : SemState} {j : SemId}
    (h : semEnter d sem s = .loops j s') :
    sem = j ∧ s'.init = s.init ∧
      s'.ksem j = { s.ksem j with semV := toInt32 ((s.ksem j).semV + d) } ∧
      ∀ i, i ≠ j → s'.ksem i = s.ksem i := by
  unfold semEnter at h
  split at h
  next hsem =>
    simp only at h
    split at h
    next => cases h
    next =>
      cases h
      refine ⟨?_, rfl, by simp, fun i hi => by rw [setSem_ne _ _ hi]; rfl⟩
      simp only
      omega
  next => cases h

/-- A call that returns before its loop changes no semaphore and does not name
one in use. -/
theorem semEnter_returns {d sem v : ℤ} {s s' : SemState} (h : semEnter d sem s = .returns v s') :
    s'.init = s.init ∧ s'.ksem = s.ksem ∧ ∀ i : SemId, (s.ksem i).use ≠ 0 → sem ≠ i := by
  unfold semEnter at h
  split at h
  next =>
    simp only at h
    split at h
    next hfree =>
      cases h
      refine ⟨rfl, rfl, ?_⟩
      rintro i hi rfl
      exact hi (by simpa using hfree)
    next => cases h
  next hrange =>
    cases h
    refine ⟨rfl, rfl, ?_⟩
    rintro i - rfl
    have := i.2
    exact hrange (by omega)

theorem waitsOn_update {pc : TaskNr → SemPc} {t : TaskNr} {p : SemPc} (i : SemId) :
    (fun u => (Function.update pc t p u).waitsOn i) =
      Function.update (fun u => (pc u).waitsOn i) t (p.waitsOn i) := by
  funext u
  by_cases hu : u = t
  · subst hu
    simp
  · simp [hu]

/-- A task outside the wait loop of `i` that stays outside is not seen. -/
theorem waitsOn_update_keep {pc : TaskNr → SemPc} {t : TaskNr} {p : SemPc} {i : SemId}
    (ht : (pc t).waitsOn i = false) (hp : p.waitsOn i = false) :
    (fun u => (Function.update pc t p u).waitsOn i) = fun u => (pc u).waitsOn i := by
  rw [waitsOn_update, hp, Function.update_eq_self_iff]
  exact ht.symm

theorem waitsOn_wakeUp (i j : SemId) (woken : List TaskNr) (pc : TaskNr → SemPc) :
    (fun u => (wakeUp j woken pc u).waitsOn i) = fun u => (pc u).waitsOn i := by
  funext u
  unfold wakeUp
  split
  next h =>
    cases hp : pc u with
    | waiting k b =>
        have : k = j := by simpa [hp, SemPc.waitsOn] using h.1
        simp [SemPc.waitsOn, this]
    | outside => simp [hp, SemPc.waitsOn] at h
    | posting k => simp [hp, SemPc.waitsOn] at h
  next => rfl

/-- A test of the wait loop of another semaphore is not seen. -/
theorem view_testWait_ne {y : SemSys} {t : TaskNr} {i j : SemId} {b : Bool} (hij : i ≠ j)
    (ht : (y.pc t).waitsOn i = false) : view (testWait y t j b) i = view y i := by
  unfold testWait
  split
  · simp only [view]
    rw [waitsOn_update_keep ht (by simp [SemPc.waitsOn, Ne.symm hij])]
  · simp only [view, sti_ksem, bump_ne _ hij]
    rw [waitsOn_update_keep ht rfl]

/-- A test of a post loop changes a semaphore only when it is its own and
succeeds. -/
theorem view_testPost {y : SemSys} {t : TaskNr} {i j : SemId} {l : List TaskNr}
    (ht : (y.pc t).waitsOn i = false) :
    view (testPost y t j l) i =
      if i = j ∧ 0 < (y.st.ksem j).semV then
        { view y i with completed := y.completed i + 1 }
      else view y i := by
  unfold testPost postBlocked
  by_cases hv : (y.st.ksem j).semV ≤ 0
  · rw [if_pos (by simpa using hv), if_neg (by omega)]
    simp only [view]
    rw [waitsOn_wakeUp, waitsOn_update_keep ht rfl]
  · rw [if_neg (by simpa using hv)]
    simp only [view, sti_ksem]
    rw [waitsOn_update_keep ht rfl]
    by_cases hij : i = j
    · subst hij
      simp [not_le.1 hv]
    · simp [hij, bump_ne _ hij]

/-! ### Every step -/

section Step

variable {y y' : SemSys} {i : SemId}

theorem viewStep_wait {t : TaskNr} {sem : ℤ} {b : Bool} (ht : y.pc t = .outside)
    {j : SemId} {s : SemState} (he : sysSemWaitEnter sem y.st = .loops j s) :
    ViewStep i (view y i) (.wait t sem b)
      (view (testWait { y with st := s, entered := bump y.entered j } t j b) i) := by
  obtain ⟨rfl, -, hj, hother⟩ := semEnter_loops he
  have hout : (y.pc t).waitsOn i = false := by simp [ht, SemPc.waitsOn]
  by_cases hij : i = j
  · subst hij
    have hval : (s.ksem i).semV = toInt32 ((view y i).value - 1) := by
      rw [hj]
      rfl
    by_cases hb : (s.ksem i).semV < 0
    · have hw : view (testWait { y with st := s, entered := bump y.entered i } t i b) i =
          { view y i with
            value := toInt32 ((view y i).value - 1)
            entered := (view y i).entered + 1
            waiting := Function.update (view y i).waiting t true } := by
        simp only [testWait, waitBlocked, hb, decide_true, if_true, view, bump_self]
        rw [waitsOn_update]
        simp [SemPc.waitsOn, hval, view]
      rw [hw]
      exact .enterBlock t b (by simpa [view] using hout) (hval ▸ hb)
    · have hw : view (testWait { y with st := s, entered := bump y.entered i } t i b) i =
          { view y i with
            value := toInt32 ((view y i).value - 1)
            entered := (view y i).entered + 1
            left := (view y i).left + 1 } := by
        simp only [testWait, waitBlocked, hb, decide_false, Bool.false_eq_true, if_false, view,
          bump_self, sti_ksem]
        rw [waitsOn_update_keep hout rfl]
        simp [hval, view]
      rw [hw]
      exact .enterPass t b (by rw [← hval]; omega)
  · have hcalls : (j : ℤ) ≠ i := by
      intro h
      exact hij (Fin.ext (by omega))
    rw [view_testWait_ne (y := { y with st := s, entered := bump y.entered j }) hij hout]
    have hw : view { y with st := s, entered := bump y.entered j } i = view y i := by
      simp only [view, hother i hij, bump_ne _ hij]
    rw [hw]
    exact .quiet _ hcalls

theorem viewStep_waitTest {t : TaskNr} {b : Bool} {j : SemId} (ht : y.pc t = .waiting j false) :
    ViewStep i (view y i) (.waitTest t b) (view (testWait y t j b) i) := by
  by_cases hij : i = j
  · subst hij
    have hin : (view y i).waiting t = true := by simp [view, ht, SemPc.waitsOn]
    by_cases hb : (y.st.ksem i).semV < 0
    · have hw : view (testWait y t i b) i = view y i := by
        simp only [testWait, waitBlocked, hb, decide_true, if_true, view]
        rw [waitsOn_update, Function.update_eq_self_iff.2]
        simp [ht, SemPc.waitsOn]
      rw [hw]
      exact .quiet _ id
    · have hw : view (testWait y t i b) i =
          { view y i with
            left := (view y i).left + 1
            waiting := Function.update (view y i).waiting t false } := by
        simp only [testWait, waitBlocked, hb, decide_false, Bool.false_eq_true, if_false, view,
          bump_self, sti_ksem]
        rw [waitsOn_update]
        rfl
      rw [hw]
      exact .pass t b hin (by simp only [view]; omega)
  · rw [view_testWait_ne hij (by simp [ht, SemPc.waitsOn, Ne.symm hij])]
    exact .quiet _ id

theorem viewStep_post {t : TaskNr} {sem : ℤ} {l : List TaskNr} (ht : y.pc t = .outside)
    {j : SemId} {s : SemState} (he : sysSemPostEnter sem y.st = .loops j s) :
    ViewStep i (view y i) (.post t sem l)
      (view (testPost { y with st := s, posted := bump y.posted j } t j l) i) := by
  obtain ⟨rfl, -, hj, hother⟩ := semEnter_loops he
  have hout : (y.pc t).waitsOn i = false := by simp [ht, SemPc.waitsOn]
  rw [view_testPost (y := { y with st := s, posted := bump y.posted j }) hout]
  by_cases hij : i = j
  · subst hij
    have hval : (s.ksem i).semV = toInt32 ((view y i).value + 1) := by
      rw [hj]
      rfl
    have hw : view { y with st := s, posted := bump y.posted i } i =
        { view y i with
          value := toInt32 ((view y i).value + 1)
          posted := (view y i).posted + 1 } := by
      simp only [view, hval, bump_self]
    rw [hw]
    by_cases hb : 0 < (s.ksem i).semV
    · rw [if_pos ⟨rfl, hb⟩]
      exact .postPass t l (hval ▸ hb)
    · rw [if_neg (fun h => hb h.2)]
      exact .postLoop t l (by rw [← hval]; omega)
  · have hcalls : (j : ℤ) ≠ i := by
      intro h
      exact hij (Fin.ext (by omega))
    rw [if_neg (fun h => hij h.1)]
    have hw : view { y with st := s, posted := bump y.posted j } i = view y i := by
      simp only [view, hother i hij, bump_ne _ hij]
    rw [hw]
    exact .quiet _ hcalls

theorem viewStep_postTest {t : TaskNr} {l : List TaskNr} {j : SemId}
    (ht : y.pc t = .posting j) :
    ViewStep i (view y i) (.postTest t l) (view (testPost y t j l) i) := by
  rw [view_testPost (by simp [ht, SemPc.waitsOn])]
  split
  next h =>
    obtain ⟨rfl, hpos⟩ := h
    exact .postDone t l hpos
  next => exact .quiet _ id

theorem testWait_st (y : SemSys) (t : TaskNr) (i : SemId) (b : Bool) :
    (testWait y t i b).st.init = y.st.init ∧ (testWait y t i b).st.ksem = y.st.ksem := by
  unfold testWait
  split <;> exact ⟨rfl, rfl⟩

theorem testPost_st (y : SemSys) (t : TaskNr) (i : SemId) (l : List TaskNr) :
    (testPost y t i l).st.init = y.st.init ∧ (testPost y t i l).st.ksem = y.st.ksem := by
  unfold testPost
  split <;> exact ⟨rfl, rfl⟩

/-- The semaphore is in use, in a table that has been initialised. -/
def InUse (y : SemSys) (i : SemId) : Prop := y.st.init = true ∧ (y.st.ksem i).use ≠ 0

theorem InUse.testWait (hu : InUse y i) {t : TaskNr} {j : SemId} {b : Bool} :
    InUse (testWait y t j b) i := by
  obtain ⟨hinit, hks⟩ := testWait_st y t j b
  exact ⟨hinit.trans hu.1, by rw [hks]; exact hu.2⟩

theorem InUse.testPost (hu : InUse y i) {t : TaskNr} {j : SemId} {l : List TaskNr} :
    InUse (testPost y t j l) i := by
  obtain ⟨hinit, hks⟩ := testPost_st y t j l
  exact ⟨hinit.trans hu.1, by rw [hks]; exact hu.2⟩

/-- Every step of the system is a step of the semaphore's view, and leaves the
semaphore in use. -/
theorem semStep_view {a : SemAct} (hu : InUse y i) (h : semStep y a y') :
    ViewStep i (view y i) a (view y' i) ∧ InUse y' i := by
  have hloops : ∀ {d sem : ℤ} {j : SemId} {s : SemState}, semEnter d sem y.st = .loops j s →
      s.init = true ∧ (s.ksem i).use ≠ 0 := by
    intro d sem j s he
    obtain ⟨-, hinit, hj, hother⟩ := semEnter_loops he
    refine ⟨hinit.trans hu.1, ?_⟩
    by_cases hij : i = j
    · subst hij
      rw [hj]
      exact hu.2
    · rw [hother i hij]
      exact hu.2
  have hreturns : ∀ {d sem v : ℤ} {s : SemState}, semEnter d sem y.st = .returns v s →
      view { y with st := s } i = view y i ∧ InUse { y with st := s } i ∧ sem ≠ i := by
    intro d sem v s he
    obtain ⟨hinit, hks, hne⟩ := semEnter_returns he
    simp only [view, InUse, hks, hinit]
    exact ⟨trivial, hu, hne i hu.2⟩
  cases semStep_move h with
  | opened _ ho =>
      obtain ⟨hinit, hks⟩ := sysSemOpen_keeps hu.1 hu.2 ho
      refine ⟨?_, hinit, by rw [hks]; exact hu.2⟩
      simp only [view, hks]
      exact .quiet _ id
  | waitReturns _ he =>
      obtain ⟨hw, hu', hne⟩ := hreturns he
      exact ⟨hw ▸ .quiet _ hne, hu'⟩
  | waitLoops ht he =>
      refine ⟨viewStep_wait ht he, ?_⟩
      apply InUse.testWait
      exact hloops he
  | waitTests ht =>
      exact ⟨viewStep_waitTest ht, hu.testWait⟩
  | postReturns _ he =>
      obtain ⟨hw, hu', hne⟩ := hreturns he
      exact ⟨hw ▸ .quiet _ hne, hu'⟩
  | postLoops ht he =>
      refine ⟨viewStep_post ht he, ?_⟩
      apply InUse.testPost
      exact hloops he
  | postTests ht =>
      exact ⟨viewStep_postTest ht, hu.testPost⟩

end Step

end MyJavaExample.Kernel
