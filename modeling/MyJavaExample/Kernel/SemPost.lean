import MyJavaExample.Kernel.SemSafety

/-!
# Posts that return

The loop of `sys_sem_post` calls `wake_up`, which changes the task at the head
of a queue and not the value the loop tests.  It does not call `schedule`
either, and interrupts are off, so no other task runs between two tests.  A post
that enters its loop never leaves it (`postLoop_stuck`).

So a post returns exactly when the value it finds is not negative and does not
overflow.  `SemState.InRange` is the invariant behind this: the value of every
semaphore is an `int` in every state reached from boot.
-/

namespace MyJavaExample.Kernel

open Lib

/-! ## `sys_sem_post` to its end -/

/-- `wake_up` on the pointer stored in `head`, whose null value wakes nobody.
Another value is the address of a task and not of a queue, and following it is
undefined. -/
def wakeUpHead (head : Option TaskNr) (s : SemState) : Option SemState :=
  match head with
  | none => some s
  | some _ => none

/-- The loop of `sys_sem_post` and the `sti` after it, with at most `fuel`
tests. -/
def postLoop (i : SemId) : ℕ → SemState → Option SemState
  | 0, _ => none
  | fuel + 1, s =>
      if postBlocked s i then (wakeUpHead (s.ksem i).head s).bind (postLoop i fuel)
      else some (sti s)

/-- `sys_sem_post(sem)`.  The function has no `return` after its loop, so the
value there is unspecified. -/
def sysSemPost (fuel : ℕ) (sem : ℤ) (s : SemState) : Option (Option ℤ × SemState) :=
  match sysSemPostEnter sem s with
  | .returns v s => some (some v, s)
  | .loops i s => (postLoop i fuel s).map fun s => (none, s)

/-- The call returns after some number of tests. -/
def PostReturns (sem : ℤ) (s : SemState) : Prop := ∃ fuel r, sysSemPost fuel sem s = some r

/-- No number of tests gets a post out of its loop. -/
theorem postLoop_stuck {s : SemState} {i : SemId} (h : (s.ksem i).semV ≤ 0) (fuel : ℕ) :
    postLoop i fuel s = none := by
  have hb : postBlocked s i = true := by simpa [postBlocked] using h
  induction fuel with
  | zero => rfl
  | succ fuel ih =>
      simp only [postLoop, hb, if_true]
      cases (s.ksem i).head with
      | none => exact ih
      | some t => rfl

/-- One test is enough for a positive value. -/
theorem postLoop_done {s : SemState} {i : SemId} (h : 0 < (s.ksem i).semV) :
    postLoop i 1 s = some (sti s) := by
  have hb : postBlocked s i = false := by simpa [postBlocked] using h
  simp [postLoop, hb]

/-- A call that returns before its loop returns. -/
theorem postReturns_of_returns {sem v : ℤ} {s s' : SemState}
    (h : sysSemPostEnter sem s = .returns v s') : PostReturns sem s :=
  ⟨0, (some v, s'), by simp only [sysSemPost, h]⟩

/-- A call that enters its loop returns when it finds the value positive. -/
theorem postReturns_iff_of_loops {sem : ℤ} {s s' : SemState} {i : SemId}
    (h : sysSemPostEnter sem s = .loops i s') : PostReturns sem s ↔ 0 < (s'.ksem i).semV := by
  simp only [PostReturns, sysSemPost, h]
  constructor
  · rintro ⟨fuel, r, hr⟩
    by_contra hle
    rw [postLoop_stuck (not_lt.1 hle)] at hr
    cases hr
  · intro hpos
    exact ⟨1, (none, sti s'), by rw [postLoop_done hpos]; rfl⟩

/-- A post step of the system leaves the task outside when the call returns,
and in the loop when it does not. -/
theorem post_step {y : SemSys} {t : TaskNr} {sem : ℤ} {l : List TaskNr}
    (ht : y.pc t = .outside) :
    ∃ y', semNext y (.post t sem l) = some y' ∧ (PostReturns sem y.st ↔ y'.pc t = .outside) := by
  simp only [semNext, ht, if_true]
  cases he : sysSemPostEnter sem y.st with
  | returns v s => exact ⟨_, rfl, fun _ => ht, fun _ => postReturns_of_returns he⟩
  | loops i s =>
      refine ⟨_, rfl, ?_⟩
      rw [postReturns_iff_of_loops he]
      unfold testPost postBlocked
      by_cases hle : (s.ksem i).semV ≤ 0
      · simp [hle, wakeUp, SemPc.waitsOn]
      · simp [hle, not_le.1 hle]

/-! ## The values of a run -/

/-- The range of `int`. -/
def IsInt (x : ℤ) : Prop := -2 ^ 31 ≤ x ∧ x < 2 ^ 31

theorem isInt_toInt32 (x : ℤ) : IsInt (toInt32 x) := ⟨toInt32_lower x, toInt32_upper x⟩

/-- The integer arguments of the calls are `int`s. -/
def SemAct.IntArgs : SemAct → Prop
  | .openSem _ _ value => IsInt value
  | .wait _ sem _ => IsInt sem
  | .post _ sem _ => IsInt sem
  | _ => True

/-- No call was made yet. -/
def SemSys.boot : SemSys where
  st := .boot
  pc := fun _ => .outside
  entered := fun _ => 0
  left := fun _ => 0
  posted := fun _ => 0
  completed := fun _ => 0

/-- The value of every semaphore is an `int`. -/
def SemState.InRange (s : SemState) : Prop := ∀ i, IsInt (s.ksem i).semV

theorem SemState.InRange.of_ksem {s s' : SemState} (h : s.InRange) (hk : s'.ksem = s.ksem) :
    s'.InRange := by
  intro i
  rw [hk]
  exact h i

theorem SemState.InRange.setSem {s : SemState} {u : SemId} {x : SemSt} (h : s.InRange)
    (hx : IsInt x.semV) : (setSem s u x).InRange := by
  intro i
  by_cases hi : i = u
  · subst hi
    rwa [setSem_self]
  · rw [setSem_ne _ _ hi]
    exact h i

theorem SemState.InRange.initKsem {s : SemState} (h : s.InRange) :
    (initKsem (cli s)).InRange := by
  intro i
  unfold Kernel.initKsem
  split <;> exact h i

theorem sysSemOpen_inRange {name : Option CString} {value r : ℤ} {s s' : SemState}
    (h : s.InRange) (hv : IsInt value) (ho : sysSemOpen name value s = some (r, s')) :
    s'.InRange := by
  unfold sysSemOpen at ho
  cases name with
  | none =>
      cases ho
      exact h
  | some n =>
      simp only at ho
      split at ho
      next =>
        cases ho
        exact h
      next =>
        split at ho
        next =>
          cases ho
          exact h.initKsem
        next => cases ho
        next =>
          split at ho
          next => cases ho
          next =>
            cases ho
            exact (h.initKsem.setSem hv).of_ksem rfl

/-- A loop is entered on a semaphore in use. -/
theorem semEnter_used {d sem : ℤ} {s s' : SemState} {i : SemId}
    (h : semEnter d sem s = .loops i s') : (s.ksem i).use ≠ 0 := by
  unfold semEnter at h
  split at h
  next =>
    simp only at h
    split at h
    next => cases h
    next hu =>
      cases h
      simpa using hu
  next => cases h

theorem semEnter_inRange {d sem : ℤ} {s s' : SemState} {i : SemId} (h : s.InRange)
    (he : semEnter d sem s = .loops i s') : s'.InRange := by
  obtain ⟨-, -, hi, hother⟩ := semEnter_loops he
  intro j
  by_cases hj : j = i
  · subst hj
    rw [hi]
    exact isInt_toInt32 _
  · rw [hother j hj]
    exact h j

theorem semStep_inRange {y y' : SemSys} {a : SemAct} (h : y.st.InRange) (ha : a.IntArgs)
    (hs : semStep y a y') : y'.st.InRange := by
  cases semStep_move hs with
  | opened _ ho => exact sysSemOpen_inRange h ha ho
  | waitReturns _ he => exact h.of_ksem (semEnter_returns he).2.1
  | waitLoops _ he => exact (semEnter_inRange h he).of_ksem (testWait_st _ _ _ _).2
  | waitTests _ => exact h.of_ksem (testWait_st _ _ _ _).2
  | postReturns _ he => exact h.of_ksem (semEnter_returns he).2.1
  | postLoops _ he => exact (semEnter_inRange h he).of_ksem (testPost_st _ _ _ _).2
  | postTests _ => exact h.of_ksem (testPost_st _ _ _ _).2

theorem inRange_of_exec {as : List SemAct} {y : SemSys}
    (h : Exec (guarded (fun _ => SemAct.IntArgs) semStep) .boot as y) : y.st.InRange := by
  refine h.invariant (I := fun y => y.st.InRange) ?_ fun hy hs => semStep_inRange hy hs.1 hs.2
  intro i
  change IsInt 0
  exact ⟨by decide, by decide⟩

/-! ## The calls that return -/

/-- The argument names no semaphore in use. -/
def NoSem (sem : ℤ) (s : SemState) : Prop := ∀ i : SemId, sem = i → (s.ksem i).use = 0

/-- The semaphore has no debt to a waiting task, and its value can be
incremented. -/
def NoDebt (sem : ℤ) (s : SemState) : Prop :=
  ∃ i : SemId, sem = i ∧ 0 ≤ (s.ksem i).semV ∧ (s.ksem i).semV < 2 ^ 31 - 1

/-- The increment of an `int` is positive unless it is negative or
overflows. -/
theorem toInt32_succ_pos {x : ℤ} (h : IsInt x) : 0 < toInt32 (x + 1) ↔ 0 ≤ x ∧ x < 2 ^ 31 - 1 := by
  obtain ⟨hl, hu⟩ := h
  unfold toInt32
  omega

/-- In every state reached by any sequence of opens, waits and posts, with any
tasks inside their loops, a post returns exactly when its argument names no
semaphore in use, or one whose value is not negative and does not overflow. -/
theorem sysSemPost_returns_iff {as : List SemAct} {y : SemSys}
    (h : Exec (guarded (fun _ => SemAct.IntArgs) semStep) .boot as y) (sem : ℤ) :
    PostReturns sem y.st ↔ NoSem sem y.st ∨ NoDebt sem y.st := by
  cases he : sysSemPostEnter sem y.st with
  | returns v s =>
      have hno : NoSem sem y.st := by
        intro i hi
        by_contra hu
        exact (semEnter_returns he).2.2 i hu hi
      exact ⟨fun _ => Or.inl hno, fun _ => postReturns_of_returns he⟩
  | loops i s =>
      have hused := semEnter_used he
      obtain ⟨rfl, -, hi, -⟩ := semEnter_loops he
      rw [postReturns_iff_of_loops he, hi, toInt32_succ_pos (inRange_of_exec h i)]
      constructor
      · intro hv
        exact Or.inr ⟨i, rfl, hv⟩
      · rintro (hno | ⟨j, hj, hv⟩)
        · exact absurd (hno i rfl) hused
        · have hij : i = j := Fin.ext (by omega)
          subst hij
          exact hv

/-- The name of `semtest.c`. -/
def jz : CString := ⟨[106, 122], zero_not_mem_jz⟩

/-- A post on a semaphore opened with one returns. -/
theorem sysSemPost_returns_one :
    ∃ y, Exec (guarded (fun _ => SemAct.IntArgs) semStep) .boot [.openSem 1 (some jz) 1] y ∧
      PostReturns 9 y.st := by
  have hrun : (([.openSem 1 (some jz) 1] : List SemAct).foldlM semNext .boot).map
      (fun y => (y.st.ksem lastSem).semV) = some 1 := by
    decide
  obtain ⟨y, hy, hv⟩ := Option.map_eq_some_iff.1 hrun
  have hr : Exec semStep .boot _ y := Exec.of_foldlM hy
  have hr' : Exec (guarded (fun _ => SemAct.IntArgs) semStep) .boot _ y :=
    hr.guarded_of_forall (by simp [SemAct.IntArgs, IsInt])
  refine ⟨y, hr', (sysSemPost_returns_iff hr' 9).2 (Or.inr ⟨lastSem, rfl, ?_⟩)⟩
  omega

/-- A task waits on a semaphore opened with zero, and the post that should wake
it up does not return. -/
theorem sysSemPost_not_returns :
    ∃ y, Exec (guarded (fun _ => SemAct.IntArgs) semStep) .boot
        [.openSem 1 (some jz) 0, .wait 1 9 true] y ∧ ¬PostReturns 9 y.st := by
  have hrun : (([.openSem 1 (some jz) 0, .wait 1 9 true] : List SemAct).foldlM semNext .boot).map
      (fun y => ((y.st.ksem lastSem).use, (y.st.ksem lastSem).semV)) = some (1, -1) := by
    decide
  obtain ⟨y, hy, hv⟩ := Option.map_eq_some_iff.1 hrun
  obtain ⟨huse, hval⟩ := Prod.mk.inj hv
  have hr : Exec semStep .boot _ y := Exec.of_foldlM hy
  refine ⟨y, hr.guarded_of_forall (by simp [SemAct.IntArgs, IsInt]), ?_⟩
  cases he : sysSemPostEnter 9 y.st with
  | returns v s => exact absurd rfl ((semEnter_returns he).2.2 lastSem (by omega))
  | loops i s =>
      obtain ⟨h9, -, hi, -⟩ := semEnter_loops he
      have hlast : i = lastSem := Fin.ext (by simp only [lastSem]; omega)
      rw [postReturns_iff_of_loops he, hi, hlast, hval]
      change ¬0 < toInt32 (-1 + 1)
      decide

end MyJavaExample.Kernel
