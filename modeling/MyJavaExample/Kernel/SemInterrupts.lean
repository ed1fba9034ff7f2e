import MyJavaExample.Kernel.SemPost

/-!
# The interrupt flag

The three calls turn interrupts off and have exits that do not turn them on
again: `sys_sem_open` when it finds the name, `sys_sem_wait` and `sys_sem_post`
when the slot is not used.  Every exit after a loop turns them on.

A call may take many steps of its task, with steps of other tasks between them.
`CallReturns` follows one call from the state in which it is made to the state
in which its task is outside again.
-/

namespace MyJavaExample.Kernel

open Lib

/-- A semaphore call with its arguments. -/
inductive SemCall where
  | openSem (name : Option CString) (value : ℤ)
  | wait (sem : ℤ)
  | post (sem : ℤ)

/-- The action is the first step of the call by the task. -/
def SemAct.Starts (t : TaskNr) : SemCall → SemAct → Prop
  | .openSem name value, a => a = .openSem t name value
  | .wait sem, a => ∃ b, a = .wait t sem b
  | .post sem, a => ∃ l, a = .post t sem l

/-- The task makes the call in `y`, and has taken it as far as `y'`. -/
inductive CallReaches (t : TaskNr) (c : SemCall) (y : SemSys) : SemSys → Prop where
  | start {a : SemAct} {y' : SemSys} : y.pc t = .outside → a.Starts t c → semStep y a y' →
      CallReaches t c y y'
  | later {a : SemAct} {y₁ y₂ : SemSys} : CallReaches t c y y₁ → y₁.pc t ≠ .outside →
      semStep y₁ a y₂ → CallReaches t c y y₂

/-- The task makes the call in `y`, and the call returns in `y'`. -/
def CallReturns (t : TaskNr) (c : SemCall) (y y' : SemSys) : Prop :=
  CallReaches t c y y' ∧ y'.pc t = .outside

/-- The conditions on the arguments and the table under which a call takes no
exit between `cli` and `sti`. -/
def SemCall.Restores (s : SemState) : SemCall → Prop
  | .openSem none _ => True
  | .openSem (some n) value =>
      strlen n = 0 ∨ value < 0 ∨ (s.init = true → ∀ i, cstr (s.ksem i).name ≠ n.1)
  | .wait sem => ∀ i : SemId, sem = i → (s.ksem i).use ≠ 0
  | .post sem => ∀ i : SemId, sem = i → (s.ksem i).use ≠ 0

/-! ## The exits -/

/-- The search fails only when no slot has the name. -/
theorem exists_search_found {ksem : SemId → SemSt} {n : CString} {i : SemId}
    (h : cstr (ksem i).name = n.1) :
    ∃ j, search ksem n (List.finRange MAX_SEM_NUM) none = .found j := by
  cases hs : search ksem n (List.finRange MAX_SEM_NUM) none with
  | found j => exact ⟨j, rfl⟩
  | missing w => exact absurd h ((search_missing hs (by simp)).1 i (List.mem_finRange i))

/-- A non-empty name is found only in a table that was initialised before. -/
theorem found_of_initKsem {s : SemState} {n : CString} {j : SemId} (hn : strlen n ≠ 0)
    (h : cstr ((initKsem (cli s)).ksem j).name = n.1) :
    s.init = true ∧ cstr (s.ksem j).name = n.1 := by
  by_cases hinit : s.init = true
  · refine ⟨hinit, ?_⟩
    rwa [initKsem, cli_init, if_pos hinit, cli_ksem] at h
  · have hempty : cstr ((initKsem (cli s)).ksem j).name = [] := by
      simp [initKsem, hinit, cstr, MAX_NAME_LEN]
    rw [hempty] at h
    exact absurd (by simp [strlen, ← h]) hn

/-- `sys_sem_open` returns with interrupts on, where it takes no early exit. -/
theorem sysSemOpen_intr {name : Option CString} {value r : ℤ} {s s' : SemState}
    (hi : s.intr = true) (hr : (SemCall.openSem name value).Restores s)
    (h : sysSemOpen name value s = some (r, s')) : s'.intr = true := by
  unfold sysSemOpen at h
  cases name with
  | none =>
      cases h
      exact hi
  | some n =>
      simp only at h
      split at h
      next =>
        cases h
        exact hi
      next hguard =>
        obtain ⟨hn, hv⟩ := not_or.1 hguard
        split at h
        next j hs =>
          obtain ⟨hinit, hname⟩ := found_of_initKsem hn (search_found hs)
          exact absurd hname (((hr.resolve_left hn).resolve_left hv) hinit j)
        next => cases h
        next =>
          split at h
          next => cases h
          next =>
            cases h
            rfl

/-- Otherwise it finds the name and returns with interrupts off. -/
theorem sysSemOpen_intr_off {name : Option CString} {value : ℤ} {s : SemState}
    (hr : ¬(SemCall.openSem name value).Restores s) :
    ∃ r s', sysSemOpen name value s = some (r, s') ∧ s'.intr = false := by
  cases name with
  | none => exact absurd trivial hr
  | some n =>
      simp only [SemCall.Restores, not_or, not_forall, not_not] at hr
      obtain ⟨hn, hv, hinit, i, hi⟩ := hr
      have hcli : initKsem (cli s) = cli s := by simp [initKsem, hinit]
      obtain ⟨j, hj⟩ := exists_search_found hi
      have hguard : ¬(strlen n = 0 ∨ value < 0) := not_or.2 ⟨hn, hv⟩
      exact ⟨j, cli s, by simp only [sysSemOpen, if_neg hguard, hcli, cli_ksem, hj], rfl⟩

/-- A wait or a post that returns before its loop leaves the flag as it was, or
has found a slot that is not used. -/
theorem semEnter_returns_intr {d sem v : ℤ} {s s' : SemState}
    (h : semEnter d sem s = .returns v s') :
    s' = s ∨ s'.intr = false ∧ ∃ i : SemId, sem = i ∧ (s.ksem i).use = 0 := by
  unfold semEnter at h
  split at h
  next hsem =>
    simp only at h
    split at h
    next hu =>
      cases h
      refine Or.inr ⟨rfl, ⟨sem.toNat, by omega⟩, ?_, hu⟩
      simp only
      omega
    next => cases h
  next =>
    cases h
    exact Or.inl rfl

/-- On a slot that is not used they return with interrupts off. -/
theorem semEnter_unused {d : ℤ} {s : SemState} {i : SemId} (h : (s.ksem i).use = 0) :
    semEnter d i s = .returns (-1) (cli s) := by
  have hi : (0 : ℤ) ≤ i ∧ (i : ℤ) < MAX_SEM_NUM := by
    have := i.2
    omega
  unfold semEnter
  rw [dif_pos hi]
  simp [h]

/-! ## The steps -/

section Steps

variable {y y' : SemSys} {t u : TaskNr} {c : SemCall}

/-- A test of a wait loop leaves another task where it was, and its own outside
only with interrupts on. -/
theorem testWait_outside {i : SemId} {b : Bool} (h : (testWait y u i b).pc t = .outside) :
    (testWait y u i b).st.intr = true ∨ y.pc t = .outside ∧ t ≠ u := by
  unfold testWait at h ⊢
  split
  next hb =>
    rw [if_pos hb] at h
    by_cases htu : t = u
    · simp [htu] at h
    · simp only [Function.update_of_ne htu] at h
      exact Or.inr ⟨h, htu⟩
  next => exact Or.inl rfl

/-- A test of a post loop does so too. -/
theorem testPost_outside {i : SemId} {l : List TaskNr} (h : (testPost y u i l).pc t = .outside) :
    (testPost y u i l).st.intr = true ∨ y.pc t = .outside ∧ t ≠ u := by
  unfold testPost at h ⊢
  split
  next hb =>
    rw [if_pos hb] at h
    simp only [wakeUp] at h
    split at h
    next => cases h
    next =>
      by_cases htu : t = u
      · simp [htu] at h
      · rw [Function.update_of_ne htu] at h
        exact Or.inr ⟨h, htu⟩
  next => exact Or.inl rfl

/-- A step that takes a task out of its loop turns interrupts on. -/
theorem semStep_leaves_intr {a : SemAct} (h : semStep y a y') (ht : y.pc t ≠ .outside)
    (ht' : y'.pc t = .outside) : y'.st.intr = true := by
  cases semStep_move h with
  | opened _ _ => exact absurd ht' ht
  | waitReturns _ _ => exact absurd ht' ht
  | waitLoops _ _ => exact (testWait_outside ht').resolve_right fun hout => ht hout.1
  | waitTests _ => exact (testWait_outside ht').resolve_right fun hout => ht hout.1
  | postReturns _ _ => exact absurd ht' ht
  | postLoops _ _ => exact (testPost_outside ht').resolve_right fun hout => ht hout.1
  | postTests _ => exact (testPost_outside ht').resolve_right fun hout => ht hout.1

/-- A wait or a post on a slot that is used returns before its loop only with
the flag as it was. -/
theorem semEnter_returns_restores {d sem v : ℤ} {s s' : SemState}
    (he : semEnter d sem s = .returns v s') (hr : ∀ i : SemId, sem = i → (s.ksem i).use ≠ 0)
    (hi : s.intr = true) : s'.intr = true := by
  rcases semEnter_returns_intr he with rfl | ⟨-, i, hsem, hu⟩
  · exact hi
  · exact absurd hu (hr i hsem)

/-- A call that takes no early exit and returns in its first step returns with
interrupts on. -/
theorem semStep_starts_intr {a : SemAct} (h : semStep y a y') (ha : a.Starts t c)
    (hi : y.st.intr = true) (hr : c.Restores y.st) (ht' : y'.pc t = .outside) :
    y'.st.intr = true := by
  cases c with
  | openSem name value =>
      cases ha
      cases semStep_move h with
      | opened _ ho => exact sysSemOpen_intr hi hr ho
  | wait sem =>
      obtain ⟨b, rfl⟩ := ha
      cases semStep_move h with
      | waitReturns _ he => exact semEnter_returns_restores he hr hi
      | waitLoops _ _ => exact (testWait_outside ht').resolve_right fun hout => hout.2 rfl
  | post sem =>
      obtain ⟨l, rfl⟩ := ha
      cases semStep_move h with
      | postReturns _ he => exact semEnter_returns_restores he hr hi
      | postLoops _ _ => exact (testPost_outside ht').resolve_right fun hout => hout.2 rfl

/-- A call that takes an early exit returns at once with interrupts off. -/
theorem exists_returns_intr_off (ht : y.pc t = .outside) (hr : ¬c.Restores y.st) :
    ∃ y', CallReturns t c y y' ∧ y'.st.intr = false := by
  cases c with
  | openSem name value =>
      obtain ⟨r, s, ho, hoff⟩ := sysSemOpen_intr_off hr
      have hstep : semStep y (.openSem t name value) { y with st := s } := by
        simp only [semStep, semNext, ht, if_true, ho, Option.map_some]
      exact ⟨_, ⟨.start ht rfl hstep, ht⟩, hoff⟩
  | wait sem =>
      simp only [SemCall.Restores, not_forall, not_not] at hr
      obtain ⟨i, rfl, hu⟩ := hr
      have hstep : semStep y (.wait t i false) { y with st := cli y.st } := by
        simp only [semStep, semNext, ht, if_true, sysSemWaitEnter, semEnter_unused hu]
      exact ⟨_, ⟨.start ht ⟨false, rfl⟩ hstep, ht⟩, rfl⟩
  | post sem =>
      simp only [SemCall.Restores, not_forall, not_not] at hr
      obtain ⟨i, rfl, hu⟩ := hr
      have hstep : semStep y (.post t i []) { y with st := cli y.st } := by
        simp only [semStep, semNext, ht, if_true, sysSemPostEnter, semEnter_unused hu]
      exact ⟨_, ⟨.start ht ⟨[], rfl⟩ hstep, ht⟩, rfl⟩

/-- In any state, a call made with interrupts on always returns with interrupts
on, whatever other tasks do meanwhile, exactly when the open of a name does not
find it and the slot of a wait or a post is used. -/
theorem semCall_restores_iff (ht : y.pc t = .outside) (hi : y.st.intr = true) :
    (∀ y', CallReturns t c y y' → y'.st.intr = true) ↔ c.Restores y.st := by
  constructor
  · intro h
    by_contra hr
    obtain ⟨y', hret, hoff⟩ := exists_returns_intr_off ht hr
    rw [h y' hret] at hoff
    cases hoff
  · rintro hr y' ⟨hreach, hout⟩
    cases hreach with
    | start _ ha hs => exact semStep_starts_intr hs ha hi hr hout
    | later _ hpc hs => exact semStep_leaves_intr hs hpc hout

end Steps

/-- A wait on a semaphore opened with one returns with interrupts on. -/
theorem openedSys_wait_restores :
    ∃ y', CallReturns 1 (.wait 9) (openedSys 1) y' ∧ y'.st.intr = true := by
  have hrun : (semNext (openedSys 1) (.wait 1 9 false)).map (fun y => y.pc 1) = some .outside := by
    decide
  obtain ⟨y', hy, hout⟩ := Option.map_eq_some_iff.1 hrun
  have hret : CallReturns 1 (.wait 9) (openedSys 1) y' := ⟨.start rfl ⟨false, rfl⟩ hy, hout⟩
  have hused : (SemCall.wait 9).Restores (openedSys 1).st := by
    intro i hi
    have hlast : i = lastSem := Fin.ext (by simp only [lastSem]; omega)
    subst hlast
    decide
  exact ⟨y', hret, (semCall_restores_iff rfl (by decide)).2 hused y' hret⟩

/-- The second open of a name finds it, and returns with interrupts off. -/
theorem openAgain_not_restores :
    ∃ y y', Exec semStep .boot [.openSem 1 (some jz) 1] y ∧ y.st.intr = true ∧
      CallReturns 1 (.openSem (some jz) 1) y y' ∧ y'.st.intr = false := by
  have hrun : (([.openSem 1 (some jz) 1] : List SemAct).foldlM semNext .boot).map
      (fun y => (y.pc 1, y.st.intr, y.st.init, cstr (y.st.ksem lastSem).name)) =
        some (.outside, true, true, jz.1) := by
    decide
  obtain ⟨y, hy, hv⟩ := Option.map_eq_some_iff.1 hrun
  simp only [Prod.mk.injEq] at hv
  obtain ⟨hout, hon, hinit, hname⟩ := hv
  have hr : ¬(SemCall.openSem (some jz) 1).Restores y.st := by
    rintro (h0 | hneg | hno)
    · exact absurd h0 (by decide)
    · exact absurd hneg (by decide)
    · exact hno hinit lastSem hname
  obtain ⟨y', hret, hoff⟩ := exists_returns_intr_off hout hr
  exact ⟨y, y', Exec.of_foldlM hy, hon, hret, hoff⟩

end MyJavaExample.Kernel
