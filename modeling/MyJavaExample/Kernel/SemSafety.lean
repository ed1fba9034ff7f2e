import Mathlib.Data.Finset.Card
import MyJavaExample.Kernel.SemTasks

/-!
# Mutual exclusion and lost wake-ups

`sys_sem_wait` decrements the value before its loop, so the value counts the
waits that entered and not those that left.  `Balance` relates the two: the
value is the opening value less the waits that entered plus the posts, wrapped
to 32 bits, and the waits that entered are those that left and those still in
the loop.

A wait leaves its loop only when the value is not negative, and then the waits
that entered do not exceed the opening value plus the posts.  That is mutual
exclusion (`sem_mutualExclusion`).

A post that finds a negative value goes on in its loop, with interrupts off, and
so no other task runs any more.  Before that, and in that state, no unit is
unclaimed while a task is in the wait loop (`sem_noLostWakeup`).
-/

namespace MyJavaExample.Kernel

open Lib

variable {y y' : SemSys} {i : SemId} {v : ℤ} {as : List SemAct}

/-! ## The value and the calls -/

/-- How the value of a semaphore opened with `v` stands to the calls made. -/
structure Balance (v : ℤ) (w : View) : Prop where
  value : w.value = toInt32 (v - w.entered + w.posted)
  waiters : ∃ F : Finset TaskNr, (∀ t, t ∈ F ↔ w.waiting t = true) ∧ w.entered = w.left + F.card

theorem Opened.balance (h : Opened y i v) : Balance v (view y i) := by
  have hl := h.lt
  have hn := h.nonneg
  constructor
  · simp only [view, h.value, h.entered, h.posted]
    rw [toInt32_of_range] <;> push_cast <;> omega
  · refine ⟨∅, fun t => by simp [view, h.noWait t], ?_⟩
    simp [view, h.entered, h.left]

/-- Decrementing or incrementing the value follows the counters. -/
theorem toInt32_balance {x : ℤ} {a b a' b' : ℕ} {d : ℤ} (h : x = toInt32 (v - a + b))
    (hd : v - a' + b' = v - a + b + d) : toInt32 (x + d) = toInt32 (v - a' + b') := by
  rw [h, toInt32_add_left, hd]

theorem Balance.step {w w' : View} {a : SemAct} (h : Balance v w) (hs : ViewStep i w a w') :
    Balance v w' := by
  obtain ⟨F, hF, hcard⟩ := h.waiters
  cases hs with
  | quiet => exact h
  | enterBlock t b ht _ =>
      refine ⟨toInt32_balance h.value (by push_cast; omega), insert t F, fun u => ?_, ?_⟩
      · by_cases hu : u = t
        · subst hu
          simp
        · simp [hu, hF u]
      · rw [Finset.card_insert_of_notMem (by rw [hF t, ht]; simp)]
        simp only
        omega
  | enterPass t b _ =>
      exact ⟨toInt32_balance h.value (by push_cast; omega), F, hF, by simp only; omega⟩
  | pass t b ht _ =>
      refine ⟨h.value, F.erase t, fun u => ?_, ?_⟩
      · by_cases hu : u = t
        · subst hu
          simp
        · simp [hu, hF u]
      · have htF : t ∈ F := (hF t).2 ht
        have := Finset.card_pos.2 ⟨t, htF⟩
        rw [Finset.card_erase_of_mem htF]
        simp only
        omega
  | postLoop t l _ => exact ⟨toInt32_balance h.value (by push_cast; omega), F, hF, hcard⟩
  | postPass t l _ => exact ⟨toInt32_balance h.value (by push_cast; omega), F, hF, hcard⟩
  | postDone t l _ => exact ⟨h.value, F, hF, hcard⟩

/-! ## Mutual exclusion -/

/-- With fewer than `2 ^ 31` calls, no more waits left their loop than the
opening value and the posts allow. -/
def Excludes (v : ℤ) (w : View) : Prop :=
  w.entered + w.posted < 2 ^ 31 → (w.left : ℤ) ≤ v + w.posted

/-- When the value is not negative, every wait that entered has its unit. -/
theorem Balance.entered_le {w : View} (h : Balance v w) (hv : 0 ≤ v) (hlt : v < 2 ^ 31)
    (hops : w.entered + w.posted < 2 ^ 31) (hval : 0 ≤ w.value) :
    (w.entered : ℤ) ≤ v + w.posted := by
  rw [h.value] at hval
  unfold toInt32 at hval
  omega

theorem Balance.left_le {w : View} (h : Balance v w) : w.left ≤ w.entered := by
  obtain ⟨F, -, hcard⟩ := h.waiters
  omega

theorem Excludes.step {w w' : View} {a : SemAct} (hv : 0 ≤ v) (hlt : v < 2 ^ 31)
    (hb : Balance v w) (h : Excludes v w) (hs : ViewStep i w a w') : Excludes v w' := by
  intro hops
  have hb' := hb.step hs
  have hmono : Excludes v w → w.left = w'.left → w.entered ≤ w'.entered →
      w.posted ≤ w'.posted → (w'.left : ℤ) ≤ v + w'.posted := by
    intro hE hl he hp
    have := hE (by omega)
    omega
  cases hs with
  | quiet => exact h hops
  | enterBlock t b _ _ => exact hmono h rfl (by simp) (by simp)
  | enterPass t b hpos =>
      have := hb'.entered_le hv hlt hops hpos
      have := hb'.left_le
      omega
  | pass t b _ hpos =>
      have := hb'.entered_le hv hlt hops hpos
      have := hb'.left_le
      omega
  | postLoop t l _ => exact hmono h rfl (by simp) (by simp)
  | postPass t l _ => exact hmono h rfl (by simp) (by simp)
  | postDone t l _ => exact h hops

/-- For a semaphore opened with `v` and any interleaving of waits and posts, at
most `v` plus the number of posts that incremented the value are the waits that
have left their loop. -/
theorem sem_mutualExclusion (h : Opened y i v) (hr : Exec semStep y as y')
    (hops : y'.entered i + y'.posted i < 2 ^ 31) : (y'.left i : ℤ) ≤ v + y'.posted i := by
  have hinv : InUse y' i ∧ Balance v (view y' i) ∧ Excludes v (view y' i) := by
    refine hr.invariant (I := fun y => InUse y i ∧ Balance v (view y i) ∧ Excludes v (view y i))
      ?_ ?_
    · refine ⟨⟨h.init, h.use⟩, h.balance, fun _ => ?_⟩
      have := h.nonneg
      simp only [view, h.left]
      push_cast
      omega
    · rintro y a y' ⟨hu, hb, hE⟩ hs
      obtain ⟨hvs, hu'⟩ := semStep_view hu hs
      exact ⟨hu', hb.step hvs, hE.step h.nonneg h.lt hb hvs⟩
  exact hinv.2.2 hops

/-- The slot the first open of a name takes. -/
def lastSem : SemId := ⟨9, by decide⟩

theorem zero_not_mem_jz : (0 : UInt8) ∉ [106, 122] := by decide

/-- The system right after `sys_sem_open("jz", v)` on a fresh table. -/
def openedSys (v : ℤ) : SemSys where
  st := ((sysSemOpen (some ⟨[106, 122], zero_not_mem_jz⟩) v .boot).map Prod.snd).getD .boot
  pc := fun _ => .outside
  entered := fun _ => 0
  left := fun _ => 0
  posted := fun _ => 0
  completed := fun _ => 0

theorem openedSys_one : Opened (openedSys 1) lastSem 1 := by
  constructor <;> first | decide | exact fun _ => rfl

/-- Two tasks wait on a semaphore opened with one, and one of them leaves. -/
theorem sem_mutualExclusion_two :
    ∃ y', Exec semStep (openedSys 1) [.wait 1 9 true, .wait 2 9 true] y' ∧
      (y'.left lastSem : ℤ) ≤ 1 + y'.posted lastSem := by
  have hrun : (([.wait 1 9 true, .wait 2 9 true] : List SemAct).foldlM semNext
      (openedSys 1)).map (fun y => decide (y.entered lastSem + y.posted lastSem < 2 ^ 31)) = some true := by
    decide
  obtain ⟨y', hy, hops⟩ := Option.map_eq_some_iff.1 hrun
  have hr := Exec.of_foldlM hy
  exact ⟨y', hr, sem_mutualExclusion openedSys_one hr (by simpa using hops)⟩

/-! ## Lost wake-ups -/

/-- If a unit is unclaimed and a task is in the wait loop, the loop condition is
false for such a task. -/
def NoLostWakeup (v : ℤ) (i : SemId) (y : SemSys) : Prop :=
  (y.left i : ℤ) < v + y.completed i → (∃ t, (y.pc t).waitsOn i = true) →
    ∃ t, (y.pc t).waitsOn i = true ∧ waitBlocked y.st i = false

/-- What `NoLostWakeup` says of the view. -/
def Wakeful (v : ℤ) (w : View) : Prop :=
  (w.left : ℤ) < v + w.completed → (∃ t, w.waiting t = true) → 0 ≤ w.value

theorem noLostWakeup_iff : NoLostWakeup v i y ↔ Wakeful v (view y i) := by
  unfold NoLostWakeup Wakeful waitBlocked
  constructor
  · rintro h hlt hex
    obtain ⟨t, -, hb⟩ := h hlt hex
    simpa [view] using hb
  · rintro h hlt ⟨t, ht⟩
    exact ⟨t, ht, by simpa [view] using h hlt ⟨t, ht⟩⟩

/-- The units of the semaphore that no completed wait has taken: none if the value is
negative, at most the value if not, and then less while a task is in the wait loop. -/
structure Claimed (v : ℤ) (w : View) : Prop where
  neg : w.value < 0 → v + w.completed ≤ w.left
  nonneg : 0 ≤ w.value → v + w.completed ≤ w.left + w.value
  waited : 0 ≤ w.value → (∃ t, w.waiting t = true) → v + w.completed + 2 ^ 31 ≤ w.left + w.value

theorem Opened.claimed (h : Opened y i v) : Claimed v (view y i) := by
  have hn := h.nonneg
  refine ⟨fun hneg => ?_, fun _ => ?_, fun _ ⟨t, ht⟩ => ?_⟩
  · simp only [view, h.value] at hneg
    omega
  · simp only [view, h.value, h.completed, h.left]
    omega
  · simp [view, h.noWait t] at ht

theorem Claimed.wakeful {w : View} (h : Claimed v w) : Wakeful v w := by
  intro hlt _
  by_contra hneg
  have := h.neg (by omega)
  omega

/-- A step with no post in its loop before it and after it. -/
theorem Claimed.step {w w' : View} {a : SemAct} (hb : Balance v w) (h : Claimed v w)
    (hs : ViewStep i w a w') (htest : ∀ t l, a = .postTest t l → w' = w)
    (hpost : ¬∃ t l, a = .post t i l ∧ w'.value ≤ 0) : Claimed v w' := by
  have hlo : -2 ^ 31 ≤ w.value := hb.value ▸ toInt32_lower _
  have hhi : w.value < 2 ^ 31 := hb.value ▸ toInt32_upper _
  obtain ⟨hneg, hnonneg, hwaited⟩ := h
  cases hs with
  | quiet => exact ⟨hneg, hnonneg, hwaited⟩
  | enterBlock t b _ hlt =>
      have hval : w.value ≤ 0 := by
        unfold toInt32 at hlt
        omega
      refine ⟨fun _ => ?_, fun hge => absurd hge (not_le.2 hlt), fun hge => absurd hge (not_le.2 hlt)⟩
      rcases hval.lt_or_eq with hval | hval
      · exact hneg hval
      · have := hnonneg hval.ge
        simp only
        omega
  | enterPass t b hge =>
      have hval : 1 ≤ w.value ∧ toInt32 (w.value - 1) = w.value - 1 ∨
          w.value = -2 ^ 31 ∧ toInt32 (w.value - 1) = 2 ^ 31 - 1 := by
        unfold toInt32 at hge ⊢
        omega
      refine ⟨fun hlt => absurd hge (not_le.2 hlt), fun _ => ?_, fun _ hex => ?_⟩
      · simp only
        push_cast
        omega
      · simp only at hex ⊢
        rcases hval with ⟨hpos, heq⟩ | ⟨hmin, heq⟩
        · have := hwaited (by omega) hex
          push_cast
          omega
        · have := hneg (by omega)
          push_cast
          omega
  | pass t b ht hge =>
      have := hwaited hge ⟨t, ht⟩
      refine ⟨fun hlt => absurd hge (not_le.2 hlt), fun _ => ?_, fun _ _ => ?_⟩ <;>
      · simp only
        push_cast
        omega
  | postLoop t l hle => exact absurd ⟨t, l, rfl, hle⟩ hpost
  | postPass t l hpos =>
      have hval : 0 ≤ w.value ∧ toInt32 (w.value + 1) = w.value + 1 := by
        unfold toInt32 at hpos ⊢
        omega
      refine ⟨fun hlt => absurd hpos (not_lt.2 hlt.le), fun _ => ?_, fun _ hex => ?_⟩
      · have := hnonneg hval.1
        simp only
        push_cast
        omega
      · have := hwaited hval.1 hex
        simp only
        push_cast
        omega
  | postDone t l hpos =>
      have hsame := congrArg View.completed (htest t l rfl)
      exact absurd hsame (Nat.succ_ne_self _)

/-- A post that stays in its loop finds no unit that a waiting task could take. -/
theorem Claimed.postLoop {w w' : View} {t : TaskNr} {l : List TaskNr} (hb : Balance v w)
    (h : Claimed v w) (hs : ViewStep i w (.post t i l) w') (hle : w'.value ≤ 0) : Wakeful v w' := by
  have hhi : w.value < 2 ^ 31 := hb.value ▸ toInt32_upper _
  obtain ⟨hneg, -, hwaited⟩ := h
  cases hs with
  | quiet _ hcalls => exact absurd rfl hcalls
  | postLoop _ _ _ =>
      rintro hlt hex
      by_contra hlow
      simp only at hlt hle hlow
      have hval : w.value < 0 ∨ w.value = 2 ^ 31 - 1 := by
        unfold toInt32 at hle hlow
        omega
      rcases hval with hval | hval
      · have := hneg hval
        omega
      · have := hwaited (by omega) hex
        omega
  | postPass _ _ hpos => exact absurd hle (not_le.2 hpos)

/-! ### The loop of `sys_sem_post` -/

/-- The task that takes the step. -/
def SemAct.task : SemAct → TaskNr
  | .openSem t _ _ => t
  | .wait t _ _ => t
  | .waitTest t _ => t
  | .post t _ _ => t
  | .postTest t _ => t

/-- Interrupts are off in the loop of `sys_sem_post` and `wake_up` does not schedule, so
no other task takes a step while a task is in it. -/
def PostsAlone (y : SemSys) (a : SemAct) : Prop := ∀ t i, y.pc t = .posting i → a.task = t

/-- `wake_up` concerns the wait loops only. -/
theorem wakeUp_posting {pc : TaskNr → SemPc} {woken : List TaskNr} {t : TaskNr} {j : SemId} :
    wakeUp j woken pc t = .posting i ↔ pc t = .posting i := by
  unfold wakeUp
  split
  next h =>
    refine iff_of_false (by simp) fun ht => ?_
    rw [ht] at h
    exact absurd h.1 (by simp [SemPc.waitsOn])
  next => rfl

theorem update_posting {pc : TaskNr → SemPc} {t u : TaskNr} {p : SemPc}
    (hno : ∀ u, pc u ≠ .posting i) (h : Function.update pc t p u = .posting i) : p = .posting i := by
  rw [Function.update_apply] at h
  split at h
  next => exact h
  next => exact absurd h (hno u)

section

variable (y₁ : SemSys) {t : TaskNr} {j : SemId} (hno : ∀ u, y₁.pc u ≠ .posting i)

theorem testPost_value {l : List TaskNr} :
    (view (testPost y₁ t j l) i).value = (y₁.st.ksem i).semV := by
  unfold testPost
  split <;> rfl

include hno

theorem testPost_posting {l : List TaskNr} : (∃ u, (testPost y₁ t j l).pc u = .posting i) ↔
    j = i ∧ (y₁.st.ksem j).semV ≤ 0 := by
  unfold testPost postBlocked
  by_cases hv : (y₁.st.ksem j).semV ≤ 0
  · rw [if_pos (by simpa using hv), and_iff_left hv]
    simp only [wakeUp_posting]
    constructor
    · rintro ⟨u, hu⟩
      cases update_posting hno hu
      rfl
    · rintro rfl
      exact ⟨t, Function.update_self ..⟩
  · rw [if_neg (by simpa using hv)]
    refine iff_of_false ?_ fun h => hv h.2
    rintro ⟨u, hu⟩
    cases update_posting hno hu

theorem testWait_posting {b : Bool} : ¬∃ u, (testWait y₁ t j b).pc u = .posting i := by
  rintro ⟨u, hu⟩
  unfold testWait at hu
  split at hu <;> cases update_posting hno hu

end

/-- A task in the loop takes a step: it finds the value as it was. -/
theorem postTest_stays {a : SemAct} (ht : y.pc a.task = .posting i)
    (hv : (y.st.ksem i).semV ≤ 0) (hs : semStep y a y') :
    y'.pc a.task = .posting i ∧ view y' i = view y i := by
  cases semStep_move hs with
  | opened hout _ => cases hout.symm.trans ht
  | waitReturns hout _ => cases hout.symm.trans ht
  | waitLoops hout _ => cases hout.symm.trans ht
  | waitTests hin => cases hin.symm.trans ht
  | postReturns hout _ => cases hout.symm.trans ht
  | postLoops hout _ => cases hout.symm.trans ht
  | postTests hin =>
      cases hin.symm.trans ht
      refine ⟨?_, ?_⟩
      · unfold testPost postBlocked
        rw [if_pos (by simpa using hv)]
        exact wakeUp_posting.2 (Function.update_self ..)
      · rw [view_testPost (by rw [hin]; rfl), if_neg (by omega)]

section NoPost

variable {a : SemAct} (hno : ∀ t, y.pc t ≠ .posting i) (hs : semStep y a y')

include hno hs

/-- The tests of other post loops are not seen. -/
theorem view_postTest (t : TaskNr) (l : List TaskNr) (ha : a = .postTest t l) :
    view y' i = view y i := by
  subst ha
  cases semStep_move hs with
  | @postTests _ _ j hin =>
      have hij : i ≠ j := by
        rintro rfl
        exact hno t hin
      rw [view_testPost (by rw [hin]; rfl), if_neg fun h => hij h.1]

/-- A task is in the loop after a step only if it has called `sys_sem_post` and the value
is not positive. -/
theorem posting_step (hu : InUse y i) : (∃ t, y'.pc t = .posting i) ↔
    ∃ t l, a = .post t i l ∧ (view y' i).value ≤ 0 := by
  have hsame : ¬∃ t, y.pc t = .posting i := fun ⟨t, ht⟩ => hno t ht
  cases semStep_move hs with
  | opened _ _ => exact iff_of_false hsame (by simp)
  | waitReturns _ _ => exact iff_of_false hsame (by simp)
  | @waitLoops t sem b j s _ _ =>
      exact iff_of_false (testWait_posting { y with st := s, entered := bump y.entered j } hno) (by simp)
  | waitTests _ => exact iff_of_false (testWait_posting y hno) (by simp)
  | postReturns _ he =>
      refine iff_of_false hsame ?_
      rintro ⟨t, l, ⟨⟩, -⟩
      exact (semEnter_returns he).2.2 i hu.2 rfl
  | @postLoops t sem l j s hout he =>
      obtain ⟨rfl, -⟩ := semEnter_loops he
      rw [testPost_posting { y with st := s, posted := bump y.posted j } hno, testPost_value]
      constructor
      · rintro ⟨rfl, hle⟩
        exact ⟨t, l, rfl, hle⟩
      · rintro ⟨t', l', heq, hle⟩
        injection heq with _ hj _
        obtain rfl : j = i := Fin.ext (Int.ofNat.inj hj)
        exact ⟨rfl, hle⟩
  | @postTests t l j hin =>
      refine iff_of_false (fun h => ?_) (by simp)
      obtain ⟨rfl, -⟩ := (testPost_posting y hno).1 h
      exact hno t hin

end NoPost

/-- Without a post in its loop the units are claimed; a post that is in it has found no
unit that a waiting task could take, and it stays. -/
structure Settled (v : ℤ) (i : SemId) (y : SemSys) : Prop where
  inUse : InUse y i
  balance : Balance v (view y i)
  claimed : (∀ t, y.pc t ≠ .posting i) → Claimed v (view y i)
  posting : (∃ t, y.pc t = .posting i) → (view y i).value ≤ 0 ∧ Wakeful v (view y i)

theorem Settled.step {a : SemAct} (h : Settled v i y) (hs : guarded PostsAlone semStep y a y') :
    Settled v i y' := by
  obtain ⟨halone, hs⟩ := hs
  obtain ⟨hview, hu'⟩ := semStep_view h.inUse hs
  have hb' := h.balance.step hview
  by_cases hpost : ∃ t, y.pc t = .posting i
  · obtain ⟨t, ht⟩ := hpost
    obtain ⟨hle, hwake⟩ := h.posting ⟨t, ht⟩
    obtain rfl := halone t i ht
    obtain ⟨ht', hsame⟩ := postTest_stays ht hle hs
    exact ⟨hu', hb', fun hno => absurd ht' (hno _), fun _ => hsame ▸ ⟨hle, hwake⟩⟩
  · have hno : ∀ t, y.pc t ≠ .posting i := fun t ht => hpost ⟨t, ht⟩
    have hclaimed := h.claimed hno
    have hiff := posting_step hno hs h.inUse
    refine ⟨hu', hb', fun hno' => ?_, fun hpost' => ?_⟩
    · exact hclaimed.step h.balance hview (view_postTest hno hs)
        (mt hiff.2 fun ⟨t, ht⟩ => hno' t ht)
    · obtain ⟨t, l, rfl, hle⟩ := hiff.1 hpost'
      exact ⟨hle, hclaimed.postLoop h.balance hview hle⟩

/-- For a semaphore opened with `v` and any interleaving of waits and posts in which the
loop of `sys_sem_post` runs alone, no wake-up is lost. -/
theorem sem_noLostWakeup (h : Opened y i v) (hpost : ∀ t, y.pc t ≠ .posting i)
    (hr : Exec (guarded PostsAlone semStep) y as y') : NoLostWakeup v i y' := by
  have hstart : Settled v i y :=
    ⟨⟨h.init, h.use⟩, h.balance, fun _ => h.claimed, fun ⟨t, ht⟩ => absurd ht (hpost t)⟩
  have hend := hr.invariant hstart Settled.step
  refine noLostWakeup_iff.2 ?_
  by_cases hex : ∃ t, y'.pc t = .posting i
  · exact (hend.posting hex).2
  · exact (hend.claimed fun t ht => hex ⟨t, ht⟩).wakeful

/-- Task 1 waits and leaves, task 2 waits and stays in the loop, and task 3 posts: then the
value is 0, and task 3 goes on in its loop. -/
theorem sem_noLostWakeup_spin : ∃ y',
    Exec (guarded PostsAlone semStep) (openedSys 1)
      [.wait 1 9 true, .wait 2 9 true, .post 3 9 [2], .postTest 3 [2]] y' ∧
    (y'.pc 2).waitsOn lastSem = true ∧ y'.pc 3 = .posting lastSem ∧ NoLostWakeup 1 lastSem y' := by
  have hout : ∀ i t, (openedSys 1).pc t ≠ .posting i := fun i t h => by cases h
  have hout₁ : ∀ i t, Function.update (openedSys 1).pc 1 .outside t ≠ .posting i :=
    fun i t h => by cases update_posting (hout i) h
  have hout₂ : ∀ i t, Function.update (Function.update (openedSys 1).pc 1 .outside) 2
      (.waiting lastSem true) t ≠ .posting i :=
    fun i t h => by cases update_posting (hout₁ i) h
  have hpost (i : SemId) (t : TaskNr) (h : Function.update (Function.update (Function.update
      (openedSys 1).pc 1 .outside) 2 (.waiting lastSem true)) 3 (.posting lastSem) t =
        .posting i) : 3 = t := by
    by_contra hne
    rw [Function.update_of_ne (Ne.symm hne)] at h
    exact hout₂ i t h
  have hr : Exec (guarded PostsAlone semStep) (openedSys 1)
      [.wait 1 9 true, .wait 2 9 true, .post 3 9 [2], .postTest 3 [2]] _ :=
    .cons ⟨fun t i h => absurd h (hout i t), rfl⟩ (.cons ⟨fun t i h => absurd h (hout₁ i t), rfl⟩
      (.cons ⟨fun t i h => absurd h (hout₂ i t), rfl⟩
        (.cons ⟨fun t i h => hpost i t (wakeUp_posting.1 h), rfl⟩ .refl)))
  exact ⟨_, hr, by decide, by decide, sem_noLostWakeup openedSys_one (hout lastSem) hr⟩

end MyJavaExample.Kernel
