import Mathlib.Algebra.BigOperators.Fin
import Mathlib.Algebra.Order.BigOperators.Group.Finset
import MyJavaExample.Blk.RequestSteps
import MyJavaExample.Lib.Rank

/-!
# Every call comes to its end

When no new calls are made, the drivers and the tasks that go on can take only so
many steps that change something, in whatever order; and as long as a task sleeps
or a request is pending, there is such a step.
-/

namespace MyJavaExample.Blk

open Lib

section

variable {σ : Type} {n : ℕ} {s s' : Devices σ n} {queue : ℕ → List ℕ} {req : ℕ}
variable {t : Fin NR_TASKS} {c : Call n}

/-- A sleeping task goes on, or a driver does its work. -/
def DevAction.Drains : DevAction σ n → Prop
  | .resume _ | .transfer _ | .complete _ true => True
  | _ => False

/-- How many steps a task still has before it, with those of its request. -/
def TaskState.rank : TaskState n → ℕ
  | .running => 0
  | .locking _ => 5
  | .locked _ => 4

def Slot.rank (r : Slot n) : ℕ := if 0 ≤ r.dev then 1 + r.nrSectors else 0

namespace Devices

def rank (s : Devices σ n) : ℕ :=
  ∑ t, (s.task t).rank + ∑ req ∈ Finset.range NR_REQUEST, (s.request req).rank

/-- No task sleeps, no request is pending and no buffer is locked. -/
structure Quiet (s : Devices σ n) : Prop where
  task : ∀ t, s.task t = .running
  request : ∀ req, (s.request req).dev < 0
  lock : ∀ b, (s.buffer b).lock = false

/-! ## The rank goes down -/

theorem rank_setTask (s : Devices σ n) (t : Fin NR_TASKS) (p : TaskState n) :
    (s.setTask t p).rank + (s.task t).rank = s.rank + p.rank := by
  have hsum := sum_update Finset.univ s.task TaskState.rank (Finset.mem_univ t) p
  simp only [rank, setTask_task, setTask_request]
  omega

theorem rank_setRequest (s : Devices σ n) (hreq : req < NR_REQUEST) (r : Slot n) :
    (s.setRequest req r).rank + (s.request req).rank = s.rank + r.rank := by
  have hsum := sum_update (Finset.range NR_REQUEST) s.request Slot.rank (Finset.mem_range.2 hreq) r
  simp only [rank, setRequest_task, setRequest_request]
  omega

theorem rank_congr (htask : s'.task = s.task) (hrequest : s'.request = s.request) :
    s'.rank = s.rank := by
  rw [rank, rank, htask, hrequest]

theorem rank_modify (s : Devices σ n) (b : Fin n) (f : BufferHead → BufferHead) :
    (s.modify b f).rank = s.rank := rank_congr rfl rfl

theorem rank_unlockBuffer (s : Devices σ n) (p : Printk) (b : Fin n) :
    (s.unlockBuffer p b).rank = s.rank := by
  refine rank_congr ?_ ?_ <;>
  · unfold unlockBuffer
    split
    next => rfl
    next => rfl

theorem Inv.rank_le (h : s.Inv queue) : s.rank ≤ 416 := by
  have htasks : ∑ t, (s.task t).rank ≤ ∑ _t : Fin NR_TASKS, 5 :=
    Finset.sum_le_sum fun t _ => by cases s.task t <;> simp [TaskState.rank]
  have hslots : ∑ req ∈ Finset.range NR_REQUEST, (s.request req).rank ≤
      ∑ _req ∈ Finset.range NR_REQUEST, 3 := by
    refine Finset.sum_le_sum fun req _ => ?_
    unfold Slot.rank
    split
    next hdev =>
      obtain ⟨m, hm⟩ := h.queued req hdev
      obtain ⟨b, hb⟩ := (h.pending m req hm).serves
      have := hb.le
      omega
    next => omega
  rw [Finset.sum_const, Finset.card_univ, Fintype.card_fin, smul_eq_mul,
    show NR_TASKS * 5 = 320 from rfl] at htasks
  rw [Finset.sum_const, Finset.card_range, smul_eq_mul, show NR_REQUEST * 3 = 96 from rfl] at hslots
  unfold rank
  omega

theorem Inv.repeatRequest_rank (h : s.Inv queue) (ht : s.task t = .locked c)
    (hstep : s.repeatRequest t c = .ok s') : s' = s ∨ s'.rank < s.rank := by
  have hrank : (s.task t).rank = 4 := by rw [ht, TaskState.rank]
  unfold Devices.repeatRequest at hstep
  split at hstep
  next =>
    split at hstep
    next =>
      cases hstep
      have hset := rank_setTask (s.unlockBuffer .notLocked c.bh) t .running
      have htask : (s.unlockBuffer .notLocked c.bh).task t = .locked c := by
        rw [unlockBuffer_of_lock _ (h.task_locked ht), modify_task, ht]
      rw [rank_unlockBuffer, htask] at hset
      simp only [TaskState.rank] at hset
      right
      omega
    next =>
      cases hstep
      exact .inl rfl
  next req hfind =>
    obtain ⟨hlt, hfree⟩ := findRequest_eq_some hfind
    obtain ⟨next, current, l, heq, -, hinv⟩ := h.addRequest ht hfree hlt
    rw [heq] at hstep
    cases hstep
    have hreq : req < NR_REQUEST := by
      refine lt_of_lt_of_le hlt ?_
      split
      next => exact le_refl _
      next => decide
    have hset := rank_setTask (s.setRequest req (newRequest c (s.buffer c.bh))) t .running
    have hslot := rank_setRequest s hreq (newRequest c (s.buffer c.bh))
    rw [setRequest_task, ht] at hset
    have hold : (s.request req).rank = 0 := if_neg (not_le.2 hfree)
    have hnew : (newRequest c (s.buffer c.bh)).rank = 3 := if_pos (Int.natCast_nonneg _)
    simp only [TaskState.rank] at hset
    right
    refine lt_of_eq_of_lt (rank_congr
      (s := (s.setRequest req (newRequest c (s.buffer c.bh))).setTask t .running) rfl rfl) ?_
    omega

theorem Inv.lockBuffer_rank (h : s.Inv queue) (ht : s.task t = .locking c)
    (hstep : s.lockBuffer t c = .ok s') : s' = s ∨ s'.rank < s.rank := by
  have hsound := h.locking t c ht
  have hbefore : ∀ c, s.task t ≠ .locked c := by
    intro c hno
    cases ht.symm.trans hno
  rw [lockBuffer_eq] at hstep
  split at hstep
  next =>
    cases hstep
    left
    unfold Devices.setTask
    rw [← ht, Function.update_eq_self]
  next hlock =>
    rw [Bool.not_eq_true] at hlock
    right
    split at hstep
    next =>
      cases hstep
      have hset := rank_setTask s t .running
      rw [ht] at hset
      simp only [TaskState.rank] at hset
      omega
    next hidle =>
      have hinv := h.lockedBy hbefore hsound hlock fun hread => by
        rw [← Bool.not_eq_true]
        exact fun hup => hidle (.inr ⟨hread, hup⟩)
      have hset := rank_setTask (s.modify c.bh fun h => { h with lock := true }) t (.locked c)
      rw [modify_task, ht, rank_modify] at hset
      simp only [TaskState.rank] at hset
      have hlocked : (s.lockedBy t c).rank + 5 = s.rank + 4 := hset
      rcases hinv.repeatRequest_rank (Function.update_self ..) hstep with rfl | hlt
      · omega
      · omega

theorem Inv.drains_rank (h : s.Inv queue) {a : DevAction σ n} (ha : a.Drains)
    (hstep : s.step a = .ok s') : s' = s ∨ s'.rank < s.rank := by
  cases a with
  | resume t =>
      unfold Devices.step at hstep
      dsimp only at hstep
      split at hstep
      next =>
        cases hstep
        exact .inl rfl
      next c ht => exact h.lockBuffer_rank ht hstep
      next c ht => exact h.repeatRequest_rank ht hstep
  | transfer major =>
      unfold Devices.step Devices.transfer at hstep
      dsimp only at hstep
      cases hstep
      cases hcur : (s.blkDev major).current with
      | none => exact .inl rfl
      | some cur =>
          dsimp only
          split
          next => exact .inl rfl
          next hnr =>
            right
            obtain ⟨l, hl, -⟩ := h.current hcur
            have hp := h.pending major cur (by
              rw [hl]
              exact List.mem_cons_self)
            have hslot := rank_setRequest s hp.lt (s.request cur).moved
            have hless : (s.request cur).moved.rank < (s.request cur).rank := by
              unfold Slot.rank Slot.moved
              rw [if_pos hp.nonneg, if_pos hp.nonneg]
              dsimp only
              omega
            split
            next =>
              refine lt_of_eq_of_lt (rank_congr (s := s.setRequest cur _) rfl rfl) ?_
              omega
            next =>
              refine lt_of_eq_of_lt (rank_congr (s := s.setRequest cur _) rfl rfl) ?_
              omega
  | complete major uptodate =>
      unfold Devices.step complete at hstep
      dsimp only at hstep
      split at hstep
      next =>
        cases hstep
        exact .inl rfl
      next cur hcur =>
        split at hstep
        next =>
          cases hstep
          exact .inl rfl
        next =>
          right
          obtain ⟨l, hl, -⟩ := h.current hcur
          have hmem : cur ∈ queue major := by
            rw [hl]
            exact List.mem_cons_self
          have hp := h.pending major cur hmem
          obtain ⟨b, hb⟩ := hp.serves
          rw [(h.endRequest hl hcur uptodate).initRequest major] at hstep
          cases hstep
          obtain ⟨printed, heq, -⟩ := h.endRequest_eq hmem hb uptodate
          have hslot := rank_setRequest s hp.lt { s.request cur with dev := -1 }
          have hnonneg := hp.nonneg
          simp only [Slot.rank, hnonneg, if_true, negOne_lt, if_false] at hslot
          rw [heq]
          refine lt_of_eq_of_lt (rank_congr (s := s.setRequest cur _) rfl rfl) ?_
          dsimp only
          omega
  | llRwBlock _ _ _ | reuse _ _ _ | store _ _ _ | fill _ _ | forget _ => cases ha

/-! ## There is a step -/

theorem findRequest_isSome {request : ℕ → Slot n} {k : ℕ} (hk : 0 < k)
    (hfree : ∀ req, (request req).dev < 0) : ∃ req, findRequest request k = some req := by
  cases k with
  | zero => cases hk
  | succ k => exact ⟨k, by rw [findRequest, if_pos (hfree k)]⟩

/-- The step changes something. -/
def Effective (s : Devices σ n) (a : DevAction σ n) (s' : Devices σ n) : Prop :=
  a.Drains ∧ s.step a = .ok s' ∧ s' ≠ s

theorem Inv.effective (h : s.Inv queue) {a : DevAction σ n} (ha : a.Drains)
    (hchange : ∀ s', s.step a = .ok s' → s' ≠ s) : ∃ a s', s.Effective a s' := by
  rcases h.step a with ⟨s', -, hstep, -⟩ | ⟨-, hno⟩
  · exact ⟨a, s', ha, hstep, hchange s' hstep⟩
  · cases a with
    | llRwBlock _ _ _ => cases ha
    | _ => exact absurd trivial hno

/-- The driver of a device with requests has something to do. -/
theorem Inv.driver (h : s.Inv queue) {major : ℕ} (hreq : req ∈ queue major) :
    ∃ a s', s.Effective a s' := by
  have hseg := h.seg major
  cases hq : queue major with
  | nil =>
      rw [hq] at hreq
      cases hreq
  | cons cur l =>
      rw [hq] at hseg
      have hcur : (s.blkDev major).current = some cur := hseg.1
      have hmem : cur ∈ queue major := by
        rw [hq]
        exact List.mem_cons_self
      have hp := h.pending major cur hmem
      obtain ⟨b, hb⟩ := hp.serves
      by_cases hnr : (s.request cur).nrSectors = 0
      · refine h.effective (a := .complete major true) trivial fun s' hstep => ?_
        have hcomplete : s.step (.complete major true) = .ok (s.endRequest major cur true) := by
          simp only [Devices.step, complete, hcur, hnr, ne_eq, not_true, and_false, if_false]
          exact (h.endRequest hq hcur true).initRequest major
        cases hstep.symm.trans hcomplete
        obtain ⟨printed, heq, -⟩ := h.endRequest_eq hmem hb true
        rw [heq]
        intro hsame
        have hdev := congrArg (fun s => (s.request cur).dev) hsame
        simp only [Function.update_self] at hdev
        have := hp.nonneg
        omega
      · refine h.effective (a := .transfer major) trivial fun s' hstep hsame => ?_
        cases hstep
        have hsectors := congrArg (fun s => (s.request cur).nrSectors) hsame
        unfold Devices.transfer at hsectors
        simp only [hcur, hnr, if_false] at hsectors
        split at hsectors
        next =>
          simp only [setCore_request, setRequest_request, Function.update_self, Slot.moved] at hsectors
          omega
        next =>
          simp only [setDisk_request, setRequest_request, Function.update_self, Slot.moved] at hsectors
          omega

/-- With the array empty, a task that has a lock adds its request. -/
theorem Inv.repeatRequest_running (h : s.Inv queue) (hfree : ∀ req, (s.request req).dev < 0)
    (ht : s.task t = .locked c) (hstep : s.repeatRequest t c = .ok s') : s'.task t = .running := by
  obtain ⟨req, hfind⟩ := @findRequest_isSome n s.request
    (if c.rw = READ then NR_REQUEST else NR_REQUEST * 2 / 3) (by split <;> decide) hfree
  obtain ⟨hlt, hdev⟩ := findRequest_eq_some hfind
  obtain ⟨next, current, l, heq, -, -⟩ := h.addRequest ht hdev hlt
  unfold Devices.repeatRequest at hstep
  rw [hfind] at hstep
  dsimp only at hstep
  rw [heq] at hstep
  cases hstep
  exact Function.update_self ..

theorem Inv.progress (h : s.Inv queue) : s.Quiet ∨ ∃ a s', s.Effective a s' := by
  by_cases hpending : ∃ req, 0 ≤ (s.request req).dev
  · obtain ⟨req, hdev⟩ := hpending
    obtain ⟨m, hm⟩ := h.queued req hdev
    exact .inr (h.driver hm)
  have hfree : ∀ req, (s.request req).dev < 0 :=
    fun req => not_le.1 fun hdev => hpending ⟨req, hdev⟩
  by_cases hlocked : ∃ t c, s.task t = .locked c
  · obtain ⟨t, c, ht⟩ := hlocked
    refine .inr (h.effective (a := .resume t) trivial fun s' hstep hsame => ?_)
    unfold Devices.step at hstep
    simp only [ht] at hstep
    have hrun := h.repeatRequest_running hfree ht hstep
    rw [hsame, ht] at hrun
    cases hrun
  have hlock : ∀ b, (s.buffer b).lock = false := by
    intro b
    rw [← Bool.not_eq_true]
    intro hb
    obtain ⟨o, ho⟩ := (h.owned.lock_iff b).1 hb
    cases o with
    | slot req => exact hpending ⟨req, ho.1⟩
    | task t =>
        obtain ⟨c, hc, -⟩ := ho
        exact hlocked ⟨t, c, hc⟩
  by_cases hlocking : ∃ t c, s.task t = .locking c
  · obtain ⟨t, c, ht⟩ := hlocking
    refine .inr (h.effective (a := .resume t) trivial fun s' hstep hsame => ?_)
    have hrun : s'.task t = .running := by
      unfold Devices.step at hstep
      simp only [ht, lockBuffer_eq, hlock, Bool.false_eq_true, if_false] at hstep
      split at hstep
      next =>
        cases hstep
        exact Function.update_self ..
      next hidle =>
        have hinv := h.lockedBy (fun c' hno => hlocked ⟨t, c', hno⟩) (h.locking t c ht)
          (hlock c.bh) fun hread => by
            rw [← Bool.not_eq_true]
            exact fun hup => hidle (.inr ⟨hread, hup⟩)
        exact hinv.repeatRequest_running hfree (Function.update_self ..) hstep
    rw [hsame, ht] at hrun
    cases hrun
  refine .inl ⟨fun t => ?_, hfree, hlock⟩
  cases ht : s.task t with
  | running => rfl
  | locking c => exact absurd ⟨t, c, ht⟩ hlocking
  | locked c => exact absurd ⟨t, c, ht⟩ hlocked

/-- From any state of a run, the steps of the drivers and of the tasks that go on
come to an end, and not before every call has returned and every request is
completed. -/
theorem requests_drain {requestFn : ℕ → Bool} {core : ℕ → σ} {disk : ℤ → ℕ → σ}
    {as bs : List (DevAction σ n)} (hrun : run as (boot requestFn core disk) = .ok s)
    (hexec : Exec Effective s bs s') :
    bs.length ≤ 416 ∧ (s'.Quiet ∨ ∃ a s'', s'.Effective a s'') := by
  obtain ⟨queue, hinv⟩ : ∃ queue, s.Inv queue := by
    rcases (inv_boot requestFn core disk).run as with ⟨s₁, queue, hok, hinv⟩ | ⟨herr, -⟩
    · cases hrun.symm.trans hok
      exact ⟨queue, hinv⟩
    · cases hrun.symm.trans herr
  have hstep : ∀ {s a s'}, (∃ queue, s.Inv queue) → Effective (σ := σ) (n := n) s a s' →
      ∃ queue, s'.Inv queue := by
    rintro s a s' ⟨queue, h⟩ ⟨-, hs, -⟩
    rcases h.step a with ⟨s₁, queue₁, hok, h₁⟩ | ⟨herr, -⟩
    · cases hs.symm.trans hok
      exact ⟨queue₁, h₁⟩
    · cases hs.symm.trans herr
  constructor
  · have hle := hexec.length_le_rank (r := rank) ⟨queue, hinv⟩ hstep ?_
    · have := hinv.rank_le
      omega
    · rintro s a s' ⟨queue, h⟩ ⟨ha, hs, hne⟩
      exact (h.drains_rank ha hs).resolve_left hne
  · obtain ⟨queue', hinv'⟩ := hexec.invariant ⟨queue, hinv⟩ hstep
    exact hinv'.progress

/-- A read is queued for the disk, and a sector of it is moved. -/
theorem requests_drain_read :
    ∃ s : Devices ℕ 1,
      run [.reuse 0 0x301 7, .llRwBlock 0 READ 0] (boot (· = 3) id fun _ => id) = .ok s ∧
        Exec Effective s [.transfer 3] (s.transfer 3) ∧
          [DevAction.transfer (σ := ℕ) (n := 1) 3].length ≤ 416 ∧
            ((s.transfer 3).Quiet ∨ ∃ a s'', (s.transfer 3).Effective a s'') := by
  rcases (inv_boot (· = 3) id fun _ => id).run
      [.reuse (0 : Fin 1) 0x301 7, .llRwBlock 0 READ 0] with ⟨s, -, hrun, -⟩ | ⟨herr, -⟩
  · have hmoved : (run [.reuse (0 : Fin 1) 0x301 7, .llRwBlock 0 READ 0]
          (boot (· = 3) id fun _ => id)).map
        (fun s => (((s.transfer 3).request 31).nrSectors, (s.request 31).nrSectors)) =
          .ok (1, 2) := rfl
    rw [hrun, Except.map] at hmoved
    have hexec : Exec Effective s [.transfer 3] (s.transfer 3) := by
      refine .cons ⟨trivial, rfl, fun hsame => ?_⟩ .refl
      rw [hsame] at hmoved
      injection hmoved with hmoved
      injection hmoved with h₁ h₂
      omega
    exact ⟨s, hrun, hexec, requests_drain hrun hexec⟩
  · cases herr

end Devices

end

end MyJavaExample.Blk
