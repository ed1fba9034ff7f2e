import MyJavaExample.Blk.RequestOwners

/-!
# The requests over any run

A request is added by the task that has the lock of its buffer, which the request
then has; a driver moves its sectors; `end_request` takes it out of its list and
unlocks the buffer.  Every action of a run keeps the invariant, and a run can
only panic over the command of a call.
-/

namespace MyJavaExample.Blk

open Lib

section

variable {σ : Type} {n : ℕ} {s s' : Devices σ n} {queue : ℕ → List ℕ} {major req cur : ℕ}
variable {b : Fin n} {t : Fin NR_TASKS} {c : Call n} {r : Slot n}

namespace Devices

/-! ## The drivers -/

theorem Inv.setRequest (h : s.Inv queue) (hmem : cur ∈ queue major)
    (hr : ∀ b, (s.request cur).Serves b (s.buffer b) → r.Serves b (s.buffer b))
    (hcmd : r.cmd = (s.request cur).cmd)
    (hrequest : s'.request = Function.update s.request cur r) (hnext : s'.next = s.next)
    (hblk : s'.blkDev = s.blkDev) (hbuffer : s'.buffer = s.buffer) (htask : s'.task = s.task)
    (hprinted : s'.printed = s.printed) : s'.Inv queue := by
  have hp := h.pending major cur hmem
  obtain ⟨b₀, hb₀⟩ := hp.serves
  have hdev : r.dev = (s.request cur).dev := by rw [(hr b₀ hb₀).dev, hb₀.dev]
  have hbh : r.bh = (s.request cur).bh := by rw [(hr b₀ hb₀).bh, hb₀.bh]
  refine ⟨?_, fun m req hreq => ?_, fun req hreq => ?_, ?_, ?_, ?_, ?_, ?_, ?_⟩
  · rw [hnext, hblk]
    exact h.seg
  · rw [hrequest, hbuffer]
    by_cases heq : req = cur
    · subst heq
      rw [Function.update_self]
      obtain rfl := h.major_eq hmem hreq
      exact ⟨by rw [hdev, hp.major], by rw [hcmd]; exact hp.cmd, b₀, hr b₀ hb₀⟩
    · rw [Function.update_of_ne heq]
      exact h.pending m req hreq
  · rw [hrequest] at hreq
    by_cases heq : req = cur
    · subst heq
      exact ⟨major, hmem⟩
    · rw [Function.update_of_ne heq] at hreq
      exact h.queued req hreq
  · rw [hrequest, htask, hbuffer]
    refine h.owned.congr (fun o b => ?_) fun _ => rfl
    cases o with
    | task t => exact .rfl
    | slot req =>
        by_cases heq : req = cur
        · subst heq
          simp only [Owns, Function.update_self, hdev, hbh]
        · simp only [Owns, Function.update_of_ne heq]
  · rw [htask, hbuffer]
    exact h.locking
  · rw [htask, hbuffer]
    exact h.locked
  · rw [hbuffer]
    exact h.device
  · rw [hbuffer]
    exact h.unique
  · rw [hprinted]
    exact h.silent

theorem Inv.transfer (h : s.Inv queue) (major : ℕ) : (s.transfer major).Inv queue := by
  unfold Devices.transfer
  cases hcur : (s.blkDev major).current with
  | none => exact h
  | some cur =>
      obtain ⟨l, hl, -⟩ := h.current hcur
      have hmem : cur ∈ queue major := by
        rw [hl]
        exact List.mem_cons_self
      dsimp only
      split
      next => exact h
      next hnr =>
        have hserves : ∀ b, (s.request cur).Serves b (s.buffer b) →
            (s.request cur).moved.Serves b (s.buffer b) := by
          intro b hb
          have hle := hb.le
          have hsector := hb.sector
          have hbuffer := hb.buffer
          unfold Slot.moved
          exact ⟨hb.bh, hb.dev, by dsimp only; omega, by dsimp only; omega, by dsimp only; omega,
            hb.read⟩
        split
        next => exact h.setRequest hmem hserves rfl rfl rfl rfl rfl rfl rfl
        next => exact h.setRequest hmem hserves rfl rfl rfl rfl rfl rfl rfl

/-! ## `end_request` -/

/-- `end_request`, where the current request is for the buffer. -/
theorem Inv.endRequest_eq (h : s.Inv queue) (hmem : cur ∈ queue major)
    (hb : (s.request cur).Serves b (s.buffer b)) (uptodate : Bool) :
    ∃ printed, s.endRequest major cur uptodate =
        { s with
          request := Function.update s.request cur { s.request cur with dev := -1 }
          blkDev := Function.update s.blkDev major
            { s.blkDev major with current := s.next cur }
          buffer := Function.update s.buffer b
            { s.buffer b with uptodate := uptodate, lock := false }
          printed := printed } ∧
      ∀ p ∈ printed, p ∈ s.printed ∨ ∃ name dev block, p = .ioError name dev block := by
  have hlock := h.slot_locked hmem hb
  unfold Devices.endRequest
  dsimp only
  rw [hb.bh]
  dsimp only
  rw [unlockBuffer_of_lock]
  · have hmodify : (s.modify b fun h => { h with uptodate := uptodate }).modify b
          (fun h => { h with lock := false }) =
        s.modify b fun h => { h with uptodate := uptodate, lock := false } := by
      unfold Devices.modify
      simp only [Function.update_self, Function.update_idem]
    rw [hmodify]
    split
    next => exact ⟨s.printed, rfl, fun p hp => .inl hp⟩
    next =>
      refine ⟨_, rfl, fun p hp => ?_⟩
      rcases List.mem_append.1 hp with hp | hp
      · exact .inl hp
      · rw [List.mem_singleton.1 hp]
        exact .inr ⟨_, _, _, rfl⟩
  · rw [modify_buffer, Function.update_self]
    exact hlock

theorem Inv.endRequest (h : s.Inv queue) {l : List ℕ} (hl : queue major = cur :: l)
    (hcur : (s.blkDev major).current = some cur) (uptodate : Bool) :
    (s.endRequest major cur uptodate).Inv (Function.update queue major l) := by
  have hmem : cur ∈ queue major := by
    rw [hl]
    exact List.mem_cons_self
  have hnot : cur ∉ l := by
    have hnd := h.nodup major
    rw [hl] at hnd
    exact (List.nodup_cons.1 hnd).1
  have hsub : ∀ m, ∀ req ∈ Function.update queue major l m, req ∈ queue m ∧ req ≠ cur := by
    intro m req hreq
    by_cases hm : m = major
    · subst hm
      rw [Function.update_self] at hreq
      rw [hl]
      exact ⟨List.mem_cons_of_mem _ hreq, ne_of_mem_of_not_mem hreq hnot⟩
    · rw [Function.update_of_ne hm] at hreq
      refine ⟨hreq, ?_⟩
      rintro rfl
      exact hm (h.major_eq hreq hmem)
  have hp := h.pending major cur hmem
  obtain ⟨b, hb⟩ := hp.serves
  have howns := h.slot_owns hmem hb
  obtain ⟨printed, heq, hprinted⟩ := h.endRequest_eq hmem hb uptodate
  rw [heq]
  have hother : ∀ b' ≠ b, Function.update s.buffer b
      { s.buffer b with uptodate := uptodate, lock := false } b' = s.buffer b' :=
    fun b' hb' => Function.update_of_ne hb' ..
  have hkept : ∀ b', (Function.update s.buffer b
        { s.buffer b with uptodate := uptodate, lock := false } b').dev = (s.buffer b').dev ∧
      (Function.update s.buffer b
        { s.buffer b with uptodate := uptodate, lock := false } b').blocknr =
          (s.buffer b').blocknr := by
    intro b'
    by_cases hb' : b' = b
    · subst hb'
      rw [Function.update_self]
      exact ⟨rfl, rfl⟩
    · rw [hother b' hb']
      exact ⟨rfl, rfl⟩
  refine ⟨fun m => ?_, fun m req hreq => ?_, fun req hreq => ?_, ?_, fun t c ht => ?_,
    fun t c ht => ?_, fun b' => ?_, fun b₁ b₂ => ?_, fun p hp => ?_⟩
  · by_cases hm : m = major
    · subst hm
      simp only [Function.update_self]
      have hseg := h.seg m
      rw [hl] at hseg
      exact hseg.2
    · simp only [Function.update_of_ne hm]
      exact h.seg m
  · obtain ⟨hreq, hne⟩ := hsub m req hreq
    have hp' := h.pending m req hreq
    obtain ⟨b', hb'⟩ := hp'.serves
    dsimp only
    rw [Function.update_of_ne hne]
    refine ⟨hp'.major, hp'.cmd, b', ?_⟩
    rw [hother b']
    · exact hb'
    · rintro rfl
      have hno := h.owned.unique _ _ _ (h.slot_owns hreq hb') howns
      cases hno
      exact hne rfl
  · dsimp only at hreq
    by_cases hne : req = cur
    · subst hne
      rw [Function.update_self] at hreq
      dsimp only at hreq
      omega
    · rw [Function.update_of_ne hne] at hreq
      obtain ⟨m, hm⟩ := h.queued req hreq
      refine ⟨m, ?_⟩
      by_cases hmm : m = major
      · subst hmm
        rw [Function.update_self]
        rw [hl] at hm
        exact (List.mem_cons.1 hm).resolve_left hne
      · rw [Function.update_of_ne hmm]
        exact hm
  · refine h.owned.release howns (fun o b' => ?_) ?_ ?_ fun b' hb' => ?_
    · cases o with
      | task t => simp [Owns]
      | slot req =>
          by_cases heq : req = cur
          · subst heq
            simp [Owns]
          · simp [Owns, heq]
    · rintro b' ⟨-, hb'⟩
      rw [hb.bh] at hb'
      exact (Option.some.inj hb').symm
    · dsimp only
      rw [Function.update_self]
    · dsimp only
      rw [hother b' hb']
  · obtain ⟨hcmd, hmajor⟩ := h.locking t c ht
    exact ⟨hcmd, by rw [(hkept c.bh).1, hmajor]⟩
  · obtain ⟨⟨hcmd, hmajor⟩, hup⟩ := h.locked t c ht
    refine ⟨⟨hcmd, by rw [(hkept c.bh).1, hmajor]⟩, fun hr => ?_⟩
    dsimp only
    rw [hother c.bh]
    · exact hup hr
    · intro hcb
      have hno := h.owned.unique b _ _ howns (hcb ▸ task_owns (s := s) ht)
      cases hno
  · rw [(hkept b').1, (hkept b').2]
    exact h.device b'
  · simp only [hkept]
    exact h.unique b₁ b₂
  · rcases hprinted p hp with hp | ⟨name, dev, block, rfl⟩
    · exact h.silent p hp
    · exact ⟨by simp, by simp⟩

/-! ## `add_request` -/

/-- `add_request` puts the request into the list of the device. -/
theorem addRequest_eq (hseg : ∀ m, Seg s.next (s.blkDev m).current (queue m) none)
    (hnot : ∀ m, req ∉ queue m) (hdisjoint : ∀ m ≠ major, ∀ x ∈ queue m, x ∉ queue major)
    (hlength : (queue major).length ≤ NR_REQUEST) (hb : (s.request req).bh = some b)
    (hmajor : MAJOR (s.request req).dev = major) (hlock : (s.buffer b).lock = true) :
    ∃ next current l, s.addRequest major req =
        .ok { s.modify b (fun h => { h with dirt := false }) with
          next := next
          blkDev := Function.update s.blkDev major { s.blkDev major with current := current } } ∧
      l.Perm (req :: queue major) ∧ Seg next current l none ∧
      ∀ m ≠ major, Seg next (s.blkDev m).current (queue m) none := by
  have hseg₀ : ∀ m, Seg (Function.update s.next req none) (s.blkDev m).current (queue m) none :=
    fun m => (hseg m).update (hnot m) none
  unfold addRequest
  dsimp only
  rw [hb]
  dsimp only [Devices.modify]
  cases hcur : (s.blkDev major).current with
  | none =>
      have hnil : queue major = [] := by
        have hseg := hseg major
        rw [hcur] at hseg
        cases hq : queue major with
        | nil => rfl
        | cons x l =>
            rw [hq] at hseg
            cases hseg.1
      refine ⟨Function.update s.next req none, some req, [req], ?_, ?_, ?_, fun m _ => hseg₀ m⟩
      · simp only [Devices.initRequest, Devices.setCurrent, Function.update_self, hmajor, hb, hlock,
          ne_eq, not_true, if_true, if_false]
      · rw [hnil]
      · exact ⟨rfl, Function.update_self ..⟩
  | some tmp =>
      have hseg₁ := hseg₀ major
      rw [hcur] at hseg₁
      cases hq : queue major with
      | nil =>
          rw [hq] at hseg₁
          cases hseg₁
      | cons x l =>
          rw [hq] at hseg₁ hlength
          obtain ⟨hx, htail⟩ := hseg₁
          cases hx
          have hnd : (tmp :: l).Nodup := by
            rw [← hq]
            exact (hseg major).nodup
          have hreq : req ∉ tmp :: l := by
            rw [← hq]
            exact hnot major
          obtain ⟨hplaced, hout⟩ := @Queue.place_spec (Function.update s.next req none) req tmp l
            (fun i => (s.request i).toRequest) NR_REQUEST htail hreq hnd
            (Nat.le_of_succ_le hlength)
          refine ⟨_, some tmp, _, ?_, perm_insertSweep req tmp l, hplaced, fun m hm => ?_⟩
          · rw [show ({ s.blkDev major with current := some tmp } : BlkDev) = s.blkDev major by
              rw [← hcur], Function.update_eq_self]
          · refine (hseg₀ m).congr fun y hy => hout y ?_ ?_
            · rw [← hq]
              exact hdisjoint m hm y hy
            · exact ne_of_mem_of_not_mem hy (hnot m)

/-- The request that a call fills. -/
theorem serves_newRequest (h : s.Inv queue) (ht : s.task t = .locked c) :
    (newRequest c (s.buffer c.bh)).Serves c.bh (s.buffer c.bh) where
  bh := rfl
  dev := rfl
  le := le_refl 2
  sector := by
    have hblock := (h.device c.bh).2
    unfold newRequest
    dsimp only
    rw [Nat.mod_eq_of_lt (by omega), Nat.mul_comm]
  buffer := rfl
  read hcmd := (h.locked t c ht).2 hcmd

/-- The task adds its request, which then has the lock. -/
theorem Inv.addRequest (h : s.Inv queue) (ht : s.task t = .locked c)
    (hfree : (s.request req).dev < 0)
    (hlt : req < if c.rw = READ then NR_REQUEST else NR_REQUEST * 2 / 3) :
    ∃ next current l,
      ((s.setRequest req (newRequest c (s.buffer c.bh))).setTask t .running).addRequest c.major req =
        .ok { s with
          request := Function.update s.request req (newRequest c (s.buffer c.bh))
          task := Function.update s.task t .running
          buffer := Function.update s.buffer c.bh { s.buffer c.bh with dirt := false }
          next := next
          blkDev := Function.update s.blkDev c.major
            { s.blkDev c.major with current := current } } ∧
      l.Perm (req :: queue c.major) ∧
      Inv { s with
          request := Function.update s.request req (newRequest c (s.buffer c.bh))
          task := Function.update s.task t .running
          buffer := Function.update s.buffer c.bh { s.buffer c.bh with dirt := false }
          next := next
          blkDev := Function.update s.blkDev c.major
            { s.blkDev c.major with current := current } }
        (Function.update queue c.major l) := by
  obtain ⟨⟨hcmd, hmajor⟩, hup⟩ := h.locked t c ht
  have hnot := h.not_mem hfree
  have hserves := serves_newRequest h ht
  have hself : (s.setRequest req (newRequest c (s.buffer c.bh))).request req =
      newRequest c (s.buffer c.bh) := Function.update_self ..
  obtain ⟨next, current, l, heq, hperm, hseg, hothers⟩ :=
    @addRequest_eq σ n ((s.setRequest req (newRequest c (s.buffer c.bh))).setTask t .running) queue
      c.major req c.bh h.seg hnot (fun m hm x hx hx' => hm (h.major_eq hx hx'))
      (h.length_le c.major) (congrArg Slot.bh hself)
      ((congrArg (fun r => MAJOR r.dev) hself).trans hmajor) (h.task_locked ht)
  refine ⟨next, current, l, heq, hperm, ?_⟩
  have halike := @alike_modify _ _ s c.bh (fun h => { h with dirt := false }) ⟨rfl, rfl, fun _ h => h⟩
  have hmem : ∀ m, ∀ x ∈ Function.update queue c.major l m,
      x = req ∧ m = c.major ∨ x ≠ req ∧ x ∈ queue m := by
    intro m x hx
    by_cases hm : m = c.major
    · subst hm
      rw [Function.update_self] at hx
      rcases List.mem_cons.1 (hperm.mem_iff.1 hx) with rfl | hx
      · exact .inl ⟨rfl, rfl⟩
      · exact .inr ⟨ne_of_mem_of_not_mem hx (hnot _), hx⟩
    · rw [Function.update_of_ne hm] at hx
      exact .inr ⟨ne_of_mem_of_not_mem hx (hnot _), hx⟩
  refine ⟨fun m => ?_, fun m x hx => ?_, fun x hx => ?_, ?_, fun t' c' ht' => ?_,
    fun t' c' ht' => ?_, fun b' => ?_, fun b₁ b₂ => ?_, h.silent⟩
  · by_cases hm : m = c.major
    · subst hm
      simp only [Function.update_self]
      exact hseg
    · simp only [Function.update_of_ne hm]
      exact hothers m hm
  · dsimp only
    rcases hmem m x hx with ⟨rfl, rfl⟩ | ⟨hne, hx⟩
    · rw [Function.update_self]
      refine ⟨hmajor, ?_, c.bh, hserves.alike (halike c.bh) (h.task_locked ht)⟩
      by_cases hread : c.rw = READ
      · rw [if_pos hread] at hlt
        exact .inl ⟨hread, hlt⟩
      · rw [if_neg hread] at hlt
        exact .inr ⟨hcmd.resolve_left hread, hlt⟩
    · rw [Function.update_of_ne hne]
      have hp := h.pending m x hx
      obtain ⟨b', hb'⟩ := hp.serves
      exact ⟨hp.major, hp.cmd, b', hb'.alike (halike b') (h.slot_locked hx hb')⟩
  · dsimp only at hx
    by_cases hreq : x = req
    · subst hreq
      refine ⟨c.major, ?_⟩
      rw [Function.update_self]
      exact hperm.mem_iff.2 List.mem_cons_self
    · rw [Function.update_of_ne hreq] at hx
      obtain ⟨m, hm⟩ := h.queued x hx
      refine ⟨m, ?_⟩
      by_cases hmm : m = c.major
      · subst hmm
        rw [Function.update_self]
        exact hperm.mem_iff.2 (List.mem_cons_of_mem req hm)
      · rw [Function.update_of_ne hmm]
        exact hm
  · refine h.owned.handOver (p := .slot req) (task_owns ht) (fun o b' => ?_) ?_ fun b' => ?_
    · cases o with
      | task t' =>
          by_cases heq : t' = t
          · subst heq
            simp [Owns]
          · simp [Owns, heq]
      | slot x =>
          by_cases heq : x = req
          · subst heq
            have hdev : ¬0 ≤ (s.request x).dev := not_le.2 hfree
            simp [Owns, newRequest, hdev, eq_comm]
          · simp [Owns, heq]
    · rintro b' ⟨c', hc', rfl⟩
      cases ht.symm.trans hc'
      rfl
    · exact lock_modify (fun h => { h with dirt := false }) rfl b'
  · rcases task_setTask ht' with ⟨-, hno⟩ | ⟨-, ht'⟩
    · cases hno
    · exact (h.locking t' c' ht').alike (halike c'.bh)
  · rcases task_setTask ht' with ⟨-, hno⟩ | ⟨-, ht'⟩
    · cases hno
    · obtain ⟨hsound, hup'⟩ := h.locked t' c' ht'
      exact ⟨hsound.alike (halike c'.bh), fun hr =>
        (halike c'.bh).uptodate (h.task_locked ht') (hup' hr)⟩
  · have hb := h.device b'
    rw [← (halike b').dev, ← (halike b').blocknr] at hb
    exact hb
  · have hu := h.unique b₁ b₂
    rw [← (halike b₁).dev, ← (halike b₁).blocknr, ← (halike b₂).dev, ← (halike b₂).blocknr] at hu
    exact hu

/-! ## The calls -/

theorem findRequest_eq_some {request : ℕ → Slot n} {k : ℕ}
    (h : findRequest request k = some req) : req < k ∧ (request req).dev < 0 := by
  induction k with
  | zero => cases h
  | succ k ih =>
      rw [findRequest] at h
      split at h
      next hdev =>
        cases h
        exact ⟨Nat.lt_succ_self _, hdev⟩
      next =>
        obtain ⟨hlt, hdev⟩ := ih h
        exact ⟨Nat.lt_succ_of_lt hlt, hdev⟩

/-- A task that has the lock adds a request, gives the lock back, or waits. -/
theorem Inv.repeatRequest (h : s.Inv queue) (ht : s.task t = .locked c) :
    ∃ s' queue', s.repeatRequest t c = .ok s' ∧ s'.Inv queue' := by
  unfold Devices.repeatRequest
  split
  next =>
    split
    next => exact ⟨_, _, rfl, h.unlock ht .notLocked⟩
    next => exact ⟨s, _, rfl, h⟩
  next req hfind =>
    obtain ⟨hlt, hfree⟩ := findRequest_eq_some hfind
    obtain ⟨next, current, l, heq, -, hinv⟩ := h.addRequest ht hfree hlt
    exact ⟨_, _, heq, hinv⟩

/-- There is nothing to do for the call. -/
def Idle (s : Devices σ n) (c : Call n) : Prop :=
  c.rw = WRITE ∧ (s.buffer c.bh).dirt = false ∨ c.rw = READ ∧ (s.buffer c.bh).uptodate = true

instance (s : Devices σ n) (c : Call n) : Decidable (s.Idle c) :=
  inferInstanceAs (Decidable (_ ∨ _))

/-- A buffer that is locked and unlocked is as before. -/
theorem unlock_lockedBy (hlock : (s.buffer c.bh).lock = false) (p : Printk) :
    ((s.lockedBy t c).unlockBuffer p c.bh).setTask t .running = s.setTask t .running := by
  have hself : (s.lockedBy t c).buffer c.bh = { s.buffer c.bh with lock := true } :=
    Function.update_self ..
  have hback : ({ s.buffer c.bh with lock := false } : BufferHead) = s.buffer c.bh := by
    rw [← hlock]
  rw [unlockBuffer_of_lock p (by rw [hself])]
  unfold lockedBy Devices.modify Devices.setTask
  simp only [Function.update_self, Function.update_idem, hback, Function.update_eq_self]

theorem lockBuffer_eq (s : Devices σ n) (t : Fin NR_TASKS) (c : Call n) :
    s.lockBuffer t c =
      if (s.buffer c.bh).lock then .ok (s.setTask t (.locking c))
      else if s.Idle c then .ok (s.setTask t .running)
      else (s.lockedBy t c).repeatRequest t c := by
  unfold Devices.lockBuffer
  split
  next => rfl
  next hlock =>
    rw [Bool.not_eq_true] at hlock
    have hself : (s.lockedBy t c).buffer c.bh = { s.buffer c.bh with lock := true } :=
      Function.update_self ..
    have hidle : ((c.rw = WRITE ∧ ((s.lockedBy t c).buffer c.bh).dirt = false) ∨
        (c.rw = READ ∧ ((s.lockedBy t c).buffer c.bh).uptodate = true)) ↔ s.Idle c := by
      rw [hself]
      rfl
    have hback := @unlock_lockedBy σ n s t c hlock .notLocked
    unfold lockedBy at hidle hback ⊢
    simp only [hidle, hback]

theorem Inv.lockBuffer (h : s.Inv queue) (hbefore : ∀ c, s.task t ≠ .locked c)
    (hc : c.Sound s.buffer) : ∃ s' queue', s.lockBuffer t c = .ok s' ∧ s'.Inv queue' := by
  rw [lockBuffer_eq]
  split
  next =>
    refine ⟨_, _, rfl, h.setTask hbefore (fun c hno => ?_) fun c' hc' => ?_⟩
    · cases hno
    · cases hc'
      exact hc
  next hlock =>
    rw [Bool.not_eq_true] at hlock
    split
    next =>
      refine ⟨_, _, rfl, h.setTask hbefore (fun c hno => ?_) fun c hno => ?_⟩
      · cases hno
      · cases hno
    next hidle =>
      refine (h.lockedBy hbefore hc hlock fun hread => ?_).repeatRequest ?_
      · rw [← Bool.not_eq_true]
        exact fun hup => hidle (.inr ⟨hread, hup⟩)
      · exact Function.update_self ..

end Devices

/-! ## Runs -/

/-- The command of a call is one that `make_request` knows. -/
def DevAction.Known : DevAction σ n → Prop
  | .llRwBlock _ rw _ => rw = READ ∨ rw = WRITE ∨ rw = READA ∨ rw = WRITEA
  | _ => True

instance : ∀ a : DevAction σ n, Decidable a.Known
  | .llRwBlock _ _ _ => inferInstanceAs (Decidable (_ ∨ _))
  | .resume _ | .transfer _ | .complete _ _ | .reuse _ _ _ | .store _ _ _ | .fill _ _
  | .forget _ => inferInstanceAs (Decidable True)

namespace Devices

theorem Inv.llRwBlock (h : s.Inv queue) (hbefore : ∀ c, s.task t ≠ .locked c) (rw : ℤ)
    (b : Fin n) :
    (∃ s' queue', s.llRwBlock t rw b = .ok s' ∧ s'.Inv queue') ∨
      s.llRwBlock t rw b = .error badCommand ∧
        ¬(DevAction.llRwBlock t rw b : DevAction σ n).Known := by
  unfold Devices.llRwBlock
  dsimp only
  split
  next =>
    refine .inl ⟨_, queue, rfl, h.seg, h.pending, h.queued, h.owned, h.locking, h.locked, h.device,
      h.unique, fun p hp => ?_⟩
    rcases List.mem_append.1 hp with hp | hp
    · exact h.silent p hp
    · rw [List.mem_singleton.1 hp]
      exact ⟨by simp, by simp⟩
  next =>
    unfold Devices.makeRequest
    split
    next hahead =>
      split
      next => exact .inl ⟨s, queue, rfl, h⟩
      next =>
        refine .inl (h.lockBuffer hbefore ⟨?_, rfl⟩)
        dsimp only
        split
        next => exact .inl rfl
        next => exact .inr rfl
    next hahead =>
      split
      next hbad =>
        refine .inr ⟨rfl, fun hknown => ?_⟩
        rcases hknown with hr | hr | hr
        · exact hbad.1 hr
        · exact hbad.2 hr
        · exact hahead hr
      next hgood =>
        refine .inl (h.lockBuffer hbefore ⟨?_, rfl⟩)
        dsimp only
        tauto

theorem Inv.step (h : s.Inv queue) (a : DevAction σ n) :
    (∃ s' queue', s.step a = .ok s' ∧ s'.Inv queue') ∨
      s.step a = .error badCommand ∧ ¬a.Known := by
  cases a with
  | llRwBlock t rw b =>
      unfold Devices.step
      dsimp only
      split
      next ht =>
        refine h.llRwBlock (fun c hno => ?_) rw b
        rw [ht] at hno
        cases hno
      next => exact .inl ⟨s, queue, rfl, h⟩
  | resume t =>
      left
      unfold Devices.step
      dsimp only
      split
      next => exact ⟨s, queue, rfl, h⟩
      next c ht =>
        refine h.lockBuffer (fun c hno => ?_) (h.locking t c ht)
        rw [ht] at hno
        cases hno
      next c ht => exact h.repeatRequest ht
  | transfer major => exact .inl ⟨_, queue, rfl, h.transfer major⟩
  | complete major uptodate =>
      left
      unfold Devices.step complete
      dsimp only
      split
      next => exact ⟨s, queue, rfl, h⟩
      next cur hcur =>
        split
        next => exact ⟨s, queue, rfl, h⟩
        next =>
          obtain ⟨l, hl, -⟩ := h.current hcur
          have hinv := h.endRequest hl hcur uptodate
          exact ⟨_, _, hinv.initRequest major, hinv⟩
  | reuse b dev block =>
      left
      unfold Devices.step
      dsimp only
      split
      next hok => exact ⟨_, queue, rfl, h.reuse hok⟩
      next => exact ⟨s, queue, rfl, h⟩
  | store b k v =>
      left
      unfold Devices.step
      dsimp only
      split
      next =>
        refine ⟨_, queue, rfl, h.alike (fun b' => ?_) (fun b' => ?_) rfl rfl rfl rfl rfl⟩
        · exact alike_modify (s := s.setCore (bData b + k) v) (fun h => { h with dirt := true })
            ⟨rfl, rfl, fun _ h => h⟩ b'
        · exact lock_modify (s := s.setCore (bData b + k) v) (fun h => { h with dirt := true }) rfl b'
      next => exact ⟨s, queue, rfl, h⟩
  | fill b v =>
      left
      unfold Devices.step
      dsimp only
      split
      next hok =>
        refine ⟨_, queue, rfl, h.alike (fun b' => ?_) (fun b' => ?_) rfl rfl rfl rfl rfl⟩
        · refine alike_modify (s := (s.setCore (bData b) (v 0)).setCore (bData b + 1) (v 1))
            (fun h => { h with uptodate := true, dirt := true }) ⟨rfl, rfl, fun hlock => ?_⟩ b'
          rw [show (s.buffer b).lock = true from hlock] at hok
          cases hok.1
        · exact lock_modify (s := (s.setCore (bData b) (v 0)).setCore (bData b + 1) (v 1))
            (fun h => { h with uptodate := true, dirt := true }) rfl b'
      next => exact ⟨s, queue, rfl, h⟩
  | forget b =>
      left
      unfold Devices.step
      dsimp only
      split
      next => exact ⟨s, queue, rfl, h⟩
      next =>
        exact ⟨_, queue, rfl, h.alike
          (alike_modify (fun h => { h with uptodate := false, dirt := false })
            ⟨rfl, rfl, fun _ _ => rfl⟩)
          (lock_modify (fun h => { h with uptodate := false, dirt := false }) rfl)
          rfl rfl rfl rfl rfl⟩

theorem negOne_lt : ¬(0 : ℤ) ≤ -1 := by decide

theorem inv_boot (requestFn : ℕ → Bool) (core : ℕ → σ) (disk : ℤ → ℕ → σ) :
    (boot requestFn core disk : Devices σ n).Inv fun _ => [] where
  seg _ := rfl
  pending _ _ hreq := by cases hreq
  queued _ hreq := absurd hreq negOne_lt
  owned := by
    refine ⟨fun b => iff_of_false Bool.false_ne_true ?_, fun b o o' ho => ?_⟩
    · rintro ⟨o, ho⟩
      cases o with
      | slot req => exact absurd ho.1 negOne_lt
      | task t =>
          obtain ⟨c, hc, -⟩ := ho
          cases hc
    · cases o with
      | slot req => exact absurd ho.1 negOne_lt
      | task t =>
          obtain ⟨c, hc, -⟩ := ho
          cases hc
  locking _ _ ht := by cases ht
  locked _ _ ht := by cases ht
  device _ := ⟨Nat.two_pow_pos 16, Nat.two_pow_pos 31⟩
  unique _ _ hne := absurd rfl hne
  silent _ hp := by cases hp

theorem Inv.run (h : s.Inv queue) (as : List (DevAction σ n)) :
    (∃ s' queue', run as s = .ok s' ∧ s'.Inv queue') ∨
      run as s = .error badCommand ∧ ∃ a ∈ as, ¬a.Known := by
  induction as generalizing s queue with
  | nil => exact .inl ⟨s, queue, rfl, h⟩
  | cons a as ih =>
      rw [Devices.run]
      rcases h.step a with ⟨s₁, queue₁, hstep, h₁⟩ | ⟨hstep, hno⟩
      · rw [hstep]
        rcases ih h₁ with hok | ⟨herr, a', ha', hno⟩
        · exact .inl hok
        · exact .inr ⟨herr, a', List.mem_cons_of_mem a ha', hno⟩
      · rw [hstep]
        exact .inr ⟨rfl, a, List.mem_cons_self, hno⟩

/-- Over any run each locked buffer has one owner and each request is in one list,
that of its device; only an unknown command can stop the run. -/
theorem requests_owned (requestFn : ℕ → Bool) (core : ℕ → σ) (disk : ℤ → ℕ → σ)
    (as : List (DevAction σ n)) :
    (∃ s queue, Devices.run as (boot requestFn core disk) = .ok s ∧ s.Inv queue) ∨
      Devices.run as (boot requestFn core disk : Devices σ n) = .error badCommand ∧
        ∃ a ∈ as, ¬a.Known :=
  (inv_boot requestFn core disk).run as

end Devices

end

end MyJavaExample.Blk
