import MyJavaExample.Blk.MakeRequest
import MyJavaExample.Lib.Ownership

/-!
# Who has the lock of a buffer

A locked buffer is locked by exactly one: by the request for it that is pending,
or by the task that waits in `make_request` for an element of the array.  Each
pending request is in the list of its own device and nowhere else.  With that the
checks of `INIT_REQUEST` never fail, and no buffer is unlocked that is not
locked.
-/

namespace MyJavaExample.Blk

open Lib

inductive Owner where
  | slot (req : ℕ)
  | task (t : Fin NR_TASKS)

/-- The owner has the lock of the buffer. -/
def Owns {n : ℕ} (request : ℕ → Slot n) (task : Fin NR_TASKS → TaskState n) :
    Owner → Fin n → Prop
  | .slot req, bh => 0 ≤ (request req).dev ∧ (request req).bh = some bh
  | .task t, bh => ∃ c, task t = .locked c ∧ c.bh = bh

/-- The request is for the buffer, and as much of it is left as it says. -/
structure Slot.Serves {n : ℕ} (r : Slot n) (b : Fin n) (h : BufferHead) : Prop where
  bh : r.bh = some b
  dev : r.dev = h.dev
  le : r.nrSectors ≤ 2
  sector : r.sector + r.nrSectors = 2 * h.blocknr + 2
  buffer : r.buffer + r.nrSectors = bData b + 2
  /-- What is read is not there yet. -/
  read : r.cmd = READ → h.uptodate = false

/-- The element of the array is a request to the device.  Writes have the first two
thirds of the array. -/
structure Pending {n : ℕ} (buffer : Fin n → BufferHead) (r : Slot n) (major req : ℕ) : Prop where
  major : MAJOR r.dev = major
  cmd : r.cmd = READ ∧ req < NR_REQUEST ∨ r.cmd = WRITE ∧ req < NR_REQUEST * 2 / 3
  serves : ∃ b, r.Serves b (buffer b)

/-- A task that sleeps in the call. -/
structure Call.Sound {n : ℕ} (c : Call n) (buffer : Fin n → BufferHead) : Prop where
  cmd : c.rw = READ ∨ c.rw = WRITE
  major : MAJOR (buffer c.bh).dev = c.major

namespace Devices

variable {σ : Type} {n : ℕ}

/-- The requests of each device are `queue`. -/
structure Inv (s : Devices σ n) (queue : ℕ → List ℕ) : Prop where
  seg : ∀ major, Seg s.next (s.blkDev major).current (queue major) none
  pending : ∀ major, ∀ req ∈ queue major, Pending s.buffer (s.request req) major req
  queued : ∀ req, 0 ≤ (s.request req).dev → ∃ major, req ∈ queue major
  owned : Owned (Owns s.request s.task) fun b => (s.buffer b).lock
  locking : ∀ t c, s.task t = .locking c → c.Sound s.buffer
  locked : ∀ t c, s.task t = .locked c → c.Sound s.buffer ∧
    (c.rw = READ → (s.buffer c.bh).uptodate = false)
  device : ∀ b, (s.buffer b).dev < 2 ^ 16 ∧ (s.buffer b).blocknr < 2 ^ 31
  unique : ∀ b b', (s.buffer b).dev ≠ 0 → (s.buffer b).dev = (s.buffer b').dev →
    (s.buffer b).blocknr = (s.buffer b').blocknr → b = b'
  silent : ∀ p ∈ s.printed, p ≠ .notLocked ∧ ∀ name, p ≠ .freeBuffer name

end Devices

section

variable {σ : Type} {n : ℕ} {s s' : Devices σ n} {queue : ℕ → List ℕ} {major req : ℕ} {b : Fin n}
variable {buffer buffer' : Fin n → BufferHead} {r : Slot n} {t : Fin NR_TASKS} {c : Call n}

theorem Pending.nonneg (h : Pending buffer r major req) : 0 ≤ r.dev := by
  obtain ⟨b, hb⟩ := h.serves
  rw [hb.dev]
  exact Int.natCast_nonneg _

theorem Pending.lt (h : Pending buffer r major req) : req < NR_REQUEST := by
  rcases h.cmd with ⟨-, hlt⟩ | ⟨-, hlt⟩
  · exact hlt
  · exact hlt.trans (by decide)

/-! ## Heads that are alike -/

/-- A buffer head after a change that does not touch what a request needs. -/
structure BufferHead.Alike (h h' : BufferHead) : Prop where
  dev : h'.dev = h.dev
  blocknr : h'.blocknr = h.blocknr
  uptodate : h.lock = true → h.uptodate = false → h'.uptodate = false

theorem BufferHead.Alike.refl (h : BufferHead) : h.Alike h := ⟨rfl, rfl, fun _ hup => hup⟩

theorem Slot.Serves.alike {h h' : BufferHead} (hr : r.Serves b h) (ha : h.Alike h')
    (hlock : h.lock = true) : r.Serves b h' where
  bh := hr.bh
  dev := by rw [hr.dev, ha.dev]
  le := hr.le
  sector := by rw [hr.sector, ha.blocknr]
  buffer := hr.buffer
  read hcmd := ha.uptodate hlock (hr.read hcmd)

theorem Call.Sound.alike (h : c.Sound buffer) (ha : (buffer c.bh).Alike (buffer' c.bh)) :
    c.Sound buffer' where
  cmd := h.cmd
  major := by rw [ha.dev, h.major]

namespace Devices

theorem alike_modify (f : BufferHead → BufferHead) (hf : (s.buffer b).Alike (f (s.buffer b)))
    (b' : Fin n) : (s.buffer b').Alike ((s.modify b f).buffer b') := by
  rw [modify_buffer]
  by_cases hb : b' = b
  · subst hb
    rw [Function.update_self]
    exact hf
  · rw [Function.update_of_ne hb]
    exact .refl _

/-! ## What the invariant gives -/

theorem Inv.nodup (h : s.Inv queue) (major : ℕ) : (queue major).Nodup := (h.seg major).nodup

theorem Inv.length_le (h : s.Inv queue) (major : ℕ) : (queue major).length ≤ NR_REQUEST := by
  have hsub : queue major ⊆ List.range NR_REQUEST :=
    fun req hreq => List.mem_range.2 (h.pending major req hreq).lt
  simpa using ((h.nodup major).subperm hsub).length_le

theorem Inv.slot_owns (h : s.Inv queue) (hreq : req ∈ queue major)
    (hb : (s.request req).Serves b (s.buffer b)) : Owns s.request s.task (.slot req) b :=
  ⟨(h.pending major req hreq).nonneg, hb.bh⟩

theorem Inv.slot_locked (h : s.Inv queue) (hreq : req ∈ queue major)
    (hb : (s.request req).Serves b (s.buffer b)) : (s.buffer b).lock = true :=
  h.owned.locked (h.slot_owns hreq hb)

theorem task_owns (ht : s.task t = .locked c) : Owns s.request s.task (.task t) c.bh :=
  ⟨c, ht, rfl⟩

theorem Inv.task_locked (h : s.Inv queue) (ht : s.task t = .locked c) :
    (s.buffer c.bh).lock = true :=
  h.owned.locked (task_owns ht)

theorem Inv.not_mem (h : s.Inv queue) (hfree : (s.request req).dev < 0) (major : ℕ) :
    req ∉ queue major :=
  fun hreq => absurd (h.pending major req hreq).nonneg (not_le.2 hfree)

/-- A request is in one list only. -/
theorem Inv.major_eq (h : s.Inv queue) {major' : ℕ} (hreq : req ∈ queue major)
    (hreq' : req ∈ queue major') : major = major' :=
  (h.pending major req hreq).major.symm.trans (h.pending major' req hreq').major

/-- The first request of a list is the current one. -/
theorem Inv.current (h : s.Inv queue) {cur : ℕ} (hcur : (s.blkDev major).current = some cur) :
    ∃ l, queue major = cur :: l ∧ Seg s.next (s.next cur) l none := by
  have hseg := h.seg major
  rw [hcur] at hseg
  cases hq : queue major with
  | nil =>
      rw [hq] at hseg
      cases hseg
  | cons x l =>
      rw [hq] at hseg
      obtain ⟨hx, hseg⟩ := hseg
      cases hx
      exact ⟨l, rfl, hseg⟩

/-- The checks of `INIT_REQUEST`. -/
theorem Inv.initRequest (h : s.Inv queue) (major : ℕ) : s.initRequest major = .ok s := by
  unfold Devices.initRequest
  cases hcur : (s.blkDev major).current with
  | none => rfl
  | some cur =>
      obtain ⟨l, hl, -⟩ := h.current hcur
      have hmem : cur ∈ queue major := by
        rw [hl]
        exact List.mem_cons_self
      have hp := h.pending major cur hmem
      obtain ⟨b, hb⟩ := hp.serves
      dsimp only
      rw [if_neg (not_not.2 hp.major), hb.bh]
      dsimp only
      rw [if_pos (h.slot_locked hmem hb)]

/-! ## Moves that leave the requests alone -/

theorem Inv.update (h : s.Inv queue) (halike : ∀ b, (s.buffer b).Alike (s'.buffer b))
    (howned : Owned (Owns s'.request s'.task) fun b => (s'.buffer b).lock)
    (hlocking : ∀ t c, s'.task t = .locking c → s.task t = .locking c ∨ c.Sound s.buffer)
    (hlocked : ∀ t c, s'.task t = .locked c → s.task t = .locked c ∨
      c.Sound s.buffer ∧ (c.rw = READ → (s'.buffer c.bh).uptodate = false))
    (hrequest : s'.request = s.request) (hnext : s'.next = s.next) (hblk : s'.blkDev = s.blkDev)
    (hprinted : s'.printed = s.printed) : s'.Inv queue where
  seg := by
    rw [hnext, hblk]
    exact h.seg
  pending major req hreq := by
    have hp := h.pending major req hreq
    obtain ⟨b, hb⟩ := hp.serves
    rw [hrequest]
    exact ⟨hp.major, hp.cmd, b, hb.alike (halike b) (h.slot_locked hreq hb)⟩
  queued := by
    rw [hrequest]
    exact h.queued
  owned := howned
  locking t c ht := by
    rcases hlocking t c ht with ht | hsound
    · exact (h.locking t c ht).alike (halike c.bh)
    · exact hsound.alike (halike c.bh)
  locked t c ht := by
    rcases hlocked t c ht with ht | ⟨hsound, hup⟩
    · obtain ⟨hsound, hup⟩ := h.locked t c ht
      exact ⟨hsound.alike (halike c.bh), fun hcmd =>
        (halike c.bh).uptodate (h.task_locked ht) (hup hcmd)⟩
    · exact ⟨hsound.alike (halike c.bh), hup⟩
  device b := by
    rw [(halike b).dev, (halike b).blocknr]
    exact h.device b
  unique b b' := by
    simp only [(halike b).dev, (halike b).blocknr, (halike b').dev, (halike b').blocknr]
    exact h.unique b b'
  silent := by
    rw [hprinted]
    exact h.silent

/-- Nothing changes but what the buffers hold. -/
theorem Inv.alike (h : s.Inv queue) (halike : ∀ b, (s.buffer b).Alike (s'.buffer b))
    (hlock : ∀ b, (s'.buffer b).lock = (s.buffer b).lock)
    (hrequest : s'.request = s.request) (hnext : s'.next = s.next) (hblk : s'.blkDev = s.blkDev)
    (htask : s'.task = s.task) (hprinted : s'.printed = s.printed) : s'.Inv queue := by
  refine h.update halike ?_ ?_ ?_ hrequest hnext hblk hprinted
  · rw [hrequest, htask]
    exact h.owned.congr (fun _ _ => .rfl) hlock
  · rw [htask]
    exact fun t c ht => .inl ht
  · rw [htask]
    exact fun t c ht => .inl ht

theorem lock_modify (f : BufferHead → BufferHead) (hf : (f (s.buffer b)).lock = (s.buffer b).lock)
    (b' : Fin n) : ((s.modify b f).buffer b').lock = (s.buffer b').lock := by
  rw [modify_buffer]
  by_cases hb : b' = b
  · subst hb
    rw [Function.update_self, hf]
  · rw [Function.update_of_ne hb]

theorem task_setTask {p : TaskState n} {t' : Fin NR_TASKS} {p' : TaskState n}
    (ht : (s.setTask t p).task t' = p') : t' = t ∧ p = p' ∨ t' ≠ t ∧ s.task t' = p' := by
  rw [setTask_task] at ht
  by_cases heq : t' = t
  · subst heq
    rw [Function.update_self] at ht
    exact .inl ⟨rfl, ht⟩
  · rw [Function.update_of_ne heq] at ht
    exact .inr ⟨heq, ht⟩

theorem owns_setTask {p : TaskState n} (hp : ∀ c, p ≠ .locked c) (o : Owner) (b : Fin n) :
    Owns s.request (s.setTask t p).task o b ↔ Owns s.request s.task o b ∧ o ≠ .task t := by
  cases o with
  | slot req => simp [Owns]
  | task t' =>
      by_cases heq : t' = t
      · subst heq
        simp [Owns, hp]
      · simp [Owns, heq]

theorem owns_setTask_locked (hbefore : ∀ c, s.task t ≠ .locked c) (o : Owner) (b : Fin n) :
    Owns s.request (s.setTask t (.locked c)).task o b ↔
      Owns s.request s.task o b ∨ o = .task t ∧ b = c.bh := by
  cases o with
  | slot req => simp [Owns]
  | task t' =>
      by_cases heq : t' = t
      · subst heq
        simp [Owns, hbefore, eq_comm]
      · simp [Owns, heq]

/-- A task that has no lock goes to sleep in `lock_buffer` or returns. -/
theorem Inv.setTask (h : s.Inv queue) (hbefore : ∀ c, s.task t ≠ .locked c) {p : TaskState n}
    (hp : ∀ c, p ≠ .locked c) (hsound : ∀ c, p = .locking c → c.Sound s.buffer) :
    (s.setTask t p).Inv queue := by
  refine h.update (fun b => .refl _) ?_ (fun t' c ht => ?_) (fun t' c ht => ?_) rfl rfl rfl rfl
  · refine h.owned.congr (fun o b => ?_) fun _ => rfl
    refine (owns_setTask (s := s) hp o b).trans (and_iff_left_of_imp ?_)
    rintro ho rfl
    obtain ⟨c, hc, -⟩ := ho
    exact hbefore c hc
  · rcases task_setTask ht with ⟨-, rfl⟩ | ⟨-, ht⟩
    · exact .inr (hsound c rfl)
    · exact .inl ht
  · rcases task_setTask ht with ⟨-, rfl⟩ | ⟨-, ht⟩
    · exact absurd rfl (hp c)
    · exact .inl ht

/-- `lock_buffer` takes the lock. -/
def lockedBy (t : Fin NR_TASKS) (c : Call n) (s : Devices σ n) : Devices σ n :=
  (s.modify c.bh fun h => { h with lock := true }).setTask t (.locked c)

theorem Inv.lockedBy (h : s.Inv queue) (hbefore : ∀ c, s.task t ≠ .locked c) (hc : c.Sound s.buffer)
    (hfree : (s.buffer c.bh).lock = false) (hup : c.rw = READ → (s.buffer c.bh).uptodate = false) :
    (s.lockedBy t c).Inv queue := by
  have halike := @alike_modify _ _ s c.bh (fun h => { h with lock := true }) ⟨rfl, rfl, fun _ h => h⟩
  refine h.update halike ?_ (fun t' c' ht => ?_) (fun t' c' ht => ?_) rfl rfl rfl rfl
  · refine h.owned.take hfree (owns_setTask_locked hbefore) ?_ fun b hb => ?_
    · show (Function.update s.buffer c.bh _ c.bh).lock = true
      rw [Function.update_self]
    · show (Function.update s.buffer c.bh _ b).lock = _
      rw [Function.update_of_ne hb]
  · rcases task_setTask ht with ⟨-, hno⟩ | ⟨-, ht⟩
    · cases hno
    · exact .inl ht
  · rcases task_setTask ht with ⟨-, hc'⟩ | ⟨-, ht⟩
    · cases hc'
      refine .inr ⟨hc, fun hcmd => ?_⟩
      show (Function.update s.buffer c.bh _ c.bh).uptodate = false
      rw [Function.update_self]
      exact hup hcmd
    · exact .inl ht

theorem unlockBuffer_of_lock (p : Printk) (hlock : (s.buffer b).lock = true) :
    s.unlockBuffer p b = s.modify b fun h => { h with lock := false } := by
  rw [unlockBuffer, if_pos hlock]

/-- The task gives the buffer up. -/
theorem Inv.unlock (h : s.Inv queue) (ht : s.task t = .locked c) (p : Printk) :
    ((s.unlockBuffer p c.bh).setTask t .running).Inv queue := by
  rw [unlockBuffer_of_lock p (h.task_locked ht)]
  have halike := @alike_modify _ _ s c.bh (fun h => { h with lock := false })
    ⟨rfl, rfl, fun _ h => h⟩
  refine h.update halike ?_ (fun t' c' ht' => ?_) (fun t' c' ht' => ?_) rfl rfl rfl rfl
  · refine h.owned.release (task_owns ht) (owns_setTask (s := s) (p := .running) fun c hno => ?_)
      ?_ ?_ fun b hb => ?_
    · cases hno
    · rintro b ⟨c', hc', rfl⟩
      cases ht.symm.trans hc'
      rfl
    · show (Function.update s.buffer c.bh _ c.bh).lock = false
      rw [Function.update_self]
    · show (Function.update s.buffer c.bh _ b).lock = _
      rw [Function.update_of_ne hb]
  · rcases task_setTask ht' with ⟨-, hno⟩ | ⟨-, ht'⟩
    · cases hno
    · exact .inl ht'
  · rcases task_setTask ht' with ⟨-, hno⟩ | ⟨-, ht'⟩
    · cases hno
    · exact .inl ht'

/-- `getblk` takes a buffer for another block. -/
theorem Inv.reuse (h : s.Inv queue) {dev block : ℕ} (hok : s.Reusable b dev block) :
    (s.modify b fun _ => ⟨dev, block, false, false, false⟩).Inv queue := by
  obtain ⟨hlock, -, hsleeps, hdev, hdev', hblock, hfind⟩ := hok
  have hnot := h.owned.not_owns hlock
  have hother : ∀ b' ≠ b,
      (s.modify b fun _ => ⟨dev, block, false, false, false⟩).buffer b' = s.buffer b' :=
    fun b' hb => Function.update_of_ne hb ..
  have hself : (s.modify b fun _ => ⟨dev, block, false, false, false⟩).buffer b =
      ⟨dev, block, false, false, false⟩ := Function.update_self ..
  have hsound : ∀ t c, (s.task t = .locking c ∨ s.task t = .locked c) → c.bh ≠ b := by
    rintro t c (ht | ht) rfl
    · have := hsleeps t
      simp [sleepsOn, ht] at this
    · exact hnot _ (task_owns ht)
  refine ⟨h.seg, fun m req hreq => ?_, h.queued, ?_, fun t c ht => ?_, fun t c ht => ?_,
    fun b' => ?_, fun b₁ b₂ hne hd hbl => ?_, h.silent⟩
  · have hp := h.pending m req hreq
    obtain ⟨b', hb'⟩ := hp.serves
    have hne : b' ≠ b := by
      rintro rfl
      exact hnot _ (h.slot_owns hreq hb')
    refine ⟨hp.major, hp.cmd, b', ?_⟩
    rw [hother b' hne]
    exact hb'
  · refine h.owned.congr (fun _ _ => .rfl) fun b' => ?_
    by_cases hb : b' = b
    · subst hb
      rw [hself, hlock]
    · rw [hother b' hb]
  · obtain ⟨hcmd, hmajor⟩ := h.locking t c ht
    exact ⟨hcmd, by rw [hother _ (hsound t c (.inl ht)), hmajor]⟩
  · obtain ⟨⟨hcmd, hmajor⟩, hup⟩ := h.locked t c ht
    rw [hother _ (hsound t c (.inr ht))]
    exact ⟨⟨hcmd, by rw [hother _ (hsound t c (.inr ht)), hmajor]⟩, hup⟩
  · by_cases hb : b' = b
    · subst hb
      rw [hself]
      exact ⟨hdev', hblock⟩
    · rw [hother b' hb]
      exact h.device b'
  · by_cases h₁ : b₁ = b <;> by_cases h₂ : b₂ = b
    · rw [h₁, h₂]
    · rw [h₁, hself, hother b₂ h₂] at hd hbl
      exact absurd ⟨hd.symm, hbl.symm⟩ (hfind b₂)
    · rw [h₂, hself, hother b₁ h₁] at hd hbl
      exact absurd ⟨hd, hbl⟩ (hfind b₁)
    · rw [hother b₁ h₁] at hne hd hbl
      rw [hother b₂ h₂] at hd hbl
      exact h.unique b₁ b₂ hne hd hbl

end Devices

end

end MyJavaExample.Blk
