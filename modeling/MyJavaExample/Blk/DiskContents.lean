import MyJavaExample.Blk.RequestSteps

/-!
# What is written is there

The cache, the array of requests and the disks keep one content for each sector:
the last value that was stored in it, or what was on the disk at the start.  A
buffer that is up to date has it, and the disk has it when the buffer is clean
and no request is pending.

A sector has no known content after its block is freed, and after a write of it
has failed, until it is stored again.
-/

namespace MyJavaExample.Blk

open Lib

section

variable {σ : Type} {n : ℕ}

/-! ## The abstract disks -/

/-- The contents of a block are set, as far as they are known. -/
def setBlock (dev block : ℕ) (v : Fin 2 → Option σ) (k : ℕ → ℕ → Option σ) : ℕ → ℕ → Option σ :=
  Function.update k dev fun sector =>
    if h : sector - 2 * block < 2 ∧ 2 * block ≤ sector then v ⟨sector - 2 * block, h.1⟩
    else k dev sector

namespace Devices

/-- The contents after an action in the state. -/
def stored (s : Devices σ n) (k : ℕ → ℕ → Option σ) : DevAction σ n → ℕ → ℕ → Option σ
  | .store b i v =>
      let h := s.buffer b
      if h.uptodate then
        Function.update k h.dev (Function.update (k h.dev) (2 * h.blocknr + i) (some v))
      else k
  | .fill b v =>
      let h := s.buffer b
      if h.lock = false ∧ h.dev ≠ 0 then setBlock h.dev h.blocknr (fun i => some (v i)) k else k
  | .forget b =>
      let h := s.buffer b
      if h.lock then k else setBlock h.dev h.blocknr (fun _ => none) k
  | .complete major false =>
      match (s.blkDev major).current with
      | none => k
      | some cur =>
          match (s.request cur).bh with
          | none => k
          | some b =>
              if (s.request cur).cmd = WRITE then
                setBlock (s.buffer b).dev (s.buffer b).blocknr (fun _ => none) k
              else k
  | _ => k

/-- The contents after a run. -/
def contents : List (DevAction σ n) → Devices σ n → (ℕ → ℕ → Option σ) → ℕ → ℕ → Option σ
  | [], _, k => k
  | a :: as, s, k =>
      match s.step a with
      | .ok s' => contents as s' (s.stored k a)
      | .error _ => s.stored k a

end Devices

/-! ## The invariant -/

/-- The request writes the buffer. -/
def Slot.Writes (r : Slot n) (b : Fin n) : Prop := 0 ≤ r.dev ∧ r.bh = some b ∧ r.cmd = WRITE

/-- The request writes the buffer, and the sector is not on the disk yet. -/
def Slot.Unmoved (r : Slot n) (b : Fin n) (i : ℕ) : Prop := r.Writes b ∧ 2 ≤ i + r.nrSectors

/-- The request reads the buffer, and the sector is there already. -/
def Slot.Fetched (r : Slot n) (b : Fin n) (i : ℕ) : Prop :=
  0 ≤ r.dev ∧ r.bh = some b ∧ r.cmd = READ ∧ i + r.nrSectors < 2

namespace Devices

/-- Sector `i` of the buffer has the content `v`, on its way to the disk or back. -/
structure Kept (s : Devices σ n) (b : Fin n) (i : ℕ) (v : σ) : Prop where
  uptodate : (s.buffer b).uptodate = true → s.core (bData b + i) = v
  dirt : (s.buffer b).dirt = true → (s.buffer b).uptodate = true
  writes : ∀ req, (s.request req).Writes b → (s.buffer b).uptodate = true
  fetched : ∀ req, (s.request req).Fetched b i → s.core (bData b + i) = v
  disk : (s.buffer b).dirt = true ∨ (∃ req, (s.request req).Unmoved b i) ∨
    s.disk (s.buffer b).dev (2 * (s.buffer b).blocknr + i) = v

/-- The buffer is for the block. -/
def Has (s : Devices σ n) (b : Fin n) (dev block : ℕ) : Prop :=
  (s.buffer b).dev = dev ∧ (s.buffer b).blocknr = block

structure Coherent (s : Devices σ n) (k : ℕ → ℕ → Option σ) : Prop where
  kept : ∀ b i v, i < 2 → (s.buffer b).dev ≠ 0 →
    k (s.buffer b).dev (2 * (s.buffer b).blocknr + i) = some v → s.Kept b i v
  disk : ∀ dev block i v, i < 2 → dev ≠ 0 → (∀ b, ¬s.Has b dev block) →
    k dev (2 * block + i) = some v → s.disk dev (2 * block + i) = v
  dirt : ∀ t c, s.task t = .locked c → c.rw = WRITE → (s.buffer c.bh).dirt = true

end Devices

variable {s s' : Devices σ n} {queue : ℕ → List ℕ} {k : ℕ → ℕ → Option σ} {major req cur : ℕ}
variable {b b' : Fin n} {i j : ℕ} {v : σ} {t : Fin NR_TASKS} {c : Call n}

theorem bData_add_ne (hi : i < 2) (hj : j < 2) (h : ¬(b = b' ∧ i = j)) :
    bData b + i ≠ bData b' + j := by
  unfold bData
  intro heq
  refine h ⟨Fin.ext ?_, ?_⟩ <;> omega

theorem read_ne_write : READ ≠ WRITE := by decide

/-! ## Setting a block -/

theorem setBlock_self {dev block : ℕ} {w : Fin 2 → Option σ} (hi : i < 2) :
    setBlock dev block w k dev (2 * block + i) = w ⟨i, hi⟩ := by
  unfold setBlock
  rw [Function.update_self, dif_pos ⟨by omega, by omega⟩]
  exact congrArg w (Fin.ext (Nat.add_sub_cancel_left (2 * block) i))

theorem setBlock_of_ne {dev block dev' block' : ℕ} {w : Fin 2 → Option σ} (hi : i < 2)
    (h : ¬(dev' = dev ∧ block' = block)) :
    setBlock dev block w k dev' (2 * block' + i) = k dev' (2 * block' + i) := by
  unfold setBlock
  by_cases hdev : dev' = dev
  · subst hdev
    have hblock : block' ≠ block := fun hno => h ⟨rfl, hno⟩
    rw [Function.update_self, dif_neg (by omega)]
  · rw [Function.update_of_ne hdev]

namespace Devices

/-- Only one request is for a buffer. -/
theorem Inv.slot_unique (h : s.Inv queue) (hcur : cur ∈ queue major)
    (hb : (s.request cur).Serves b (s.buffer b)) (hdev : 0 ≤ (s.request req).dev)
    (hbh : (s.request req).bh = some b) : req = cur := by
  have howner := h.owned.unique b (.slot req) (.slot cur) ⟨hdev, hbh⟩ (h.slot_owns hcur hb)
  cases howner
  rfl

/-- Two buffers are not for one block. -/
theorem Inv.not_has (h : s.Inv queue) (hne : b' ≠ b) (hdev : (s.buffer b').dev ≠ 0) :
    ¬((s.buffer b').dev = (s.buffer b).dev ∧ (s.buffer b').blocknr = (s.buffer b).blocknr) :=
  fun ⟨hd, hbl⟩ => hne (h.unique b' b hdev hd hbl)

/-! ## Steps that move nothing -/

theorem Kept.congr (h : s.Kept b i v) (hbuffer : (s'.buffer b).dev = (s.buffer b).dev ∧
      (s'.buffer b).blocknr = (s.buffer b).blocknr ∧ (s'.buffer b).dirt = (s.buffer b).dirt ∧
        (s'.buffer b).uptodate = (s.buffer b).uptodate)
    (hrequest : s'.request = s.request) (hcore : s'.core = s.core) (hdisk : s'.disk = s.disk) :
    s'.Kept b i v := by
  obtain ⟨hdev, hblock, hdirt, hup⟩ := hbuffer
  constructor
  · rw [hup, hcore]
    exact h.uptodate
  · rw [hup, hdirt]
    exact h.dirt
  · rw [hup, hrequest]
    exact h.writes
  · rw [hrequest, hcore]
    exact h.fetched
  · rw [hdirt, hrequest, hdisk, hdev, hblock]
    exact h.disk

theorem Coherent.congr (h : s.Coherent k)
    (hbuffer : ∀ b, (s'.buffer b).dev = (s.buffer b).dev ∧
      (s'.buffer b).blocknr = (s.buffer b).blocknr ∧ (s'.buffer b).dirt = (s.buffer b).dirt ∧
        (s'.buffer b).uptodate = (s.buffer b).uptodate)
    (hrequest : s'.request = s.request) (hcore : s'.core = s.core) (hdisk : s'.disk = s.disk)
    (htask : ∀ t c, s'.task t = .locked c → c.rw = WRITE → (s'.buffer c.bh).dirt = true) :
    s'.Coherent k where
  kept b i v hi hdev hk := by
    rw [(hbuffer b).1] at hdev
    rw [(hbuffer b).1, (hbuffer b).2.1] at hk
    exact (h.kept b i v hi hdev hk).congr (hbuffer b) hrequest hcore hdisk
  disk dev block i v hi hdev hno hk := by
    rw [hdisk]
    refine h.disk dev block i v hi hdev (fun b hb => hno b ?_) hk
    unfold Has
    rw [(hbuffer b).1, (hbuffer b).2.1]
    exact hb
  dirt := htask

theorem modify_kept (f : BufferHead → BufferHead)
    (hf : (f (s.buffer b)).dev = (s.buffer b).dev ∧
      (f (s.buffer b)).blocknr = (s.buffer b).blocknr ∧
      (f (s.buffer b)).dirt = (s.buffer b).dirt ∧ (f (s.buffer b)).uptodate = (s.buffer b).uptodate)
    (b' : Fin n) : ((s.modify b f).buffer b').dev = (s.buffer b').dev ∧
      ((s.modify b f).buffer b').blocknr = (s.buffer b').blocknr ∧
        ((s.modify b f).buffer b').dirt = (s.buffer b').dirt ∧
          ((s.modify b f).buffer b').uptodate = (s.buffer b').uptodate := by
  rw [modify_buffer]
  by_cases hb : b' = b
  · subst hb
    rw [Function.update_self]
    exact hf
  · rw [Function.update_of_ne hb]
    exact ⟨rfl, rfl, rfl, rfl⟩

theorem Coherent.setTask (h : s.Coherent k) {p : TaskState n} (hp : ∀ c, p ≠ .locked c) :
    (s.setTask t p).Coherent k := by
  refine h.congr (fun b => ⟨rfl, rfl, rfl, rfl⟩) rfl rfl rfl fun t' c ht => ?_
  rcases task_setTask ht with ⟨-, hno⟩ | ⟨-, ht⟩
  · exact absurd hno (hp c)
  · exact h.dirt t' c ht

theorem Coherent.modify_lock (h : s.Coherent k) (lock : Bool) :
    (s.modify b fun h => { h with lock := lock }).Coherent k := by
  have hsame := modify_kept (s := s) (b := b) (fun h => { h with lock := lock })
    ⟨rfl, rfl, rfl, rfl⟩
  refine h.congr hsame rfl rfl rfl fun t c ht hrw => ?_
  rw [(hsame c.bh).2.2.1]
  exact h.dirt t c ht hrw

theorem Coherent.lockedBy (h : s.Coherent k) (hidle : ¬s.Idle c) : (s.lockedBy t c).Coherent k := by
  have hmodify := h.modify_lock (b := c.bh) true
  refine hmodify.congr (fun b => ⟨rfl, rfl, rfl, rfl⟩) rfl rfl rfl fun t' c' ht hrw => ?_
  rcases task_setTask ht with ⟨-, heq⟩ | ⟨-, ht⟩
  · cases heq
    have hself : ((s.lockedBy t c).buffer c.bh).dirt = (s.buffer c.bh).dirt :=
      (modify_kept (s := s) (fun h => { h with lock := true }) ⟨rfl, rfl, rfl, rfl⟩ c.bh).2.2.1
    rw [hself, ← Bool.not_eq_false]
    exact fun hno => hidle (.inl ⟨hrw, hno⟩)
  · exact hmodify.dirt t' c' ht hrw

theorem Coherent.unlock (h : s.Coherent k) (hinv : s.Inv queue) (ht : s.task t = .locked c)
    (p : Printk) : ((s.unlockBuffer p c.bh).setTask t .running).Coherent k := by
  rw [unlockBuffer_of_lock p (hinv.task_locked ht)]
  refine (h.modify_lock false).setTask fun c hno => ?_
  cases hno

/-! ## A request is added -/

/-- The state in which the task has added its request. -/
structure Added (s : Devices σ n) (t : Fin NR_TASKS) (c : Call n) (req : ℕ) (s' : Devices σ n) :
    Prop where
  request : s'.request = Function.update s.request req (newRequest c (s.buffer c.bh))
  task : s'.task = Function.update s.task t .running
  buffer : s'.buffer = Function.update s.buffer c.bh { s.buffer c.bh with dirt := false }
  core : s'.core = s.core
  disk : s'.disk = s.disk

theorem Kept.add_of_ne (h : s.Kept b i v) (ha : s.Added t c req s') (hb : b ≠ c.bh)
    (hfree : (s.request req).dev < 0) : s'.Kept b i v := by
  have hbuffer : s'.buffer b = s.buffer b := by rw [ha.buffer, Function.update_of_ne hb]
  have hnew : ∀ x, (s'.request x).bh = some b → s'.request x = s.request x := by
    intro x hx
    rw [ha.request] at hx ⊢
    by_cases heq : x = req
    · subst heq
      rw [Function.update_self] at hx
      exact absurd (Option.some.inj hx).symm hb
    · rw [Function.update_of_ne heq]
  have hold : ∀ x, 0 ≤ (s.request x).dev → s'.request x = s.request x := by
    intro x hx
    rw [ha.request, Function.update_of_ne]
    rintro rfl
    exact absurd hx (not_le.2 hfree)
  constructor
  · rw [hbuffer, ha.core]
    exact h.uptodate
  · rw [hbuffer]
    exact h.dirt
  · intro x hx
    rw [hbuffer]
    exact h.writes x (hnew x hx.2.1 ▸ hx)
  · intro x hx
    rw [ha.core]
    exact h.fetched x (hnew x hx.2.1 ▸ hx)
  · rw [hbuffer, ha.disk]
    rcases h.disk with hd | ⟨x, hx⟩ | hd
    · exact .inl hd
    · exact .inr (.inl ⟨x, by rw [hold x hx.1.1]; exact hx⟩)
    · exact .inr (.inr hd)

theorem Kept.add_self (h : s.Kept c.bh i v) (ha : s.Added t c req s')
    (hfree : (s.request req).dev < 0)
    (hread : c.rw = READ → (s.buffer c.bh).uptodate = false) (hcmd : c.rw = READ ∨ c.rw = WRITE)
    (hwrite : c.rw = WRITE → (s.buffer c.bh).dirt = true) : s'.Kept c.bh i v := by
  have hbuffer : s'.buffer c.bh = { s.buffer c.bh with dirt := false } := by
    rw [ha.buffer, Function.update_self]
  have hself : s'.request req = newRequest c (s.buffer c.bh) := by
    rw [ha.request, Function.update_self]
  have hother : ∀ x, x ≠ req → s'.request x = s.request x := by
    intro x hx
    rw [ha.request, Function.update_of_ne hx]
  constructor
  · rw [hbuffer, ha.core]
    exact h.uptodate
  · rw [hbuffer]
    exact fun hno => absurd hno Bool.false_ne_true
  · intro x hx
    rw [hbuffer]
    by_cases heq : x = req
    · rw [heq, hself] at hx
      exact h.dirt (hwrite hx.2.2)
    · exact h.writes x (hother x heq ▸ hx)
  · intro x hx
    rw [ha.core]
    by_cases heq : x = req
    · rw [heq, hself] at hx
      obtain ⟨-, -, -, hlt⟩ := hx
      simp only [newRequest] at hlt
      omega
    · exact h.fetched x (hother x heq ▸ hx)
  · rw [hbuffer, ha.disk]
    dsimp only
    rcases hcmd with hr | hw
    · rcases h.disk with hd | ⟨x, hx⟩ | hd
      · have hup := h.dirt hd
        rw [hread hr] at hup
        cases hup
      · refine .inr (.inl ⟨x, ?_⟩)
        rw [hother x]
        · exact hx
        · rintro rfl
          exact absurd hx.1.1 (not_le.2 hfree)
      · exact .inr (.inr hd)
    · refine .inr (.inl ⟨req, ?_⟩)
      rw [hself]
      exact ⟨⟨Int.natCast_nonneg _, rfl, hw⟩, Nat.le_add_left 2 i⟩

theorem Coherent.add (h : s.Coherent k) (hinv : s.Inv queue) (ht : s.task t = .locked c)
    (hfree : (s.request req).dev < 0) (ha : s.Added t c req s') : s'.Coherent k := by
  obtain ⟨⟨hcmd, -⟩, hread⟩ := hinv.locked t c ht
  have hhead : ∀ b, (s'.buffer b).dev = (s.buffer b).dev ∧
      (s'.buffer b).blocknr = (s.buffer b).blocknr := by
    intro b
    rw [ha.buffer]
    by_cases hb : b = c.bh
    · subst hb
      rw [Function.update_self]
      exact ⟨rfl, rfl⟩
    · rw [Function.update_of_ne hb]
      exact ⟨rfl, rfl⟩
  constructor
  · intro b i v hi hdev hk
    rw [(hhead b).1] at hdev
    rw [(hhead b).1, (hhead b).2] at hk
    have hkept := h.kept b i v hi hdev hk
    by_cases hb : b = c.bh
    · subst hb
      exact hkept.add_self ha hfree hread hcmd (h.dirt t c ht)
    · exact hkept.add_of_ne ha hb hfree
  · intro dev block i v hi hdev hno hk
    rw [ha.disk]
    refine h.disk dev block i v hi hdev (fun b hb => hno b ?_) hk
    unfold Has
    rw [(hhead b).1, (hhead b).2]
    exact hb
  · intro t' c' ht' hrw
    rw [ha.task] at ht'
    by_cases heq : t' = t
    · subst heq
      rw [Function.update_self] at ht'
      cases ht'
    · rw [Function.update_of_ne heq] at ht'
      rw [ha.buffer, Function.update_of_ne]
      · exact h.dirt t' c' ht' hrw
      · intro hbh
        have hno := hinv.owned.unique _ _ _ (task_owns ht') (hbh ▸ task_owns ht)
        cases hno
        exact heq rfl

theorem Coherent.repeatRequest (h : s.Coherent k) (hinv : s.Inv queue) (ht : s.task t = .locked c)
    (hstep : s.repeatRequest t c = .ok s') : s'.Coherent k := by
  unfold Devices.repeatRequest at hstep
  split at hstep
  next =>
    split at hstep
    next =>
      cases hstep
      exact h.unlock hinv ht .notLocked
    next =>
      cases hstep
      exact h
  next req hfind =>
    obtain ⟨hlt, hfree⟩ := findRequest_eq_some hfind
    obtain ⟨next, current, l, heq, -, -⟩ := hinv.addRequest ht hfree hlt
    rw [heq] at hstep
    cases hstep
    exact h.add hinv ht hfree ⟨rfl, rfl, rfl, rfl, rfl⟩

theorem Coherent.lockBuffer (h : s.Coherent k) (hinv : s.Inv queue)
    (hbefore : ∀ c, s.task t ≠ .locked c) (hc : c.Sound s.buffer)
    (hstep : s.lockBuffer t c = .ok s') : s'.Coherent k := by
  rw [lockBuffer_eq] at hstep
  split at hstep
  next =>
    cases hstep
    exact h.setTask fun c hno => by cases hno
  next hlock =>
    rw [Bool.not_eq_true] at hlock
    split at hstep
    next =>
      cases hstep
      exact h.setTask fun c hno => by cases hno
    next hidle =>
      have hlocked := hinv.lockedBy hbefore hc hlock fun hread => by
        rw [← Bool.not_eq_true]
        exact fun hup => hidle (.inr ⟨hread, hup⟩)
      exact (h.lockedBy hidle).repeatRequest hlocked (Function.update_self ..) hstep

/-! ## A sector is moved -/

/-- The slots of a state after a step on the current request. -/
structure OnCurrent (s : Devices σ n) (b : Fin n) (cur : ℕ) (s' : Devices σ n) : Prop where
  other : ∀ x, x ≠ cur → s'.request x = s.request x
  bh : 0 ≤ (s'.request cur).dev → (s'.request cur).bh = some b

/-- A step on the current request leaves the other buffers alone. -/
theorem Kept.other (h : s.Kept b' i v) (hb : (s.request cur).bh = some b) (hne : b' ≠ b)
    (hslot : s.OnCurrent b cur s') (hbuffer : s'.buffer b' = s.buffer b')
    (hcore : s'.core (bData b' + i) = s.core (bData b' + i))
    (hdisk : s'.disk (s.buffer b').dev (2 * (s.buffer b').blocknr + i) =
      s.disk (s.buffer b').dev (2 * (s.buffer b').blocknr + i)) : s'.Kept b' i v := by
  have hnew : ∀ x, 0 ≤ (s'.request x).dev → (s'.request x).bh = some b' → x ≠ cur := by
    rintro x hdev hx rfl
    exact hne (Option.some.inj (hx.symm.trans (hslot.bh hdev)))
  constructor
  · rw [hbuffer, hcore]
    exact h.uptodate
  · rw [hbuffer]
    exact h.dirt
  · intro x hx
    rw [hbuffer]
    exact h.writes x (hslot.other x (hnew x hx.1 hx.2.1) ▸ hx)
  · intro x hx
    rw [hcore]
    exact h.fetched x (hslot.other x (hnew x hx.1 hx.2.1) ▸ hx)
  · rw [hbuffer, hdisk]
    rcases h.disk with hd | ⟨x, hx⟩ | hd
    · exact .inl hd
    · refine .inr (.inl ⟨x, ?_⟩)
      rw [hslot.other x]
      · exact hx
      · rintro rfl
        exact hne (Option.some.inj (hx.1.2.1.symm.trans hb))
    · exact .inr (.inr hd)

/-- The current request of the device, with its buffer and the sectors it has moved. -/
structure AtWork (s : Devices σ n) (cur : ℕ) (b : Fin n) (i : ℕ) : Prop where
  dev : 0 ≤ (s.request cur).dev
  bh : (s.request cur).bh = some b
  moved : i + (s.request cur).nrSectors = 2
  only : ∀ x, 0 ≤ (s.request x).dev → (s.request x).bh = some b → x = cur

theorem AtWork.onCurrent (h : s.AtWork cur b i)
    (hrequest : s'.request = Function.update s.request cur (s.request cur).moved) :
    s.OnCurrent b cur s' where
  other x hx := by rw [hrequest, Function.update_of_ne hx]
  bh _ := by
    rw [hrequest, Function.update_self]
    exact h.bh

/-- What is read from the disk is the content of a clean block. -/
theorem Kept.disk_of_read (h : s.Kept b i v) (hup : (s.buffer b).uptodate = false) :
    s.disk (s.buffer b).dev (2 * (s.buffer b).blocknr + i) = v := by
  rcases h.disk with hd | ⟨x, hx⟩ | hd
  · have hno := h.dirt hd
    rw [hup] at hno
    cases hno
  · have hno := h.writes x hx.1
    rw [hup] at hno
    cases hno
  · exact hd

theorem Kept.fetch (h : s.Kept b i v) (hw : s.AtWork cur b j)
    (hcmd : (s.request cur).cmd = READ) (hup : (s.buffer b).uptodate = false)
    (hrequest : s'.request = Function.update s.request cur (s.request cur).moved)
    (hbuffer : s'.buffer = s.buffer) (hdisk : s'.disk = s.disk)
    (hcore : s'.core = Function.update s.core (bData b + j)
      (s.disk (s.buffer b).dev (2 * (s.buffer b).blocknr + j))) : s'.Kept b i v := by
  have hv := h.disk_of_read hup
  have hself : s'.request cur = (s.request cur).moved := by
    rw [hrequest, Function.update_self]
  have honly : ∀ x, 0 ≤ (s'.request x).dev → (s'.request x).bh = some b → x = cur := by
    intro x hdev hbh
    by_cases hx : x = cur
    · exact hx
    · rw [hrequest, Function.update_of_ne hx] at hdev hbh
      exact hw.only x hdev hbh
  constructor
  · intro hno
    rw [hbuffer, hup] at hno
    cases hno
  · rw [hbuffer]
    exact h.dirt
  · intro x hx
    obtain rfl := honly x hx.1 hx.2.1
    rw [hself] at hx
    exact absurd (hcmd.symm.trans hx.2.2) read_ne_write
  · intro x hx
    obtain rfl := honly x hx.1 hx.2.1
    rw [hself] at hx
    have hlt : i + ((s.request x).nrSectors - 1) < 2 := hx.2.2.2
    have hmoved := hw.moved
    rw [hcore]
    by_cases hij : i = j
    · rw [hij, Function.update_self, ← hij, hv]
    · rw [Function.update_of_ne (by omega)]
      exact h.fetched x ⟨hw.dev, hw.bh, hcmd, by omega⟩
  · rw [hbuffer, hdisk]
    exact .inr (.inr hv)

theorem Kept.put (h : s.Kept b i v) (hw : s.AtWork cur b j)
    (hcmd : (s.request cur).cmd = WRITE)
    (hrequest : s'.request = Function.update s.request cur (s.request cur).moved)
    (hbuffer : s'.buffer = s.buffer) (hcore : s'.core = s.core)
    (hput : s'.disk (s.buffer b).dev (2 * (s.buffer b).blocknr + j) = s.core (bData b + j))
    (hdisk : i ≠ j → s'.disk (s.buffer b).dev (2 * (s.buffer b).blocknr + i) =
      s.disk (s.buffer b).dev (2 * (s.buffer b).blocknr + i)) : s'.Kept b i v := by
  have hup := h.writes cur ⟨hw.dev, hw.bh, hcmd⟩
  constructor
  · rw [hbuffer, hcore]
    exact h.uptodate
  · rw [hbuffer]
    exact h.dirt
  · intro x _
    rw [hbuffer]
    exact hup
  · intro x _
    rw [hcore]
    exact h.uptodate hup
  · rw [hbuffer]
    by_cases hij : i = j
    · rw [hij, hput, ← hij]
      exact .inr (.inr (h.uptodate hup))
    · rcases h.disk with hd | ⟨x, hx⟩ | hd
      · exact .inl hd
      · obtain rfl := hw.only x hx.1.1 hx.1.2.1
        refine .inr (.inl ⟨x, ?_⟩)
        rw [hrequest, Function.update_self]
        have hmoved := hw.moved
        have hle := hx.2
        have hleft : 2 ≤ i + ((s.request x).nrSectors - 1) := by omega
        exact ⟨hx.1, hleft⟩
      · rw [hdisk hij]
        exact .inr (.inr hd)

theorem Coherent.transfer (h : s.Coherent k) (hinv : s.Inv queue) (major : ℕ) :
    (s.transfer major).Coherent k := by
  unfold Devices.transfer
  cases hcurrent : (s.blkDev major).current with
  | none => exact h
  | some cur =>
      dsimp only
      split
      next => exact h
      next hnr =>
        obtain ⟨l, hl, -⟩ := hinv.current hcurrent
        have hcur : cur ∈ queue major := by
          rw [hl]
          exact List.mem_cons_self
        have hp := hinv.pending major cur hcur
        obtain ⟨b, hb⟩ := hp.serves
        obtain ⟨j, hj⟩ : ∃ j, j + (s.request cur).nrSectors = 2 := ⟨_, Nat.sub_add_cancel hb.le⟩
        have hw : s.AtWork cur b j :=
          ⟨hp.nonneg, hb.bh, hj, fun x hdev hbh => hinv.slot_unique hcur hb hdev hbh⟩
        have hlt : j < 2 := by omega
        have hsector : (s.request cur).sector = 2 * (s.buffer b).blocknr + j := by
          have := hb.sector
          omega
        have hbuffer : (s.request cur).buffer = bData b + j := by
          have := hb.buffer
          omega
        split
        next hread =>
          refine ⟨fun b' i v hi hdev hk => ?_, h.disk, h.dirt⟩
          have hkept := h.kept b' i v hi hdev hk
          by_cases hne : b' = b
          · subst hne
            refine hkept.fetch hw hread (hb.read hread) rfl rfl rfl ?_
            rw [hsector, hbuffer, hb.dev]
            rfl
          · refine hkept.other hb.bh hne (hw.onCurrent rfl) rfl ?_ rfl
            rw [setCore_core, hbuffer,
              Function.update_of_ne (bData_add_ne hi hlt fun hno => hne hno.1)]
            rfl
        next hread =>
          have hwrite : (s.request cur).cmd = WRITE := by
            rcases hp.cmd with ⟨hr, -⟩ | ⟨hwr, -⟩
            · exact absurd hr hread
            · exact hwr
          have hkeep : ∀ (dev block i : ℕ), i < 2 →
              ¬(dev = (s.buffer b).dev ∧ block = (s.buffer b).blocknr ∧ i = j) →
              (Devices.setDisk (s.request cur).dev (s.request cur).sector
                ((s.setRequest cur (s.request cur).moved).core (s.request cur).buffer)
                (s.setRequest cur (s.request cur).moved)).disk dev (2 * block + i) =
                  s.disk dev (2 * block + i) := by
            intro dev block i hi hno
            rw [setDisk_disk, hb.dev, hsector]
            by_cases hdev : dev = (s.buffer b).dev
            · subst hdev
              rw [Function.update_self, Function.update_of_ne]
              · rfl
              · intro heq
                exact hno ⟨rfl, by omega, by omega⟩
            · rw [Function.update_of_ne (Int.ofNat_inj.not.2 hdev)]
              rfl
          refine ⟨fun b' i v hi hdev hk => ?_, fun dev block i v hi hdev hno hk => ?_, h.dirt⟩
          · have hkept := h.kept b' i v hi hdev hk
            by_cases hne : b' = b
            · subst hne
              refine hkept.put hw hwrite rfl rfl rfl ?_ fun hij => ?_
              · rw [setDisk_disk, hb.dev, hsector, Function.update_self, Function.update_self,
                  hbuffer]
                rfl
              · exact hkeep _ _ i hi fun hno => hij hno.2.2
            · refine hkept.other hb.bh hne (hw.onCurrent rfl) rfl rfl ?_
              exact hkeep _ _ i hi fun hno => hinv.not_has hne hdev ⟨hno.1, hno.2.1⟩
          · rw [hkeep dev block i hi fun heq => hno b ⟨heq.1.symm, heq.2.1.symm⟩]
            exact h.disk dev block i v hi hdev hno hk

/-! ## A request is completed -/

/-- The state after `end_request`. -/
structure Ended (s : Devices σ n) (cur : ℕ) (b : Fin n) (uptodate : Bool) (s' : Devices σ n) :
    Prop where
  request : s'.request = Function.update s.request cur { s.request cur with dev := -1 }
  buffer : s'.buffer =
    Function.update s.buffer b { s.buffer b with uptodate := uptodate, lock := false }
  task : s'.task = s.task
  core : s'.core = s.core
  disk : s'.disk = s.disk

theorem Ended.onCurrent {uptodate : Bool} (h : s.Ended cur b uptodate s') :
    s.OnCurrent b cur s' where
  other x hx := by rw [h.request, Function.update_of_ne hx]
  bh hdev := by
    rw [h.request, Function.update_self] at hdev
    exact absurd hdev negOne_lt

theorem Ended.no_slot {uptodate : Bool} (h : s.Ended cur b uptodate s') (hw : s.AtWork cur b j)
    (x : ℕ) (hdev : 0 ≤ (s'.request x).dev) : (s'.request x).bh ≠ some b := by
  intro hbh
  by_cases hx : x = cur
  · subst hx
    rw [h.request, Function.update_self] at hdev
    exact negOne_lt hdev
  · rw [h.request, Function.update_of_ne hx] at hdev hbh
    exact hx (hw.only x hdev hbh)

/-- All sectors of the request are moved. -/
theorem Kept.end_good (h : s.Kept b i v) (hw : s.AtWork cur b 2)
    (hcmd : (s.request cur).cmd = READ ∨ (s.request cur).cmd = WRITE) (hi : i < 2)
    (hread : (s.request cur).cmd = READ → (s.buffer b).uptodate = false)
    (he : s.Ended cur b true s') : s'.Kept b i v := by
  have hnr : (s.request cur).nrSectors = 0 := by
    have := hw.moved
    omega
  have hbuffer : s'.buffer b = { s.buffer b with uptodate := true, lock := false } := by
    rw [he.buffer, Function.update_self]
  have hcore : s.core (bData b + i) = v := by
    rcases hcmd with hr | hwr
    · exact h.fetched cur ⟨hw.dev, hw.bh, hr, by omega⟩
    · exact h.uptodate (h.writes cur ⟨hw.dev, hw.bh, hwr⟩)
  constructor
  · intro _
    rw [he.core, hcore]
  · intro _
    rw [hbuffer]
  · intro x _
    rw [hbuffer]
  · intro x _
    rw [he.core, hcore]
  · rw [hbuffer, he.disk]
    rcases h.disk with hd | ⟨x, hx⟩ | hd
    · exact .inl hd
    · obtain rfl := hw.only x hx.1.1 hx.1.2.1
      have := hx.2
      omega
    · exact .inr (.inr hd)

/-- A read that fails leaves the block on the disk. -/
theorem Kept.end_bad_read (h : s.Kept b i v) (hw : s.AtWork cur b j)
    (hup : (s.buffer b).uptodate = false) (he : s.Ended cur b false s') : s'.Kept b i v := by
  have hbuffer : s'.buffer b = { s.buffer b with uptodate := false, lock := false } := by
    rw [he.buffer, Function.update_self]
  constructor
  · rw [hbuffer]
    exact fun hno => absurd hno Bool.false_ne_true
  · rw [hbuffer]
    intro hd
    have hno := h.dirt hd
    rw [hup] at hno
    cases hno
  · exact fun x hx => absurd hx.2.1 (he.no_slot hw x hx.1)
  · exact fun x hx => absurd hx.2.1 (he.no_slot hw x hx.1)
  · rw [hbuffer, he.disk]
    exact .inr (.inr (h.disk_of_read hup))

theorem Coherent.ended (h : s.Coherent k) (hinv : s.Inv queue) (hcur : cur ∈ queue major)
    (hb : (s.request cur).Serves b (s.buffer b)) {uptodate : Bool}
    (hgood : uptodate = true → (s.request cur).nrSectors = 0) (he : s.Ended cur b uptodate s') :
    s'.Coherent (if uptodate = false ∧ (s.request cur).cmd = WRITE then
      setBlock (s.buffer b).dev (s.buffer b).blocknr (fun _ => none) k else k) := by
  have hp := hinv.pending major cur hcur
  have hcmd : (s.request cur).cmd = READ ∨ (s.request cur).cmd = WRITE :=
    hp.cmd.imp (fun h => h.1) fun h => h.1
  have hhead : ∀ b', (s'.buffer b').dev = (s.buffer b').dev ∧
      (s'.buffer b').blocknr = (s.buffer b').blocknr ∧
        (s'.buffer b').dirt = (s.buffer b').dirt := by
    intro b'
    rw [he.buffer]
    by_cases hb' : b' = b
    · subst hb'
      rw [Function.update_self]
      exact ⟨rfl, rfl, rfl⟩
    · rw [Function.update_of_ne hb']
      exact ⟨rfl, rfl, rfl⟩
  have hcontent : ∀ dev block i, i < 2 →
      ¬(dev = (s.buffer b).dev ∧ block = (s.buffer b).blocknr) →
      (if uptodate = false ∧ (s.request cur).cmd = WRITE then
        setBlock (s.buffer b).dev (s.buffer b).blocknr (fun _ => none) k else k)
          dev (2 * block + i) = k dev (2 * block + i) := by
    intro dev block i hi hno
    split
    next => exact setBlock_of_ne hi hno
    next => rfl
  constructor
  · intro b' i v hi hdev hk
    rw [(hhead b').1] at hdev
    rw [(hhead b').1, (hhead b').2.1] at hk
    by_cases hne : b' = b
    · subst hne
      have hw : ∀ j, j + (s.request cur).nrSectors = 2 → s.AtWork cur b' j := fun j hj =>
        ⟨hp.nonneg, hb.bh, hj, fun x hdev hbh => hinv.slot_unique hcur hb hdev hbh⟩
      cases uptodate with
      | true =>
          rw [if_neg fun hno => by cases hno.1] at hk
          have hnr := hgood rfl
          exact (h.kept b' i v hi hdev hk).end_good (hw 2 (by omega)) hcmd hi hb.read he
      | false =>
          by_cases hwrite : (s.request cur).cmd = WRITE
          · rw [if_pos ⟨rfl, hwrite⟩, setBlock_self hi] at hk
            cases hk
          · rw [if_neg fun hno => hwrite hno.2] at hk
            exact (h.kept b' i v hi hdev hk).end_bad_read (hw _ (Nat.sub_add_cancel hb.le))
              (hb.read (hcmd.resolve_right hwrite)) he
    · rw [hcontent _ _ i hi (hinv.not_has hne hdev)] at hk
      refine (h.kept b' i v hi hdev hk).other hb.bh hne he.onCurrent ?_ ?_ ?_
      · rw [he.buffer, Function.update_of_ne hne]
      · rw [he.core]
      · rw [he.disk]
  · intro dev block i v hi hdev hno hk
    have hno' : ∀ b', ¬s.Has b' dev block := by
      intro b' hb'
      refine hno b' ?_
      unfold Has
      rw [(hhead b').1, (hhead b').2.1]
      exact hb'
    rw [hcontent dev block i hi fun heq => hno' b ⟨heq.1.symm, heq.2.symm⟩] at hk
    rw [he.disk]
    exact h.disk dev block i v hi hdev hno' hk
  · intro t c ht hrw
    rw [he.task] at ht
    rw [(hhead c.bh).2.2]
    exact h.dirt t c ht hrw

theorem Coherent.complete (h : s.Coherent k) (hinv : s.Inv queue) {uptodate : Bool}
    (hstep : s.complete major uptodate = .ok s') :
    s'.Coherent (s.stored k (.complete major uptodate)) := by
  unfold Devices.complete at hstep
  cases hcurrent : (s.blkDev major).current with
  | none =>
      rw [hcurrent] at hstep
      cases hstep
      cases uptodate with
      | true => exact h
      | false =>
          unfold stored
          simp only [hcurrent]
          exact h
  | some cur =>
      rw [hcurrent] at hstep
      dsimp only at hstep
      obtain ⟨l, hl, -⟩ := hinv.current hcurrent
      have hcur : cur ∈ queue major := by
        rw [hl]
        exact List.mem_cons_self
      obtain ⟨b, hb⟩ := (hinv.pending major cur hcur).serves
      have hstored : s.stored k (.complete major uptodate) =
          if uptodate = false ∧ (s.request cur).cmd = WRITE then
            setBlock (s.buffer b).dev (s.buffer b).blocknr (fun _ => none) k else k := by
        cases uptodate with
        | true => rfl
        | false => simp only [stored, hcurrent, hb.bh, true_and]
      split at hstep
      next hearly =>
        cases hstep
        rw [hstored, if_neg fun hno => by rw [hno.1] at hearly; cases hearly.1]
        exact h
      next hlate =>
        rw [(hinv.endRequest hl hcurrent uptodate).initRequest major] at hstep
        cases hstep
        obtain ⟨printed, heq, -⟩ := hinv.endRequest_eq hcur hb uptodate
        rw [hstored]
        refine h.ended hinv hcur hb (fun hup => ?_) ?_
        · rw [← not_not (a := (s.request cur).nrSectors = 0)]
          exact fun hno => hlate ⟨hup, hno⟩
        · rw [heq]
          exact ⟨rfl, rfl, rfl, rfl, rfl⟩

/-! ## The cache -/

/-- No request is for a buffer that is not locked. -/
theorem Inv.no_slot (h : s.Inv queue) (hlock : (s.buffer b).lock = false) (x : ℕ)
    (hdev : 0 ≤ (s.request x).dev) : (s.request x).bh ≠ some b :=
  fun hbh => h.owned.not_owns hlock (.slot x) ⟨hdev, hbh⟩

/-- A clean buffer that is not locked agrees with the disk. -/
theorem Kept.disk_of_clean (h : s.Kept b i v) (hinv : s.Inv queue)
    (hlock : (s.buffer b).lock = false) (hdirt : (s.buffer b).dirt = false) :
    s.disk (s.buffer b).dev (2 * (s.buffer b).blocknr + i) = v := by
  rcases h.disk with hd | ⟨x, hx⟩ | hd
  · rw [hdirt] at hd
    cases hd
  · exact absurd hx.1.2.1 (hinv.no_slot hlock x hx.1.1)
  · exact hd

theorem Coherent.reuse (h : s.Coherent k) (hinv : s.Inv queue) {dev block : ℕ}
    (hok : s.Reusable b dev block) :
    (s.modify b fun _ => ⟨dev, block, false, false, false⟩).Coherent k := by
  obtain ⟨hlock, hdirt, -, hdev, -, -, hfind⟩ := hok
  have hself : (s.modify b fun _ => ⟨dev, block, false, false, false⟩).buffer b =
      ⟨dev, block, false, false, false⟩ := Function.update_self ..
  have hother : ∀ b' ≠ b,
      (s.modify b fun _ => ⟨dev, block, false, false, false⟩).buffer b' = s.buffer b' :=
    fun b' hb => Function.update_of_ne hb ..
  constructor
  · intro b' i v hi hdev' hk
    by_cases hb : b' = b
    · subst hb
      rw [hself] at hk
      constructor
      · rw [hself]
        exact fun hno => absurd hno Bool.false_ne_true
      · rw [hself]
        exact fun hno => absurd hno Bool.false_ne_true
      · exact fun x hx => absurd hx.2.1 (hinv.no_slot hlock x hx.1)
      · exact fun x hx => absurd hx.2.1 (hinv.no_slot hlock x hx.1)
      · rw [hself]
        exact .inr (.inr (h.disk dev block i v hi hdev (fun b'' hb'' => hfind b'' hb'') hk))
    · rw [hother b' hb] at hdev' hk
      exact (h.kept b' i v hi hdev' hk).congr (by rw [hother b' hb]; exact ⟨rfl, rfl, rfl, rfl⟩)
        rfl rfl rfl
  · intro dev' block' i v hi hdev' hno hk
    by_cases hb : s.Has b dev' block'
    · obtain ⟨rfl, rfl⟩ := hb
      exact (h.kept b i v hi hdev' hk).disk_of_clean hinv hlock hdirt
    · refine h.disk dev' block' i v hi hdev' (fun b' hb' => ?_) hk
      by_cases hbb : b' = b
      · exact hb (hbb ▸ hb')
      · refine hno b' ?_
        unfold Has
        rw [hother b' hbb]
        exact hb'
  · intro t c ht hrw
    rw [hother]
    · exact h.dirt t c ht hrw
    · rintro hbh
      exact hinv.owned.not_owns hlock _ (hbh ▸ task_owns ht)

/-- The cache changes a buffer and what is known of its block. -/
theorem Coherent.change (h : s.Coherent k) (hinv : s.Inv queue) {k' : ℕ → ℕ → Option σ}
    (hbuffer : ∀ b' ≠ b, s'.buffer b' = s.buffer b')
    (hdev : (s'.buffer b).dev = (s.buffer b).dev)
    (hblock : (s'.buffer b).blocknr = (s.buffer b).blocknr)
    (hcore : ∀ b' ≠ b, ∀ i < 2, s'.core (bData b' + i) = s.core (bData b' + i))
    (hk : ∀ dev block i, i < 2 → ¬(dev = (s.buffer b).dev ∧ block = (s.buffer b).blocknr) →
      k' dev (2 * block + i) = k dev (2 * block + i))
    (hself : ∀ i v, i < 2 → (s.buffer b).dev ≠ 0 →
      k' (s.buffer b).dev (2 * (s.buffer b).blocknr + i) = some v → s'.Kept b i v)
    (hdirt : (s.buffer b).lock = true → (s.buffer b).dirt = true → (s'.buffer b).dirt = true)
    (hrequest : s'.request = s.request) (htask : s'.task = s.task) (hdisk : s'.disk = s.disk) :
    s'.Coherent k' := by
  have hhead : ∀ b', (s'.buffer b').dev = (s.buffer b').dev ∧
      (s'.buffer b').blocknr = (s.buffer b').blocknr := by
    intro b'
    by_cases hb : b' = b
    · subst hb
      exact ⟨hdev, hblock⟩
    · rw [hbuffer b' hb]
      exact ⟨rfl, rfl⟩
  constructor
  · intro b' i v hi hdev' hkv
    rw [(hhead b').1] at hdev'
    rw [(hhead b').1, (hhead b').2] at hkv
    by_cases hb : b' = b
    · subst hb
      exact hself i v hi hdev' hkv
    · rw [hk _ _ i hi (hinv.not_has hb hdev')] at hkv
      have hkept := h.kept b' i v hi hdev' hkv
      constructor
      · rw [hbuffer b' hb, hcore b' hb i hi]
        exact hkept.uptodate
      · rw [hbuffer b' hb]
        exact hkept.dirt
      · rw [hbuffer b' hb, hrequest]
        exact hkept.writes
      · rw [hrequest, hcore b' hb i hi]
        exact hkept.fetched
      · rw [hbuffer b' hb, hrequest, hdisk]
        exact hkept.disk
  · intro dev block i v hi hdev' hno hkv
    have hno' : ∀ b', ¬s.Has b' dev block := by
      intro b' hb'
      refine hno b' ?_
      unfold Has
      rw [(hhead b').1, (hhead b').2]
      exact hb'
    rw [hk dev block i hi fun heq => hno' b ⟨heq.1.symm, heq.2.symm⟩] at hkv
    rw [hdisk]
    exact h.disk dev block i v hi hdev' hno' hkv
  · intro t c ht hrw
    rw [htask] at ht
    have hd := h.dirt t c ht hrw
    by_cases hb : c.bh = b
    · rw [hb] at hd ⊢
      exact hdirt (hb ▸ hinv.task_locked ht) hd
    · rw [hbuffer _ hb]
      exact hd

theorem Coherent.store (h : s.Coherent k) (hinv : s.Inv queue) (hup : (s.buffer b).uptodate = true)
    (f : Fin 2) (v : σ) :
    ((s.setCore (bData b + f) v).modify b fun h => { h with dirt := true }).Coherent
      (s.stored k (.store b f v)) := by
  have hstored : s.stored k (.store b f v) = Function.update k (s.buffer b).dev
      (Function.update (k (s.buffer b).dev) (2 * (s.buffer b).blocknr + f) (some v)) := if_pos hup
  have hself : ((s.setCore (bData b + f) v).modify b fun h => { h with dirt := true }).buffer b =
      { s.buffer b with dirt := true } := Function.update_self ..
  rw [hstored]
  refine h.change hinv (b := b) (fun b' hb => Function.update_of_ne hb ..) (by rw [hself])
    (by rw [hself]) (fun b' hb i hi => ?_) (fun dev block i hi hno => ?_) (fun i w hi hdev hk => ?_)
    (fun _ _ => by rw [hself]) rfl rfl rfl
  · exact Function.update_of_ne (bData_add_ne hi f.isLt fun hno => hb hno.1) ..
  · by_cases hd : dev = (s.buffer b).dev
    · subst hd
      rw [Function.update_self, Function.update_of_ne]
      have hlt := f.isLt
      have hbl : block ≠ (s.buffer b).blocknr := fun hno' => hno ⟨rfl, hno'⟩
      omega
    · rw [Function.update_of_ne hd]
  · rw [Function.update_self] at hk
    have hcore : ((s.setCore (bData b + f) v).modify b fun h => { h with dirt := true }).core
        (bData b + i) = w := by
      show Function.update s.core (bData b + f) v (bData b + i) = w
      by_cases hif : i = f
      · rw [hif, Function.update_self] at hk ⊢
        exact Option.some.inj hk
      · rw [Function.update_of_ne (by omega)] at hk ⊢
        exact (h.kept b i w hi hdev hk).uptodate hup
    refine ⟨fun _ => hcore, fun _ => by rw [hself]; exact hup, fun x _ => by rw [hself]; exact hup,
      fun x _ => hcore, ?_⟩
    rw [hself]
    exact .inl rfl

theorem Coherent.fill (h : s.Coherent k) (hinv : s.Inv queue) (hlock : (s.buffer b).lock = false)
    (hdev : (s.buffer b).dev ≠ 0) (v : Fin 2 → σ) :
    (((s.setCore (bData b) (v 0)).setCore (bData b + 1) (v 1)).modify b
      fun h => { h with uptodate := true, dirt := true }).Coherent (s.stored k (.fill b v)) := by
  have hstored : s.stored k (.fill b v) =
      setBlock (s.buffer b).dev (s.buffer b).blocknr (fun i => some (v i)) k :=
    if_pos ⟨hlock, hdev⟩
  have hself : (((s.setCore (bData b) (v 0)).setCore (bData b + 1) (v 1)).modify b
      fun h => { h with uptodate := true, dirt := true }).buffer b =
        { s.buffer b with uptodate := true, dirt := true } := Function.update_self ..
  rw [hstored]
  refine h.change hinv (b := b) (fun b' hb => Function.update_of_ne hb ..) (by rw [hself])
    (by rw [hself]) (fun b' hb i hi => ?_) (fun dev block i hi hno => setBlock_of_ne hi hno)
    (fun i w hi _ hk => ?_) (fun _ _ => by rw [hself]) rfl rfl rfl
  · show Function.update (Function.update s.core (bData b) (v 0)) (bData b + 1) (v 1)
      (bData b' + i) = _
    rw [Function.update_of_ne (bData_add_ne hi Nat.one_lt_two fun hno => hb hno.1),
      Function.update_of_ne]
    exact bData_add_ne (j := 0) hi Nat.two_pos fun hno => hb hno.1
  · rw [setBlock_self hi] at hk
    have hcore : (((s.setCore (bData b) (v 0)).setCore (bData b + 1) (v 1)).modify b
        fun h => { h with uptodate := true, dirt := true }).core (bData b + i) = w := by
      show Function.update (Function.update s.core (bData b) (v 0)) (bData b + 1) (v 1)
        (bData b + i) = w
      rw [← Option.some.inj hk]
      match i, hi with
      | 0, _ => rw [Function.update_of_ne (by omega), Nat.add_zero, Function.update_self]; rfl
      | 1, _ => rw [Function.update_self]; rfl
    refine ⟨fun _ => hcore, fun _ => by rw [hself], fun x _ => by rw [hself], fun x _ => hcore, ?_⟩
    rw [hself]
    exact .inl rfl

theorem Coherent.forget (h : s.Coherent k) (hinv : s.Inv queue)
    (hlock : (s.buffer b).lock = false) :
    (s.modify b fun h => { h with uptodate := false, dirt := false }).Coherent
      (s.stored k (.forget b)) := by
  have hstored : s.stored k (.forget b) =
      setBlock (s.buffer b).dev (s.buffer b).blocknr (fun _ => none) k := by
    unfold stored
    dsimp only
    rw [hlock]
    rfl
  have hself : (s.modify b fun h => { h with uptodate := false, dirt := false }).buffer b =
      { s.buffer b with uptodate := false, dirt := false } := Function.update_self ..
  rw [hstored]
  refine h.change hinv (b := b) (fun b' hb => Function.update_of_ne hb ..) (by rw [hself])
    (by rw [hself]) (fun b' hb i hi => rfl) (fun dev block i hi hno => setBlock_of_ne hi hno)
    (fun i w hi _ hk => ?_) (fun hno _ => ?_) rfl rfl rfl
  · rw [setBlock_self hi] at hk
    cases hk
  · rw [hlock] at hno
    cases hno

/-! ## Runs -/

theorem Coherent.llRwBlock (h : s.Coherent k) (hinv : s.Inv queue)
    (hbefore : ∀ c, s.task t ≠ .locked c) {rw : ℤ} (hstep : s.llRwBlock t rw b = .ok s') :
    s'.Coherent k := by
  unfold Devices.llRwBlock at hstep
  dsimp only at hstep
  split at hstep
  next =>
    cases hstep
    exact h.congr (fun b => ⟨rfl, rfl, rfl, rfl⟩) rfl rfl rfl h.dirt
  next =>
    unfold Devices.makeRequest at hstep
    split at hstep
    next =>
      split at hstep
      next =>
        cases hstep
        exact h
      next =>
        refine h.lockBuffer hinv hbefore ⟨?_, rfl⟩ hstep
        dsimp only
        split
        next => exact .inl rfl
        next => exact .inr rfl
    next =>
      split at hstep
      next => cases hstep
      next hgood =>
        refine h.lockBuffer hinv hbefore ⟨?_, rfl⟩ hstep
        dsimp only
        tauto

theorem Coherent.step (h : s.Coherent k) (hinv : s.Inv queue) {a : DevAction σ n}
    (hstep : s.step a = .ok s') : s'.Coherent (s.stored k a) := by
  cases a with
  | llRwBlock t rw b =>
      unfold Devices.step at hstep
      dsimp only at hstep
      split at hstep
      next ht =>
        refine h.llRwBlock hinv (fun c hno => ?_) hstep
        rw [ht] at hno
        cases hno
      next =>
        cases hstep
        exact h
  | resume t =>
      unfold Devices.step at hstep
      dsimp only at hstep
      split at hstep
      next =>
        cases hstep
        exact h
      next c ht =>
        refine h.lockBuffer hinv (fun c hno => ?_) (hinv.locking t c ht) hstep
        rw [ht] at hno
        cases hno
      next c ht => exact h.repeatRequest hinv ht hstep
  | transfer major =>
      cases hstep
      exact h.transfer hinv major
  | complete major uptodate => exact h.complete hinv hstep
  | reuse b dev block =>
      unfold Devices.step at hstep
      dsimp only at hstep
      split at hstep
      next hok =>
        cases hstep
        exact h.reuse hinv hok
      next =>
        cases hstep
        exact h
  | store b f v =>
      unfold Devices.step at hstep
      dsimp only at hstep
      split at hstep
      next hup =>
        cases hstep
        exact h.store hinv hup f v
      next hup =>
        cases hstep
        rw [show s.stored k (.store b f v) = k from if_neg hup]
        exact h
  | fill b v =>
      unfold Devices.step at hstep
      dsimp only at hstep
      split at hstep
      next hok =>
        cases hstep
        exact h.fill hinv hok.1 hok.2 v
      next hno =>
        cases hstep
        rw [show s.stored k (.fill b v) = k from if_neg hno]
        exact h
  | forget b =>
      unfold Devices.step at hstep
      dsimp only at hstep
      split at hstep
      next hlock =>
        cases hstep
        rw [show s.stored k (.forget b) = k from if_pos hlock]
        exact h
      next hlock =>
        cases hstep
        exact h.forget hinv (Bool.eq_false_iff.2 hlock)

theorem Coherent.run (h : s.Coherent k) (hinv : s.Inv queue) {as : List (DevAction σ n)}
    (hrun : run as s = .ok s') : s'.Coherent (contents as s k) ∧ ∃ queue', s'.Inv queue' := by
  induction as generalizing s k queue with
  | nil =>
      cases hrun
      exact ⟨h, queue, hinv⟩
  | cons a as ih =>
      rw [Devices.run] at hrun
      rcases hinv.step a with ⟨s₁, queue₁, hstep, hinv₁⟩ | ⟨herr, -⟩
      · rw [hstep] at hrun
        rw [contents, hstep]
        exact ih (h.step hinv hstep) hinv₁ hrun
      · rw [herr] at hrun
        cases hrun

theorem coherent_boot (requestFn : ℕ → Bool) (core : ℕ → σ) (disk : ℤ → ℕ → σ) :
    (boot requestFn core disk : Devices σ n).Coherent fun dev sector => some (disk dev sector) where
  kept _ _ _ _ hdev _ := absurd rfl hdev
  disk _ _ _ _ _ _ _ hk := Option.some.inj hk
  dirt _ _ ht := by cases ht

/-- After any run, a buffer that is up to date has the content of its block; and so
has the disk, unless a buffer of the block is dirty or locked. -/
theorem contents_kept {requestFn : ℕ → Bool} {core : ℕ → σ} {disk : ℤ → ℕ → σ}
    {as : List (DevAction σ n)} (hrun : run as (boot requestFn core disk) = .ok s) (dev block : ℕ)
    (i : Fin 2) (hdev : dev ≠ 0) (v : σ)
    (hv : contents as (boot requestFn core disk : Devices σ n)
      (fun dev sector => some (disk dev sector)) dev (2 * block + i) = some v) :
    (∀ b, s.Has b dev block → (s.buffer b).uptodate = true → s.core (bData b + i) = v) ∧
      ((∀ b, s.Has b dev block → (s.buffer b).dirt = false ∧ (s.buffer b).lock = false) →
        s.disk dev (2 * block + i) = v) := by
  obtain ⟨hcoherent, queue, hinv⟩ :=
    (coherent_boot requestFn core disk).run (inv_boot requestFn core disk) hrun
  constructor
  · rintro b ⟨rfl, rfl⟩ hup
    exact (hcoherent.kept b i v i.isLt hdev hv).uptodate hup
  · intro hclean
    by_cases hb : ∃ b, s.Has b dev block
    · obtain ⟨b, hb⟩ := hb
      obtain ⟨hdirt, hlock⟩ := hclean b hb
      obtain ⟨rfl, rfl⟩ := hb
      exact (hcoherent.kept b i v i.isLt hdev hv).disk_of_clean hinv hlock hdirt
    · exact hcoherent.disk dev block i v i.isLt hdev (fun b hno => hb ⟨b, hno⟩) hv

/-- A block is read, a sector of it is changed and written, and the buffer goes to
another block. -/
theorem contents_kept_write :
    let as : List (DevAction ℕ 1) := [.reuse 0 0x301 7, .llRwBlock 0 READ 0, .transfer 3,
      .transfer 3, .complete 3 true, .store 0 1 99, .llRwBlock 0 WRITE 0, .transfer 3, .transfer 3,
      .complete 3 true, .reuse 0 0x301 8]
    ∃ s, run as (boot (· = 3) id fun _ => id) = .ok s ∧
      (∀ b, s.Has b 0x301 7 → (s.buffer b).uptodate = true → s.core (bData b + (1 : Fin 2)) = 99) ∧
        ((∀ b, s.Has b 0x301 7 → (s.buffer b).dirt = false ∧ (s.buffer b).lock = false) →
          s.disk (0x301 : ℕ) (2 * 7 + (1 : Fin 2)) = 99) := by
  intro as
  rcases (inv_boot (· = 3) id fun _ => id).run as with ⟨s, -, hrun, -⟩ | ⟨herr, -⟩
  · exact ⟨s, hrun, contents_kept hrun 0x301 7 1 (by decide) 99 (by decide +kernel)⟩
  · have hok : (run as (boot (· = 3) id fun _ => id)).isOk = true := by decide +kernel
    rw [herr] at hok
    cases hok

end Devices

end

end MyJavaExample.Blk
