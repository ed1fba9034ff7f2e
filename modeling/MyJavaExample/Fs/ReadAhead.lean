import MyJavaExample.Fs.Buffer

/-!
# Reading ahead: `fs/buffer.c`, `kernel/blk_drv/ll_rw_blk.c`

`breada` gets a buffer for each block of its list in turn.  While `getblk` sleeps,
other tasks and the disk run; what they do is part of the list.  When `getblk`
returns, the buffer is not locked, and the rest of the round runs at once: a read
ahead never sleeps.
-/

namespace MyJavaExample.Fs

def NR_REQUEST : ℕ := 32

inductive Rw where
  | read
  | write
  | reada
  | writea
deriving DecidableEq

namespace Rw

/-- `rw_ahead`. -/
def ahead : Rw → Bool
  | .reada | .writea => true
  | .read | .write => false

/-- The command without the read ahead. -/
def cmd : Rw → Rw
  | .reada => .read
  | .writea => .write
  | rw => rw

end Rw

/-- The cache with the requests to the disks. -/
structure Drive (τ : Type) (n : ℕ) where
  cache : Cache τ n
  /-- The buffers of the elements of `request` that are in use. -/
  request : ℕ → Option (Fin n)
  /-- The requests that the call has queued. -/
  queued : List (Rw × Fin n)

namespace Drive

variable {τ : Type} [DecidableEq τ] {n : ℕ}

/-- The last of the first `k` elements of `request` that is not in use. -/
def findRequest (request : ℕ → Option (Fin n)) : ℕ → Option ℕ
  | 0 => none
  | k + 1 => if (request k).isNone then some k else findRequest request k

/-- `make_request`, `none` where it sleeps. -/
def makeRequest (rw : Rw) (bh : Fin n) (s : Drive τ n) : Option (Drive τ n) :=
  let h := s.cache.head bh
  if rw.ahead ∧ h.lock then some s
  else if h.lock then none
  else if (rw.cmd = .write ∧ h.dirt = false) ∨ (rw.cmd = .read ∧ h.uptodate) then some s
  else
    match findRequest s.request (if rw.cmd = .read then NR_REQUEST else NR_REQUEST * 2 / 3) with
    | none => if rw.ahead then some s else none
    | some i =>
        some {
          cache := s.cache.setHead bh { h with lock := true, dirt := false }
          request := Function.update s.request i (some bh)
          queued := s.queued ++ [(rw.cmd, bh)] }

def llRwBlock (rw : Rw) (bh : Fin n) (s : Drive τ n) : Option (Drive τ n) :=
  if s.cache.requestFn (s.cache.head bh).dev then makeRequest rw bh s else some s

/-- The body of the loop of `breada` after `getblk`, where `r` is the reference to
`tmp`. -/
def readAhead (t : τ) (bh : Fin n) (r : Ref n) (s : Drive τ n) : Drive τ n :=
  let s := if (s.cache.head r.bh).uptodate then s else (llRwBlock .reada bh s).getD s
  { s with cache := (s.cache.decCount r.bh).setTask t ⟨.idle, (s.cache.task t).held.erase r⟩ }

end Drive

/-! ## The call -/

/-- A block of the list.  `actions` are what the others do while `getblk` sleeps,
and `request` is the array of the requests when it returns. -/
structure Ahead (τ : Type) (n : ℕ) where
  block : UInt32
  actions : List (BufferAction τ n)
  request : ℕ → Option (Fin n)

/-- A round of the loop: before `getblk`, when it has returned, and at the end. -/
structure Turn (τ : Type) (n : ℕ) where
  ahead : Ahead τ n
  bh : Fin n
  tmp : Ref n
  start : Drive τ n
  returned : Drive τ n
  finish : Drive τ n

section Breada

variable {τ : Type} [DecidableEq τ] {n : ℕ} (t : τ) (dev : UInt16)

/-- The actions up to the one with which the call of `t` is done; `none` when it
still sleeps after all of them. -/
def await : List (BufferAction τ n) → Cache τ n → Except String (Option (Cache τ n))
  | [], s => pure (if (s.task t).pc = .idle then some s else none)
  | a :: as, s =>
      if (s.task t).pc = .idle then pure (some s)
      else do await as (← s.exec a)

/-- `getblk`, with the reference it returns. -/
def Drive.getblk (a : Ahead τ n) (s : Drive τ n) : Except String (Option (Ref n × Drive τ n)) := do
  match ← await t a.actions (s.cache.getHashTable t true dev a.block) with
  | none => pure none
  | some cache =>
      match (cache.task t).held with
      -- not reached: the task has a new reference
      | [] => pure none
      | r :: _ => pure (some (r, { s with cache, request := a.request }))

/-- The loop of `breada`, with its rounds. -/
def breadaLoop (bh : Fin n) :
    List (Ahead τ n) → Drive τ n → Except String (Option (List (Turn τ n) × Drive τ n))
  | [], s => pure (some ([], s))
  | a :: rest, s => do
      match ← s.getblk t dev a with
      | none => pure none
      | some (tmp, returned) =>
          let finish := returned.readAhead t bh tmp
          match ← breadaLoop bh rest finish with
          | none => pure none
          | some (turns, s') => pure (some (⟨a, bh, tmp, s, returned, finish⟩ :: turns, s'))

/-- `breada` up to the end of its loop. -/
def breada (first : Ahead τ n) (rest : List (Ahead τ n)) (s : Drive τ n) :
    Except String (Option (List (Turn τ n) × Drive τ n)) := do
  match ← s.getblk t dev first with
  | none => pure none
  | some (bh, s) =>
      match if (s.cache.head bh.bh).uptodate then some s else s.llRwBlock .read bh.bh with
      | none => pure none
      | some s => breadaLoop t dev bh.bh rest s

end Breada

/-! ## `getblk` returns -/

namespace Cache

variable {τ : Type} [DecidableEq τ] {n : ℕ} {s s' : Cache τ n} {t t' : τ} {dev : UInt16}
  {block : UInt32} {b : Fin n} {r : Ref n} {held : List (Ref n)}

/-- Only the task `t` may be somewhere else. -/
def OnlyTask (t : τ) (s s' : Cache τ n) : Prop := ∀ t', t' ≠ t → s'.task t' = s.task t'

theorem OnlyTask.setTask (h : OnlyTask t s s') (task : BufferTask n) :
    OnlyTask t s (s'.setTask t task) :=
  fun t' ht => (Function.update_of_ne ht ..).trans (h t' ht)

omit [DecidableEq τ] in
theorem OnlyTask.refl (t : τ) (s : Cache τ n) : OnlyTask t s s := fun _ _ => rfl

theorem onlyTask_freeWait (h : OnlyTask t s s') (r : Ref n) : OnlyTask t s (s'.freeWait t r) := by
  unfold freeWait
  split
  next => exact h.setTask _
  next =>
    unfold afterWait
    split
    next => exact h.setTask _
    next =>
      split
      next => exact h.setTask _
      next =>
        split
        next => exact h.setTask _
        next => exact OnlyTask.setTask (show OnlyTask t s { s' with .. } from h) _

theorem onlyTask_getHashTable (h : OnlyTask t s s') (getblk : Bool) (dev : UInt16)
    (block : UInt32) : OnlyTask t s (s'.getHashTable t getblk dev block) := by
  unfold getHashTable
  split
  next =>
    split
    next =>
      unfold pickFree
      split
      next => exact h.setTask _
      next => exact onlyTask_freeWait h _
    next => exact h.setTask _
  next bh _ =>
    dsimp only
    split
    next => exact OnlyTask.setTask (show OnlyTask t s (s'.incCount bh) from h) _
    next => exact OnlyTask.setTask (show OnlyTask t s (s'.incCount bh) from h) _

theorem onlyTask_syncNext (h : OnlyTask t s s') (r : Ref n) (syncDev : UInt16) (second : Bool)
    (i : ℕ) : OnlyTask t s (s'.syncNext t r syncDev second i) := by
  unfold syncNext
  split
  next => exact h.setTask _
  next =>
    split
    next => exact h.setTask _
    next => exact h.setTask _

theorem onlyTask_brelse (h : s.brelse t r = .ok s') : OnlyTask t s s' := by
  unfold brelse at h
  split at h
  next =>
    cases h
    exact (OnlyTask.refl t s).setTask _
  next =>
    split at h
    next => cases h
    next =>
      cases h
      exact OnlyTask.setTask (show OnlyTask t s (s.decCount r.bh) from OnlyTask.refl t s) _

theorem onlyTask_resume (h : s.resume t = .ok s') : OnlyTask t s s' := by
  unfold resume at h
  split at h
  next =>
    cases h
    exact .refl t s
  next getblk r _ =>
    cases h
    unfold hashWait
    split
    next => exact .refl t s
    next =>
      split
      next => exact (OnlyTask.refl t s).setTask _
      next => exact onlyTask_getHashTable (show OnlyTask t s (s.decCount r.bh) from .refl t s) _ _ _
  next =>
    cases h
    exact onlyTask_getHashTable (.refl t s) _ _ _
  next =>
    cases h
    exact onlyTask_freeWait (.refl t s) _
  next r syncDev second i _ =>
    cases h
    unfold sync
    split
    next hi =>
      dsimp only
      split
      next => exact onlyTask_syncNext (.refl t s) _ _ _ _
      next =>
        split
        next => exact .refl t s
        next =>
          split
          next => exact OnlyTask.setTask (show OnlyTask t s (s.setHead ⟨i, hi⟩ _) from OnlyTask.refl t s) _
          next => exact onlyTask_syncNext (.refl t s) _ _ _ _
    next => exact .refl t s
  next r syncDev second i _ =>
    cases h
    unfold syncRequest
    split
    next hi => exact onlyTask_syncNext (show OnlyTask t s (s.addRequest ⟨i, hi⟩) from .refl t s) _ _ _ _
    next => exact .refl t s
  next => exact onlyTask_brelse h

/-- An action that is not a step of a task in a call leaves it where it is. -/
theorem exec_task {a : BufferAction τ n} (h : s.exec a = .ok s') (ha : a ≠ .run t)
    (hbusy : (s.task t).pc ≠ .idle) : s'.task t = s.task t := by
  have hne {t' : τ} (hidle : (s.task t').pc = .idle) : t ≠ t' := fun heq => hbusy (heq ▸ hidle)
  cases a with
  | getblk t' dev block =>
      simp only [exec] at h
      split at h
      next hidle =>
        cases h
        exact onlyTask_getHashTable (.refl t' s) _ _ _ t (hne hidle)
      next => cases h; rfl
  | getHashTable t' dev block =>
      simp only [exec] at h
      split at h
      next hidle =>
        cases h
        exact onlyTask_getHashTable (.refl t' s) _ _ _ t (hne hidle)
      next => cases h; rfl
  | brelse t' r =>
      simp only [exec] at h
      split at h
      next hidle => exact onlyTask_brelse h t (hne hidle.1)
      next => cases h; rfl
  | run t' => exact onlyTask_resume h t fun heq => ha (by rw [heq])
  | modify t' r dirt uptodate =>
      simp only [exec] at h
      split at h
      next => cases h; rfl
      next => cases h; rfl
  | lockBuffer b =>
      simp only [exec] at h
      split at h
      next => cases h; rfl
      next => cases h; rfl
  | addRequest b =>
      simp only [exec] at h
      split at h
      next => cases h; rfl
      next => cases h; rfl
  | unlockBuffer b uptodate => cases h; rfl

/-- `getblk` has returned: the task has one reference more, to a buffer with the
block that is not locked. -/
structure Got (t : τ) (dev : UInt16) (block : UInt32) (held : List (Ref n)) (r : Ref n)
    (s : Cache τ n) : Prop where
  task : s.task t = ⟨.idle, r :: held⟩
  lock : (s.head r.bh).lock = false
  dev : (s.head r.bh).dev = dev
  block : (s.head r.bh).blocknr = block

end Cache

/-- The task is in `getblk(dev, block)`. -/
def Pc.IsGetblk {n : ℕ} (dev : UInt16) (block : UInt32) : Pc n → Prop
  | .hashWait getblk r => getblk = true ∧ r.dev = dev ∧ r.block = block
  | .again dev' block' => dev' = dev ∧ block' = block
  | .freeWait r => r.dev = dev ∧ r.block = block
  | .sync r _ _ _ => r.dev = dev ∧ r.block = block
  | .syncRequest r _ _ _ => r.dev = dev ∧ r.block = block
  | _ => False

namespace Cache

variable {τ : Type} [DecidableEq τ] {n : ℕ} {s s' : Cache τ n} {t t' : τ} {dev : UInt16}
  {block : UInt32} {b : Fin n} {r : Ref n} {held : List (Ref n)}

/-- The task has returned from `getblk`, or it is still there. -/
def Getting (t : τ) (dev : UInt16) (block : UInt32) (held : List (Ref n)) (s : Cache τ n) : Prop :=
  (∃ r, Got t dev block held r s) ∨
    (s.task t).pc.IsGetblk dev block ∧ (s.task t).held = held

theorem getting_setPc {pc : Pc n} (hpc : pc.IsGetblk dev block) (hheld : (s.task t).held = held) :
    (s.setPc t pc).Getting t dev block held := by
  refine .inr ?_
  have htask : (s.setPc t pc).task t = ⟨pc, (s.task t).held⟩ := Function.update_self ..
  rw [htask]
  exact ⟨hpc, hheld⟩

theorem getting_give (hlock : (s.head r.bh).lock = false) (hdev : (s.head r.bh).dev = dev)
    (hblock : (s.head r.bh).blocknr = block) (hheld : (s.task t).held = held) :
    (s.give t r).Getting t dev block held := by
  refine .inl ⟨r, ?_, hlock, hdev, hblock⟩
  rw [← hheld]
  exact Function.update_self ..

theorem getting_freeWait (hr : r.dev = dev ∧ r.block = block) (hheld : (s.task t).held = held) :
    (s.freeWait t r).Getting t dev block held := by
  unfold freeWait
  split
  next => exact getting_setPc hr hheld
  next hlock =>
    unfold afterWait
    split
    next => exact getting_setPc hr hheld
    next =>
      split
      next => exact getting_setPc hr hheld
      next =>
        split
        next => exact getting_setPc hr hheld
        next =>
          have hhead : ∃ h, (s.reassign t r).head r.bh = h ∧ h.lock = false ∧ h.dev = r.dev ∧
              h.blocknr = r.block := by
            refine ⟨_, rfl, ?_⟩
            have hlock' : (s.head r.bh).lock = false := by simpa using hlock
            simp [reassign, give, Cache.setTask, insertIntoQueues, removeFromQueues, Cache.setHead,
              hlock']
          obtain ⟨h, hh, hunlocked, hdev, hblock⟩ := hhead
          refine .inl ⟨r, ?_, ?_, ?_, ?_⟩
          · rw [← hheld]
            exact Function.update_self ..
          · rw [hh, hunlocked]
          · rw [hh, hdev, hr.1]
          · rw [hh, hblock, hr.2]

theorem getting_getHashTable (hheld : (s.task t).held = held) :
    (s.getHashTable t true dev block).Getting t dev block held := by
  unfold getHashTable
  split
  next =>
    rw [if_pos rfl]
    unfold pickFree
    split
    next => exact getting_setPc ⟨rfl, rfl⟩ hheld
    next => exact getting_freeWait ⟨rfl, rfl⟩ hheld
  next bh hfind =>
    have hfound : (s.head bh).dev = dev ∧ (s.head bh).blocknr = block := by
      simpa using List.find?_some hfind
    have hhead : (s.incCount bh).head bh = { s.head bh with count := ((s.head bh).count + 1) % 256 } :=
      Function.update_self ..
    dsimp only
    split
    next => exact getting_setPc (s := s.incCount bh) ⟨rfl, rfl, rfl⟩ hheld
    next hlock =>
      refine getting_give (s := s.incCount bh) (by simpa using hlock) ?_ ?_ hheld
      · rw [hhead]
        exact hfound.1
      · rw [hhead]
        exact hfound.2

theorem getting_syncNext (hr : r.dev = dev ∧ r.block = block) (hheld : (s.task t).held = held)
    (syncDev : UInt16) (second : Bool) (i : ℕ) :
    (s.syncNext t r syncDev second i).Getting t dev block held := by
  unfold syncNext
  split
  next => exact getting_setPc hr hheld
  next =>
    split
    next => exact getting_setPc hr hheld
    next => exact getting_setPc hr hheld

/-- A step of the task in `getblk`. -/
theorem getting_resume (h : s.resume t = .ok s') (hpc : (s.task t).pc.IsGetblk dev block)
    (hheld : (s.task t).held = held) : s'.Getting t dev block held := by
  have hstays : s.Getting t dev block held := .inr ⟨hpc, hheld⟩
  unfold resume at h
  cases hcase : (s.task t).pc with
  | idle =>
      rw [hcase] at hpc
      exact hpc.elim
  | releasing r =>
      rw [hcase] at hpc
      exact hpc.elim
  | hashWait getblk r =>
      rw [hcase] at h hpc
      obtain ⟨rfl, hdev, hblock⟩ := hpc
      cases h
      unfold hashWait
      split
      next => exact hstays
      next hlock =>
        split
        next hmatches =>
          exact getting_give (by simpa using hlock) (hmatches.1.trans hdev)
            (hmatches.2.trans hblock) hheld
        next =>
          rw [hdev, hblock]
          exact getting_getHashTable (s := s.decCount r.bh) hheld
  | again dev' block' =>
      rw [hcase] at h hpc
      obtain ⟨rfl, rfl⟩ := hpc
      cases h
      exact getting_getHashTable hheld
  | freeWait r =>
      rw [hcase] at h hpc
      cases h
      exact getting_freeWait hpc hheld
  | sync r syncDev second i =>
      rw [hcase] at h hpc
      cases h
      unfold sync
      split
      next hi =>
        dsimp only
        split
        next => exact getting_syncNext hpc hheld _ _ _
        next =>
          split
          next => exact hstays
          next =>
            split
            next => exact getting_setPc (s := s.setHead ⟨i, hi⟩ _) hpc hheld
            next => exact getting_syncNext hpc hheld _ _ _
      next => exact hstays
  | syncRequest r syncDev second i =>
      rw [hcase] at h hpc
      cases h
      unfold syncRequest
      split
      next hi => exact getting_syncNext (s := s.addRequest ⟨i, hi⟩) hpc hheld _ _ _
      next => exact hstays

theorem getting_exec {a : BufferAction τ n} (h : s.exec a = .ok s')
    (hpc : (s.task t).pc.IsGetblk dev block) (hheld : (s.task t).held = held) :
    s'.Getting t dev block held := by
  by_cases ha : a = .run t
  · subst ha
    exact getting_resume h hpc hheld
  · have hbusy : (s.task t).pc ≠ .idle := by
      intro hidle
      rw [hidle] at hpc
      exact hpc
    have htask := exec_task h ha hbusy
    exact .inr ⟨htask ▸ hpc, htask ▸ hheld⟩

theorem await_got {as : List (BufferAction τ n)} (h : await t as s = .ok (some s'))
    (hs : s.Getting t dev block held) : ∃ r, s'.Got t dev block held r := by
  have hidle (hidle : (s.task t).pc = .idle) : ∃ r, s.Got t dev block held r := by
    refine hs.resolve_right fun hno => ?_
    rw [hidle] at hno
    exact hno.1
  induction as generalizing s with
  | nil =>
      simp only [await] at h
      split at h
      next hpc => cases h; exact hidle hpc
      next => cases h
  | cons a as ih =>
      simp only [await] at h
      split at h
      next hpc => cases h; exact hidle hpc
      next hpc =>
        have hgetting := hs.resolve_left fun ⟨r, hgot⟩ => hpc (by rw [hgot.task])
        cases hexec : s.exec a with
        | error e =>
            rw [hexec] at h
            cases h
        | ok s₁ =>
            rw [hexec] at h
            have hnext := getting_exec hexec hgetting.1 hgetting.2
            refine ih h hnext fun hidle => hnext.resolve_right fun hno => ?_
            rw [hidle] at hno
            exact hno.1

end Cache

/-! ## Counts -/

namespace Cache

variable {τ : Type} [DecidableEq τ] {n : ℕ} {s : Cache τ n} {t : τ} {dev : UInt16}
  {block : UInt32} {r : Ref n}

omit [DecidableEq τ] in
theorem setHead_count (s : Cache τ n) (b : Fin n) (h : BufferHead) (b' : Fin n) :
    ((s.setHead b h).head b').count = if b' = b then h.count else (s.head b').count := by
  by_cases hb : b' = b
  · subst hb
    rw [if_pos rfl]
    exact congrArg BufferHead.count (Function.update_self ..)
  · rw [if_neg hb]
    exact congrArg BufferHead.count (Function.update_of_ne hb ..)

/-- `getblk` has not returned, or it has counted one reference more. -/
def CountedUp (t : τ) (s s' : Cache τ n) : Prop :=
  (s'.task t).pc ≠ .idle ∨ ∃ r, (s'.task t).held.head? = some r ∧
    ∀ b, (s'.head b).count = if b = r.bh then ((s.head b).count + 1) % 256 else (s.head b).count

theorem countedUp_setPc {s' : Cache τ n} {pc : Pc n} (hpc : pc ≠ .idle) :
    CountedUp t s (s'.setPc t pc) := by
  refine .inl ?_
  have htask : (s'.setPc t pc).task t = ⟨pc, (s'.task t).held⟩ := Function.update_self ..
  rw [htask]
  exact hpc

theorem countedUp_freeWait : CountedUp t s (s.freeWait t r) := by
  unfold freeWait
  split
  next => exact countedUp_setPc (by simp)
  next =>
    unfold afterWait
    split
    next => exact countedUp_setPc (by simp)
    next hcount =>
      split
      next => exact countedUp_setPc (by simp)
      next =>
        split
        next => exact countedUp_setPc (by simp)
        next =>
          refine .inr ⟨r, ?_, fun b => ?_⟩
          · have htask : (s.reassign t r).task t = ⟨.idle, r :: (s.task t).held⟩ :=
              Function.update_self ..
            rw [htask]
            rfl
          · have hzero : (s.head r.bh).count = 0 := not_not.1 hcount
            by_cases hb : b = r.bh
            · subst hb
              rw [if_pos rfl, hzero]
              simp [reassign, give, Cache.setTask, insertIntoQueues, removeFromQueues,
                Cache.setHead]
            · rw [if_neg hb]
              simp [reassign, give, Cache.setTask, insertIntoQueues, removeFromQueues,
                Cache.setHead, hb]

theorem countedUp_getHashTable : CountedUp t s (s.getHashTable t true dev block) := by
  unfold getHashTable
  split
  next =>
    rw [if_pos rfl]
    unfold pickFree
    split
    next => exact countedUp_setPc (by simp)
    next => exact countedUp_freeWait
  next bh _ =>
    dsimp only
    split
    next => exact countedUp_setPc (by simp)
    next =>
      refine .inr ⟨⟨dev, block, bh⟩, ?_, fun b => ?_⟩
      · have htask : ((s.incCount bh).give t ⟨dev, block, bh⟩).task t =
            ⟨.idle, ⟨dev, block, bh⟩ :: (s.task t).held⟩ := Function.update_self ..
        rw [htask]
        rfl
      · rw [show (((s.incCount bh).give t ⟨dev, block, bh⟩).head b) = (s.incCount bh).head b from rfl,
          incCount, setHead_count]
        split
        next hb =>
          subst hb
          rfl
        next => rfl

end Cache

/-! ## The rounds of the loop -/

section Rounds

variable {τ : Type} [DecidableEq τ] {n : ℕ} {t : τ} {dev : UInt16} {bh : Fin n} {r : Ref n}
  {a : Ahead τ n} {s s' : Drive τ n} {rest : List (Ahead τ n)} {turns : List (Turn τ n)}

theorem Drive.getblk_got (h : s.getblk t dev a = .ok (some (r, s'))) :
    Cache.Got t dev a.block (s.cache.task t).held r s'.cache ∧ s'.request = a.request ∧
      s'.queued = s.queued := by
  unfold getblk at h
  cases hawait : await t a.actions (s.cache.getHashTable t true dev a.block) with
  | error e =>
      rw [hawait] at h
      cases h
  | ok found =>
      rw [hawait] at h
      cases found with
      | none => cases h
      | some cache =>
          obtain ⟨r', hgot⟩ := Cache.await_got hawait (Cache.getting_getHashTable rfl)
          have heq : (do match (cache.task t).held with
              | [] => pure none
              | r :: _ => pure (some (r, { s with cache, request := a.request })) :
                Except String (Option (Ref n × Drive τ n))) = .ok (some (r, s')) := h
          rw [hgot.task] at heq
          cases heq
          exact ⟨hgot, rfl, rfl⟩

/-- A READ request was queued for the buffer of the block, unless it is up to date
or locked. -/
def Turn.Requested (T : Turn τ n) : Prop :=
  (T.returned.cache.head T.tmp.bh).uptodate = false →
    (T.returned.cache.head T.tmp.bh).lock = false →
      T.finish.queued = T.returned.queued ++ [(.read, T.tmp.bh)]

/-- The reference that `getblk` took is given back: the task holds what it held,
and the count of the buffer goes down again.  Where nobody else ran, all counts are
what they were. -/
structure Turn.Released (t : τ) (T : Turn τ n) : Prop where
  task : T.finish.cache.task t = ⟨.idle, (T.start.cache.task t).held⟩
  count : ∀ b, (T.finish.cache.head b).count =
    if b = T.tmp.bh then ((T.returned.cache.head b).count + 255) % 256
    else (T.returned.cache.head b).count
  alone : T.ahead.actions = [] → ∀ b, (T.start.cache.head b).count < 256 →
    (T.finish.cache.head b).count = (T.start.cache.head b).count

omit [DecidableEq τ] in
/-- What `breada` does with a block: it asks for its first block again. -/
theorem llRwBlock_reada (s : Drive τ n) (bh : Fin n) :
    (s.llRwBlock .reada bh).getD s = s ∨
      ∃ cache request, s.llRwBlock .reada bh =
        some { cache, request, queued := s.queued ++ [(.read, bh)] } ∧
        cache.task = s.cache.task ∧ ∀ b, (cache.head b).count = (s.cache.head b).count := by
  unfold Drive.llRwBlock Drive.makeRequest
  dsimp only
  split
  next =>
    split
    next => exact .inl rfl
    next =>
      split
      next => exact .inl rfl
      next =>
        split
        next => exact .inl rfl
        next =>
          split
          next => exact .inl rfl
          next =>
            refine .inr ⟨_, _, rfl, rfl, fun b => ?_⟩
            rw [Cache.setHead_count]
            split
            next hb => rw [hb]
            next => rfl
  next => exact .inl rfl

theorem findRequest_isSome {request : ℕ → Option (Fin n)} {k : ℕ}
    (h : ∃ i < k, request i = none) : (Drive.findRequest request k).isSome := by
  induction k with
  | zero =>
      obtain ⟨i, hi, -⟩ := h
      omega
  | succ k ih =>
      rw [Drive.findRequest]
      split
      next => rfl
      next hused =>
        obtain ⟨i, hi, hfree⟩ := h
        have hne : i ≠ k := by
          rintro rfl
          exact hused (by rw [hfree]; rfl)
        exact ih ⟨i, by omega, hfree⟩

omit [DecidableEq τ] in
/-- A request for a buffer that is not locked and not up to date is queued. -/
theorem llRwBlock_queued {s : Drive τ n} {b : Fin n} (hdev : s.cache.requestFn (s.cache.head b).dev)
    (hlock : (s.cache.head b).lock = false) (hup : (s.cache.head b).uptodate = false)
    (hfree : ∃ i < NR_REQUEST, s.request i = none) :
    ((s.llRwBlock .reada b).getD s).queued = s.queued ++ [(.read, b)] := by
  obtain ⟨i, hi⟩ := Option.isSome_iff_exists.1 (findRequest_isSome hfree)
  unfold Drive.llRwBlock Drive.makeRequest
  rw [if_pos hdev]
  simp only [hlock, hup, Rw.cmd, Rw.ahead]
  simp [hi]

/-- The rounds of a call: each begins where `getblk` is called and goes on where it
returns. -/
structure Turn.Ran (t : τ) (dev : UInt16) (T : Turn τ n) : Prop where
  getblk : T.start.getblk t dev T.ahead = .ok (some (T.tmp, T.returned))
  finish : T.finish = T.returned.readAhead t T.bh T.tmp

theorem Turn.Ran.released {T : Turn τ n} (h : T.Ran t dev) : T.Released t := by
  obtain ⟨hgot, -, -⟩ := Drive.getblk_got h.getblk
  -- the request changes neither the tasks nor the counts
  have hrequest : ∃ s : Drive τ n, T.finish.cache =
        (s.cache.decCount T.tmp.bh).setTask t ⟨.idle, (s.cache.task t).held.erase T.tmp⟩ ∧
      s.cache.task = T.returned.cache.task ∧
      ∀ b, (s.cache.head b).count = (T.returned.cache.head b).count := by
    rw [h.finish]
    unfold Drive.readAhead
    dsimp only
    split
    next => exact ⟨_, rfl, rfl, fun b => rfl⟩
    next =>
      rcases llRwBlock_reada T.returned T.bh with hsame | ⟨cache, request, heq, htask, hcount⟩
      · rw [hsame]
        exact ⟨_, rfl, rfl, fun b => rfl⟩
      · rw [heq]
        exact ⟨_, rfl, htask, hcount⟩
  obtain ⟨s, hfinish, htask, hcount⟩ := hrequest
  have hcounts (b : Fin n) : (T.finish.cache.head b).count =
      if b = T.tmp.bh then ((T.returned.cache.head b).count + 255) % 256
      else (T.returned.cache.head b).count := by
    rw [hfinish, ← hcount b,
      show (((s.cache.decCount T.tmp.bh).setTask t _).head b) = (s.cache.decCount T.tmp.bh).head b from
        rfl, Cache.decCount, Cache.setHead_count]
    split
    next hb => rw [hb]
    next => rfl
  refine ⟨?_, hcounts, fun hactions b hlt => ?_⟩
  · rw [hfinish, htask, hgot.task, List.erase_cons_head]
    exact Function.update_self ..
  · have hgetblk := h.getblk
    unfold Drive.getblk at hgetblk
    rw [hactions] at hgetblk
    have hup : Cache.CountedUp t T.start.cache (T.start.cache.getHashTable t true dev
        T.ahead.block) := Cache.countedUp_getHashTable
    have hcache : T.returned.cache = T.start.cache.getHashTable t true dev T.ahead.block := by
      simp only [await] at hgetblk
      split at hgetblk
      next =>
        change (match ((T.start.cache.getHashTable t true dev T.ahead.block).task t).held with
          | [] => pure none
          | r :: _ => pure (some (r, { T.start with
              cache := T.start.cache.getHashTable t true dev T.ahead.block
              request := T.ahead.request })) :
            Except String (Option (Ref n × Drive τ n))) = _ at hgetblk
        split at hgetblk
        next => cases hgetblk
        next =>
          have hpair := Prod.mk.inj (Option.some.inj (Except.ok.inj hgetblk))
          rw [← hpair.2]
      next => cases hgetblk
    rw [← hcache] at hup
    obtain ⟨r, hhead, hup⟩ := hup.resolve_left fun hno => hno (by rw [hgot.task])
    rw [hgot.task] at hhead
    cases hhead
    rw [hcounts, hup]
    split
    next => omega
    next => rfl

/-- A round asks for its block if and only if the block is up to date, or is the
first block of the call and its device has a driver. -/
theorem Turn.Ran.requested_iff {T : Turn τ n} (h : T.Ran t dev)
    (hfree : ∃ i < NR_REQUEST, T.returned.request i = none) :
    T.Requested ↔ (T.returned.cache.head T.tmp.bh).uptodate = true ∨
      T.tmp.bh = T.bh ∧ T.returned.cache.requestFn dev = true := by
  obtain ⟨hgot, -, -⟩ := Drive.getblk_got h.getblk
  unfold Turn.Requested
  rw [h.finish, hgot.lock]
  unfold Drive.readAhead
  cases hup : (T.returned.cache.head T.tmp.bh).uptodate with
  | true => simp
  | false =>
      simp only [Bool.false_eq_true, if_false, false_or, true_imp_iff]
      constructor
      · intro hqueued
        rcases llRwBlock_reada T.returned T.bh with hsame | ⟨cache, request, heq, -, -⟩
        · rw [hsame] at hqueued
          simp at hqueued
        · rw [heq] at hqueued
          have hbh : T.tmp.bh = T.bh := by simpa using hqueued.symm
          refine ⟨hbh, ?_⟩
          by_contra hno
          have hdev : ¬T.returned.cache.requestFn (T.returned.cache.head T.bh).dev = true := by
            rw [← hbh, hgot.dev]
            exact hno
          unfold Drive.llRwBlock at heq
          rw [if_neg hdev] at heq
          have hlist := congrArg Drive.queued (Option.some.inj heq)
          simp at hlist
      · rintro ⟨hbh, hdev⟩
        rw [← hbh]
        exact llRwBlock_queued (by rw [hgot.dev]; exact hdev) hgot.lock hup hfree

theorem breadaLoop_ran (h : breadaLoop t dev bh rest s = .ok (some (turns, s'))) :
    ∀ T ∈ turns, T.bh = bh ∧ T.Ran t dev := by
  induction rest generalizing s turns s' with
  | nil =>
      cases h
      intro T hT
      cases hT
  | cons a rest ih =>
      rw [breadaLoop] at h
      cases hgetblk : s.getblk t dev a with
      | error e =>
          rw [hgetblk] at h
          cases h
      | ok found =>
          rw [hgetblk] at h
          cases found with
          | none => cases h
          | some found =>
              obtain ⟨tmp, returned⟩ := found
              cases hrest : breadaLoop t dev bh rest (returned.readAhead t bh tmp) with
              | error e =>
                  change (breadaLoop t dev bh rest (returned.readAhead t bh tmp) >>= _) = _ at h
                  rw [hrest] at h
                  cases h
              | ok result =>
                  change (breadaLoop t dev bh rest (returned.readAhead t bh tmp) >>= _) = _ at h
                  rw [hrest] at h
                  cases result with
                  | none => cases h
                  | some result =>
                      cases h
                      intro T hT
                      rcases List.mem_cons.1 hT with rfl | hT
                      · exact ⟨rfl, hgetblk, rfl⟩
                      · exact ih hrest T hT

/-- `breada` up to the end of its loop: each block that is not up to date has its
request, and all references are given back, if and only if each block that is not
up to date is the first block of the call, on a device with a driver. -/
theorem breada_requests_iff {first : Ahead τ n}
    (h : breada t dev first rest s = .ok (some (turns, s')))
    (hfree : ∀ T ∈ turns, ∃ i < NR_REQUEST, T.returned.request i = none) :
    (∀ T ∈ turns, T.Requested ∧ T.Released t) ↔
      ∀ T ∈ turns, (T.returned.cache.head T.tmp.bh).uptodate = true ∨
        T.tmp.bh = T.bh ∧ T.returned.cache.requestFn dev = true := by
  have hran : ∀ T ∈ turns, T.Ran t dev := by
    unfold breada at h
    cases hgetblk : s.getblk t dev first with
    | error e =>
        rw [hgetblk] at h
        cases h
    | ok found =>
        rw [hgetblk] at h
        cases found with
        | none => cases h
        | some found =>
            obtain ⟨r, s₁⟩ := found
            change (match if (s₁.cache.head r.bh).uptodate then some s₁
                else s₁.llRwBlock .read r.bh with
              | none => pure none
              | some s => breadaLoop t dev r.bh rest s) = _ at h
            split at h
            next => cases h
            next s₂ _ => exact fun T hT => (breadaLoop_ran h T hT).2
  constructor
  · exact fun hall T hT => ((hran T hT).requested_iff (hfree T hT)).1 (hall T hT).1
  · exact fun hall T hT =>
      ⟨((hran T hT).requested_iff (hfree T hT)).2 (hall T hT), (hran T hT).released⟩

/-- Four free buffers, and no request. -/
def fourBuffers : Drive Unit 4 := ⟨Cache.init Unit 4 fun _ => true, fun _ => none, []⟩

/-- Block 1, and block 1 again. -/
theorem breada_same : ∃ turns s',
    breada () 0x301 ⟨1, [], fun _ => none⟩
        [⟨1, [.unlockBuffer 0 true, .run ()], fun _ => none⟩] fourBuffers =
      .ok (some (turns, s')) ∧ turns ≠ [] ∧
    ∀ T ∈ turns, ∃ i < NR_REQUEST, T.returned.request i = none := by
  refine ⟨_, _, rfl, by simp, fun T hT => ?_⟩
  rw [List.mem_singleton.1 hT]
  exact ⟨0, by decide, rfl⟩

theorem breada_requests_iff_same : ∃ turns s',
    breada () 0x301 ⟨1, [], fun _ => none⟩
        [⟨1, [.unlockBuffer 0 true, .run ()], fun _ => none⟩] fourBuffers =
      .ok (some (turns, s')) ∧ turns ≠ [] ∧
    ((∀ T ∈ turns, T.Requested ∧ T.Released ()) ↔
      ∀ T ∈ turns, (T.returned.cache.head T.tmp.bh).uptodate = true ∨
        T.tmp.bh = T.bh ∧ T.returned.cache.requestFn 0x301 = true) := by
  obtain ⟨turns, s', h, hne, hfree⟩ := breada_same
  exact ⟨turns, s', h, hne, breada_requests_iff h hfree⟩

/-- Block 1 with block 2 ahead: there is no request for block 2. -/
theorem breada_not_requested : ∃ turns s',
    breada () 0x301 ⟨1, [], fun _ => none⟩ [⟨2, [], fun _ => none⟩] fourBuffers =
      .ok (some (turns, s')) ∧ (∀ T ∈ turns, ∃ i < NR_REQUEST, T.returned.request i = none) ∧
    ¬∀ T ∈ turns, T.Requested ∧ T.Released () := by
  refine ⟨_, _, rfl, fun T hT => ?_, fun hall => ?_⟩
  · rw [List.mem_singleton.1 hT]
    exact ⟨0, by decide, rfl⟩
  · have hqueued := (hall _ List.mem_cons_self).1 rfl rfl
    exact absurd (congrArg List.length hqueued) (by decide)

end Rounds

end MyJavaExample.Fs
