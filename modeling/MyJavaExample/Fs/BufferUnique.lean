import Mathlib.Algebra.BigOperators.Group.Finset.Piecewise
import Mathlib.Algebra.Order.BigOperators.Group.Finset
import MyJavaExample.Fs.Buffer
import MyJavaExample.Lib.RefCount
import MyJavaExample.Lib.Run

/-!
# One buffer for a block

The count of a buffer is the number of references to it: those that tasks hold
and those of tasks that wait in `get_hash_table`.  A buffer with a reference is
not re-assigned.  This needs that the count does not wrap around.
-/

namespace MyJavaExample.Fs

open Lib

/-! ## References -/

/-- The reference of a task that waits in `get_hash_table`. -/
def Pc.waiting {n : ℕ} : Pc n → List (Ref n)
  | .hashWait _ r => [r]
  | _ => []

/-- The references of a task. -/
def BufferTask.refs {n : ℕ} (task : BufferTask n) : List (Ref n) := task.pc.waiting ++ task.held

/-- The references of a task to a buffer. -/
def BufferTask.refCount {n : ℕ} (task : BufferTask n) (b : Fin n) : ℕ :=
  task.refs.countP fun r => r.bh = b

section RefCount

variable {n : ℕ} {b : Fin n} {r : Ref n} {held : List (Ref n)}

theorem refCount_pos_of_mem {task : BufferTask n} (h : r ∈ task.refs) : 0 < task.refCount r.bh :=
  List.countP_pos_iff.2 ⟨r, h, by simp⟩

theorem refCount_cons (pc : Pc n) (r : Ref n) (held : List (Ref n)) (b : Fin n) :
    BufferTask.refCount ⟨pc, r :: held⟩ b =
      BufferTask.refCount ⟨pc, held⟩ b + if r.bh = b then 1 else 0 := by
  simp only [BufferTask.refCount, BufferTask.refs, List.countP_append, List.countP_cons,
    decide_eq_true_eq]
  omega

theorem refCount_hashWait (getblk : Bool) (r : Ref n) (held : List (Ref n)) (b : Fin n) :
    BufferTask.refCount ⟨.hashWait getblk r, held⟩ b =
      BufferTask.refCount ⟨.idle, held⟩ b + if r.bh = b then 1 else 0 := by
  simp only [BufferTask.refCount, BufferTask.refs, Pc.waiting, List.countP_append, List.countP_cons,
    List.countP_nil, decide_eq_true_eq]
  omega

theorem refCount_of_waiting {pc pc' : Pc n} (h : pc'.waiting = pc.waiting) (held : List (Ref n))
    (b : Fin n) : BufferTask.refCount ⟨pc', held⟩ b = BufferTask.refCount ⟨pc, held⟩ b := by
  simp only [BufferTask.refCount, BufferTask.refs, h]

theorem refCount_erase (h : r ∈ held) (b : Fin n) :
    BufferTask.refCount ⟨.idle, held.erase r⟩ b + (if r.bh = b then 1 else 0) =
      BufferTask.refCount ⟨.idle, held⟩ b := by
  have hperm := List.perm_cons_erase h
  simp only [BufferTask.refCount, BufferTask.refs, Pc.waiting, List.nil_append]
  rw [hperm.countP_eq, List.countP_cons]
  simp only [decide_eq_true_eq]

end RefCount

namespace Cache

/-! ## Buffers -/

section Buffers

variable {τ : Type} {n : ℕ} {s : Cache τ n}

theorem findBuffer_some {dev : UInt16} {block : UInt32} {b : Fin n}
    (h : s.findBuffer dev block = some b) : (s.head b).dev = dev ∧ (s.head b).blocknr = block := by
  have hq := List.find?_some h
  simpa using hq

/-- The counts after one of them changed. -/
theorem count_update {b : Fin n} {x : BufferHead} {c : ℕ} (hx : x.count = c) (b' : Fin n) :
    (Function.update s.head b x b').count = if b = b' then c else (s.head b').count := by
  by_cases heq : b = b'
  · subst heq
    rw [Function.update_self, if_pos rfl, hx]
  · rw [Function.update_of_ne (Ne.symm heq), if_neg heq]

theorem keep_update {b : Fin n} {x : BufferHead} (hdev : x.dev = (s.head b).dev)
    (hblock : x.blocknr = (s.head b).blocknr) (b' : Fin n) :
    (Function.update s.head b x b').dev = (s.head b').dev ∧
      (Function.update s.head b x b').blocknr = (s.head b').blocknr := by
  by_cases heq : b' = b
  · subst heq
    rw [Function.update_self]
    exact ⟨hdev, hblock⟩
  · rw [Function.update_of_ne heq]
    exact ⟨rfl, rfl⟩

theorem mem_removeFromQueues {b bh : Fin n} {k : ℕ} (h : b ∈ s.hashTable k) (hne : b ≠ bh) :
    b ∈ (s.removeFromQueues bh).hashTable k := by
  simp only [removeFromQueues]
  by_cases heq : k = hashfn (s.head bh).dev (s.head bh).blocknr
  · subst heq
    rw [Function.update_self]
    exact (List.mem_erase_of_ne hne).2 h
  · rw [Function.update_of_ne heq]
    exact h

theorem mem_insertIntoQueues {b bh : Fin n} {k : ℕ} (h : b ∈ s.hashTable k) :
    b ∈ (s.insertIntoQueues bh).hashTable k := by
  simp only [insertIntoQueues]
  split
  next => exact h
  next =>
    by_cases heq : k = hashfn (s.head bh).dev (s.head bh).blocknr
    · subst heq
      rw [Function.update_self]
      exact List.mem_cons_of_mem bh h
    · rw [Function.update_of_ne heq]
      exact h

variable [DecidableEq τ] {t : τ} {r : Ref n}

theorem reassign_head (b : Fin n) :
    (s.reassign t r).head b = if b = r.bh then
      ⟨r.block, r.dev, false, false, 1, (s.head r.bh).lock⟩ else s.head b := by
  by_cases heq : b = r.bh
  · subst heq
    simp [reassign, give, setTask, insertIntoQueues, removeFromQueues, Cache.setHead]
  · simp [reassign, give, setTask, insertIntoQueues, removeFromQueues, Cache.setHead, heq]

theorem mem_reassign {b : Fin n} {k : ℕ} (h : b ∈ s.hashTable k) (hne : b ≠ r.bh) :
    b ∈ (s.reassign t r).hashTable k :=
  mem_insertIntoQueues (mem_removeFromQueues h hne)

theorem mem_reassign_self (hdev : r.dev ≠ 0) :
    r.bh ∈ (s.reassign t r).hashTable (hashfn r.dev r.block) := by
  simp [reassign, give, setTask, insertIntoQueues, removeFromQueues, Cache.setHead, hdev]

end Buffers

/-! ## The invariant -/

variable {τ : Type} [Fintype τ] {n : ℕ}

/-- The references to a buffer. -/
def total (task : τ → BufferTask n) (b : Fin n) : ℕ := ∑ t, (task t).refCount b

theorem total_update [DecidableEq τ] (task : τ → BufferTask n) (t : τ) (x : BufferTask n) (b : Fin n) :
    total (Function.update task t x) b + (task t).refCount b = total task b + x.refCount b :=
  sum_update_add (fun x => x.refCount b) task t x

theorem refCount_le_total (task : τ → BufferTask n) (t : τ) (b : Fin n) :
    (task t).refCount b ≤ total task b :=
  Finset.single_le_sum (f := fun i => (task i).refCount b) (fun _ _ => Nat.zero_le _)
    (Finset.mem_univ t)

/-- The buffer of a reference is the one that was asked for. -/
def Matches (head : Fin n → BufferHead) (r : Ref n) : Prop :=
  (head r.bh).dev = r.dev ∧ (head r.bh).blocknr = r.block

structure Inv (s : Cache τ n) : Prop where
  counts : ∀ b, (s.head b).count = total s.task b
  lt : ∀ b, (s.head b).count < 256
  refs : ∀ t, ∀ r ∈ (s.task t).refs, Matches s.head r
  releasing : ∀ t r, (s.task t).pc = .releasing r → r ∈ (s.task t).held
  hashed : ∀ b, (s.head b).dev ≠ 0 → b ∈ s.hashTable (hashfn (s.head b).dev (s.head b).blocknr)
  unique : ∀ b b', (s.head b).dev ≠ 0 → (s.head b').dev = (s.head b).dev →
    (s.head b').blocknr = (s.head b).blocknr → b = b'
  reassigned : ∀ h ∈ s.reassigned, h.count = 0 ∧ h.lock = false ∧ h.dirt = false

variable {s : Cache τ n} {t : τ}

/-- A buffer with a reference has a count. -/
theorem Inv.count_pos (h : s.Inv) {r : Ref n} (hr : r ∈ (s.task t).refs) :
    0 < (s.head r.bh).count := by
  have hpos := refCount_pos_of_mem hr
  have hle := refCount_le_total s.task t r.bh
  rw [h.counts]
  omega

/-- A change of the flags of a buffer. -/
theorem Inv.setHead (h : s.Inv) {b : Fin n} {x : BufferHead} (hdev : x.dev = (s.head b).dev)
    (hblock : x.blocknr = (s.head b).blocknr) (hcount : x.count = (s.head b).count) :
    (s.setHead b x).Inv := by
  have hkeep : ∀ b', (Function.update s.head b x b').dev = (s.head b').dev ∧
      (Function.update s.head b x b').blocknr = (s.head b').blocknr ∧
      (Function.update s.head b x b').count = (s.head b').count := by
    intro b'
    by_cases heq : b' = b
    · subst heq
      rw [Function.update_self]
      exact ⟨hdev, hblock, hcount⟩
    · rw [Function.update_of_ne heq]
      exact ⟨rfl, rfl, rfl⟩
  refine ⟨fun b' => ?_, fun b' => ?_, fun t r hr => ?_, h.releasing, fun b' => ?_, fun b₁ b₂ => ?_,
    h.reassigned⟩
  · exact (hkeep b').2.2.trans (h.counts b')
  · exact (hkeep b').2.2 ▸ h.lt b'
  · have hmatches := h.refs t r hr
    exact ⟨(hkeep r.bh).1.trans hmatches.1, (hkeep r.bh).2.1.trans hmatches.2⟩
  · simp only [Cache.setHead, (hkeep b').1, (hkeep b').2.1]
    exact h.hashed b'
  · simp only [Cache.setHead, (hkeep b₁).1, (hkeep b₁).2.1, (hkeep b₂).1, (hkeep b₂).2.1]
    exact h.unique b₁ b₂

/-- A block that is not found has no buffer. -/
theorem Inv.findBuffer_none (h : s.Inv) {dev : UInt16} {block : UInt32}
    (hnone : s.findBuffer dev block = none) (hdev : dev ≠ 0) (b : Fin n) :
    ¬((s.head b).dev = dev ∧ (s.head b).blocknr = block) := by
  rintro ⟨rfl, rfl⟩
  exact List.find?_eq_none.1 hnone b (h.hashed b hdev) (by simp)

theorem Inv.addRequest (h : s.Inv) (b : Fin n) : (s.addRequest b).Inv := h.setHead rfl rfl rfl

theorem inv_init (requestFn : UInt16 → Bool) : (Cache.init τ n requestFn).Inv := by
  refine ⟨fun b => ?_, fun b => ?_, fun t r hr => ?_, fun t r hr => ?_, fun b hdev => ?_,
    fun b b' hdev => ?_, fun x hx => ?_⟩
  · exact (Finset.sum_eq_zero fun t _ => rfl).symm
  · exact show 0 < 256 by omega
  · cases hr
  · cases hr
  · exact absurd rfl hdev
  · exact absurd rfl hdev
  · cases hx

/-- What the cache promises. -/
structure Sound (s : Cache τ n) : Prop where
  unique : ∀ b b', (s.head b).dev ≠ 0 → (s.head b').dev = (s.head b).dev →
    (s.head b').blocknr = (s.head b).blocknr → b = b'
  /-- A buffer that was returned is for the block, and has a count. -/
  returned : ∀ t, ∀ r ∈ (s.task t).held, (s.head r.bh).dev = r.dev ∧
    (s.head r.bh).blocknr = r.block ∧ 1 ≤ (s.head r.bh).count
  reassigned : ∀ h ∈ s.reassigned, h.count = 0 ∧ h.lock = false ∧ h.dirt = false

theorem Inv.sound (h : s.Inv) : s.Sound := by
  refine ⟨h.unique, fun t r hr => ?_, h.reassigned⟩
  have hmem : r ∈ (s.task t).refs := List.mem_append_right _ hr
  have hmatches := h.refs t r hmem
  exact ⟨hmatches.1, hmatches.2, h.count_pos hmem⟩

variable [DecidableEq τ]

/-- The references of a task and the counts change together, and no buffer gets
another block. -/
theorem Inv.change (h : s.Inv) {head : Fin n → BufferHead} {x : BufferTask n}
    (hkeep : ∀ b, (head b).dev = (s.head b).dev ∧ (head b).blocknr = (s.head b).blocknr)
    (hcount : ∀ b, (head b).count + (s.task t).refCount b = (s.head b).count + x.refCount b)
    (hlt : ∀ b, (head b).count < 256) (hrefs : ∀ r ∈ x.refs, Matches s.head r)
    (hreleasing : ∀ r, x.pc = .releasing r → r ∈ x.held) :
    Inv { s with head, task := Function.update s.task t x } := by
  have hmatches : ∀ r, Matches s.head r → Matches head r := by
    intro r hr
    rw [Matches, (hkeep r.bh).1, (hkeep r.bh).2]
    exact hr
  have htask : ∀ t' (P : BufferTask n → Prop), P x → P (s.task t') →
      P (Function.update s.task t x t') := by
    intro t' P hx hold
    by_cases heq : t' = t
    · subst heq
      rwa [Function.update_self]
    · rwa [Function.update_of_ne heq]
  refine ⟨fun b => ?_, hlt, fun t' => ?_, fun t' => ?_, fun b => ?_, fun b b' => ?_, h.reassigned⟩
  · have htotal := total_update s.task t x b
    have hcounts := h.counts b
    have hcount := hcount b
    change (head b).count = total (Function.update s.task t x) b
    omega
  · exact htask t' (fun x => ∀ r ∈ x.refs, Matches head r) (fun r hr => hmatches r (hrefs r hr))
      fun r hr => hmatches r (h.refs t' r hr)
  · exact htask t' (fun x => ∀ r, x.pc = .releasing r → r ∈ x.held) hreleasing (h.releasing t')
  · simp only [(hkeep b).1, (hkeep b).2]
    exact h.hashed b
  · simp only [(hkeep b).1, (hkeep b).2, (hkeep b').1, (hkeep b').2]
    exact h.unique b b'

/-! ## Steps -/

/-- A task goes to another place, with the same references. -/
theorem Inv.setPc (h : s.Inv) {pc : Pc n} (hwaiting : pc.waiting = (s.task t).pc.waiting)
    (hreleasing : ∀ r, pc = .releasing r → r ∈ (s.task t).held) : (s.setPc t pc).Inv := by
  refine h.change (fun b => ⟨rfl, rfl⟩) (fun b => ?_) h.lt (fun r hr => h.refs t r ?_) hreleasing
  · rw [refCount_of_waiting hwaiting]
  · simpa only [BufferTask.refs, hwaiting] using hr

/-- A task that waits for no buffer moves on. -/
theorem Inv.move (h : s.Inv) {pc : Pc n} (hwaiting : (s.task t).pc.waiting = [])
    (hpc : pc.waiting = []) (hreleasing : ∀ r, pc ≠ .releasing r) : (s.setPc t pc).Inv :=
  h.setPc (hpc.trans hwaiting.symm) fun r hr => absurd hr (hreleasing r)

/-- `getHashTable` finds the block: the task gets a reference, which it holds or
waits with. -/
theorem Inv.take (h : s.Inv) {r : Ref n} (hmatches : Matches s.head r)
    (hlt : (s.head r.bh).count < 255) {x : BufferTask n}
    (hx : ∀ b, x.refCount b = (s.task t).refCount b + if r.bh = b then 1 else 0)
    (hrefs : ∀ r' ∈ x.refs, r' = r ∨ r' ∈ (s.task t).refs)
    (hreleasing : ∀ r, x.pc = .releasing r → r ∈ x.held) :
    ((s.incCount r.bh).setTask t x).Inv := by
  have hcount : ∀ b, ((s.incCount r.bh).head b).count =
      (s.head b).count + if r.bh = b then 1 else 0 := by
    intro b
    rw [Cache.incCount, Cache.setHead,
      count_update (c := (s.head r.bh).count + 1) (Nat.mod_eq_of_lt (by omega))]
    split
    next heq => rw [heq]
    next => rfl
  refine h.change (keep_update rfl rfl) (fun b => ?_) (fun b => ?_) (fun r' hr' => ?_) hreleasing
  · rw [hcount b, hx b]
    omega
  · have := h.lt b
    rw [hcount b]
    split
    next heq =>
      subst heq
      omega
    next => omega
  · rcases hrefs r' hr' with rfl | hr'
    · exact hmatches
    · exact h.refs t r' hr'

/-- A task gives up a reference. -/
theorem Inv.drop (h : s.Inv) {r : Ref n} (hr : r ∈ (s.task t).refs) {x : BufferTask n}
    (hx : ∀ b, x.refCount b + (if r.bh = b then 1 else 0) = (s.task t).refCount b)
    (hrefs : ∀ r' ∈ x.refs, r' ∈ (s.task t).refs)
    (hreleasing : ∀ r, x.pc = .releasing r → r ∈ x.held) :
    ((s.decCount r.bh).setTask t x).Inv := by
  have hpos := h.count_pos hr
  have hlt := h.lt r.bh
  have hcount : ∀ b, ((s.decCount r.bh).head b).count + (if r.bh = b then 1 else 0) =
      (s.head b).count := by
    intro b
    rw [Cache.decCount, Cache.setHead, count_update (c := (s.head r.bh).count - 1) (by
      dsimp only
      omega)]
    split
    next heq =>
      subst heq
      omega
    next => rfl
  refine h.change (keep_update rfl rfl) (fun b => ?_) (fun b => ?_)
    (fun r' hr' => h.refs t r' (hrefs r' hr')) hreleasing
  · have h₁ := hcount b
    have h₂ := hx b
    change ((s.decCount r.bh).head b).count + _ = _
    omega
  · have h₁ := hcount b
    have h₂ := h.lt b
    change ((s.decCount r.bh).head b).count < 256
    omega

/-- A buffer without references gets a block that no buffer has. -/
theorem Inv.reassign (h : s.Inv) {r : Ref n} (hwaiting : (s.task t).pc.waiting = [])
    (hcount : (s.head r.bh).count = 0) (hlock : (s.head r.bh).lock = false)
    (hdirt : (s.head r.bh).dirt = false) (hnone : s.findBuffer r.dev r.block = none) :
    (s.reassign t r).Inv := by
  have hself : (s.reassign t r).head r.bh = ⟨r.block, r.dev, false, false, 1, (s.head r.bh).lock⟩ := by
    rw [reassign_head, if_pos rfl]
  have hother : ∀ b, b ≠ r.bh → (s.reassign t r).head b = s.head b := fun b hb => by
    rw [reassign_head, if_neg hb]
  have hne : ∀ t' r', r' ∈ (s.task t').refs → r'.bh ≠ r.bh := by
    intro t' r' hr' heq
    have hpos := h.count_pos hr'
    rw [heq, hcount] at hpos
    exact Nat.lt_irrefl 0 hpos
  have hrefs : ∀ t' r', r' ∈ ((s.reassign t r).task t').refs → r' = r ∨ r' ∈ (s.task t').refs := by
    intro t' r' hr'
    by_cases heq : t' = t
    · subst heq
      have htask : (s.reassign t' r).task t' = ⟨.idle, r :: (s.task t').held⟩ :=
        Function.update_self ..
      rw [htask] at hr'
      rcases List.mem_cons.1 hr' with rfl | hr'
      · exact .inl rfl
      · exact .inr (List.mem_append_right _ hr')
    · rw [show (s.reassign t r).task t' = s.task t' from Function.update_of_ne heq ..] at hr'
      exact .inr hr'
  refine ⟨fun b => ?_, fun b => ?_, fun t' r' hr' => ?_, fun t' r' hpc => ?_, fun b hdev => ?_,
    fun b b' hdev hdev' hblock => ?_, fun x hx => ?_⟩
  · have htotal := total_update s.task t ⟨.idle, r :: (s.task t).held⟩ b
    have hcons := refCount_cons .idle r (s.task t).held b
    have hidle : BufferTask.refCount ⟨.idle, (s.task t).held⟩ b = (s.task t).refCount b :=
      refCount_of_waiting (show Pc.idle.waiting = (s.task t).pc.waiting from hwaiting.symm) _ b
    have hcounts := h.counts b
    change _ = total (Function.update s.task t ⟨.idle, r :: (s.task t).held⟩) b
    by_cases heq : b = r.bh
    · subst heq
      rw [hself]
      rw [if_pos rfl] at hcons
      change 1 = _
      omega
    · rw [hother b heq]
      rw [if_neg (Ne.symm heq)] at hcons
      omega
  · by_cases heq : b = r.bh
    · rw [heq, hself]
      exact show 1 < 256 by omega
    · rw [hother b heq]
      exact h.lt b
  · rcases hrefs t' r' hr' with rfl | hr'
    · rw [Matches, hself]
      exact ⟨rfl, rfl⟩
    · rw [Matches, hother _ (hne t' r' hr')]
      exact h.refs t' r' hr'
  · by_cases heq : t' = t
    · subst heq
      rw [show (s.reassign t' r).task t' = ⟨.idle, r :: (s.task t').held⟩ from
        Function.update_self ..] at hpc
      cases hpc
    · rw [show (s.reassign t r).task t' = s.task t' from Function.update_of_ne heq ..] at hpc ⊢
      exact h.releasing t' r' hpc
  · by_cases heq : b = r.bh
    · subst heq
      rw [hself] at hdev ⊢
      exact mem_reassign_self hdev
    · rw [hother b heq] at hdev ⊢
      exact mem_reassign (h.hashed b hdev) heq
  · by_cases heq : b = r.bh
    · by_cases heq' : b' = r.bh
      · rw [heq, heq']
      · rw [heq, hself] at hdev hdev' hblock
        rw [hother b' heq'] at hdev' hblock
        exact absurd ⟨hdev', hblock⟩ (h.findBuffer_none hnone hdev b')
    · rw [hother b heq] at hdev hdev' hblock
      by_cases heq' : b' = r.bh
      · rw [heq', hself] at hdev' hblock
        have hdev' : r.dev = (s.head b).dev := hdev'
        exact absurd ⟨hdev'.symm, hblock.symm⟩ (h.findBuffer_none hnone (hdev' ▸ hdev) b)
      · rw [hother b' heq'] at hdev' hblock
        exact h.unique b b' hdev hdev' hblock
  · rcases List.mem_cons.1 hx with rfl | hx
    · exact ⟨hcount, hlock, hdirt⟩
    · exact h.reassigned x hx

/-- `getblk` after `wait_on_buffer`. -/
theorem Inv.freeWait (h : s.Inv) {r : Ref n} (hwaiting : (s.task t).pc.waiting = []) :
    (s.freeWait t r).Inv := by
  unfold Cache.freeWait
  split
  next => exact h.move hwaiting rfl fun r hr => by cases hr
  next hlock =>
    unfold Cache.afterWait
    split
    next => exact h.move hwaiting rfl fun r hr => by cases hr
    next hcount =>
      split
      next => exact h.move hwaiting rfl fun r hr => by cases hr
      next hdirt =>
        split
        next => exact h.move hwaiting rfl fun r hr => by cases hr
        next hfind =>
          exact h.reassign hwaiting (by omega) (by simpa using hlock) (by simpa using hdirt)
            (by simpa using hfind)

/-- A lookup does not overflow the count of the buffer it finds. -/
def Room (s : Cache τ n) (dev : UInt16) (block : UInt32) : Prop :=
  ∀ b ∈ s.findBuffer dev block, (s.head b).count < 255

instance (s : Cache τ n) (dev : UInt16) (block : UInt32) : Decidable (s.Room dev block) :=
  Option.decidableForallMem (s.findBuffer dev block)

theorem Inv.getHashTable (h : s.Inv) (hwaiting : (s.task t).pc.waiting = []) {dev : UInt16}
    {block : UInt32} (hroom : s.Room dev block) (getblk : Bool) :
    (s.getHashTable t getblk dev block).Inv := by
  unfold Cache.getHashTable
  cases hfind : s.findBuffer dev block with
  | none =>
      dsimp only
      split
      next =>
        unfold pickFree
        cases s.pick s.freeList none with
        | none => exact h.move hwaiting rfl fun r hr => by cases hr
        | some bh => exact h.freeWait hwaiting
      next => exact h.move hwaiting rfl fun r hr => by cases hr
  | some bh =>
      have hidle : ∀ b, BufferTask.refCount ⟨.idle, (s.task t).held⟩ b = (s.task t).refCount b :=
        refCount_of_waiting (show Pc.idle.waiting = (s.task t).pc.waiting from hwaiting.symm) _
      dsimp only
      split
      next =>
        refine h.take (r := ⟨dev, block, bh⟩) (findBuffer_some hfind) (hroom bh hfind)
          (fun b => ?_) (fun r' hr' => ?_) fun r hr => by cases hr
        · rw [refCount_hashWait, ← hidle b]
          rfl
        · rcases List.mem_cons.1 hr' with rfl | hr'
          · exact .inl rfl
          · exact .inr (List.mem_append_right _ hr')
      next =>
        refine h.take (r := ⟨dev, block, bh⟩) (findBuffer_some hfind) (hroom bh hfind)
          (fun b => ?_) (fun r' hr' => ?_) fun r hr => by cases hr
        · rw [← hidle b]
          exact refCount_cons .idle _ _ b
        · rcases List.mem_cons.1 hr' with rfl | hr'
          · exact .inl rfl
          · exact .inr (List.mem_append_right _ hr')

theorem Inv.hashWait (h : s.Inv) {getblk : Bool} {r : Ref n}
    (hpc : (s.task t).pc = .hashWait getblk r) : (s.hashWait t getblk r).Inv := by
  have htask : s.task t = ⟨.hashWait getblk r, (s.task t).held⟩ := by rw [← hpc]
  have hrefs : (s.task t).refs = r :: (s.task t).held := by
    rw [BufferTask.refs, hpc]
    rfl
  -- a buffer with a reference keeps its block
  have hmatches := h.refs t r (by
    rw [hrefs]
    exact List.mem_cons_self)
  unfold Cache.hashWait
  split
  next => exact h
  next =>
    rw [if_pos (show _ ∧ _ from hmatches)]
    refine h.change (fun b => ⟨rfl, rfl⟩) (fun b => ?_) h.lt (fun r' hr' => h.refs t r' ?_)
      fun r hr => by cases hr
    · rw [htask, refCount_hashWait, refCount_cons]
    · rw [hrefs]
      exact hr'

theorem Inv.syncNext (h : s.Inv) (hwaiting : (s.task t).pc.waiting = []) (r : Ref n)
    (syncDev : UInt16) (second : Bool) (i : ℕ) : (s.syncNext t r syncDev second i).Inv := by
  unfold Cache.syncNext
  split
  next => exact h.move hwaiting rfl fun r hr => by cases hr
  next =>
    split
    next => exact h.move hwaiting rfl fun r hr => by cases hr
    next => exact h.move hwaiting rfl fun r hr => by cases hr

theorem Inv.sync (h : s.Inv) (hwaiting : (s.task t).pc.waiting = []) (r : Ref n)
    (syncDev : UInt16) (second : Bool) (i : ℕ) : (s.sync t r syncDev second i).Inv := by
  unfold Cache.sync
  split
  next hi =>
    dsimp only
    split
    next => exact h.syncNext hwaiting r syncDev second i
    next =>
      split
      next => exact h
      next =>
        split
        next =>
          have h' : (s.setHead ⟨i, hi⟩ { s.head ⟨i, hi⟩ with lock := true }).Inv :=
            h.setHead rfl rfl rfl
          have hmove : ∀ r', Pc.syncRequest r syncDev second i = .releasing r' →
              r' ∈ (s.task t).held := fun r' hr' => by cases hr'
          exact h'.setPc hwaiting.symm hmove
        next => exact h.syncNext hwaiting r syncDev second i
  next => exact h

theorem Inv.brelse (h : s.Inv) {r : Ref n} (hwaiting : (s.task t).pc.waiting = [])
    (hr : r ∈ (s.task t).held) : ∃ s', s.brelse t r = .ok s' ∧ s'.Inv := by
  have hmem : r ∈ (s.task t).refs := List.mem_append_right _ hr
  have hpos := h.count_pos hmem
  unfold Cache.brelse
  split
  next =>
    refine ⟨_, rfl, h.setPc hwaiting.symm fun r' hr' => ?_⟩
    cases hr'
    exact hr
  next =>
    rw [if_neg (by omega)]
    refine ⟨_, rfl, h.drop hmem (fun b => ?_) (fun r' hr' => ?_) fun r hr => by cases hr⟩
    · rw [refCount_erase hr b]
      exact refCount_of_waiting (show Pc.idle.waiting = (s.task t).pc.waiting from hwaiting.symm) _ b
    · exact List.mem_append_right _ (List.mem_of_mem_erase hr')

/-- The block that an action looks up. -/
def lookup (s : Cache τ n) : BufferAction τ n → Option (UInt16 × UInt32)
  | .getblk t dev block => if (s.task t).pc = .idle then some (dev, block) else none
  | .getHashTable t dev block => if (s.task t).pc = .idle then some (dev, block) else none
  | .run t =>
      match (s.task t).pc with
      | .again dev block => some (dev, block)
      | _ => none
  | _ => none

/-- The action does not take the 256th reference to a buffer. -/
def NoOverflow (s : Cache τ n) (a : BufferAction τ n) : Prop :=
  ∀ k ∈ s.lookup a, s.Room k.1 k.2

instance (s : Cache τ n) (a : BufferAction τ n) : Decidable (s.NoOverflow a) :=
  Option.decidableForallMem (s.lookup a)

theorem Inv.exec (h : s.Inv) {a : BufferAction τ n} (hroom : s.NoOverflow a) :
    ∃ s', s.exec a = .ok s' ∧ s'.Inv := by
  cases a with
  | getblk t dev block =>
      rw [Cache.exec]
      split
      next hidle =>
        exact ⟨_, rfl, h.getHashTable (by rw [hidle]; rfl) (hroom _ (if_pos hidle)) true⟩
      next => exact ⟨s, rfl, h⟩
  | getHashTable t dev block =>
      rw [Cache.exec]
      split
      next hidle =>
        exact ⟨_, rfl, h.getHashTable (by rw [hidle]; rfl) (hroom _ (if_pos hidle)) false⟩
      next => exact ⟨s, rfl, h⟩
  | brelse t r =>
      rw [Cache.exec]
      split
      next hcond => exact h.brelse (by rw [hcond.1]; rfl) hcond.2
      next => exact ⟨s, rfl, h⟩
  | run t =>
      rw [Cache.exec, resume]
      cases hpc : (s.task t).pc with
      | idle => exact ⟨s, rfl, h⟩
      | hashWait getblk r => exact ⟨_, rfl, h.hashWait hpc⟩
      | again dev block =>
          refine ⟨_, rfl, h.getHashTable (by rw [hpc]; rfl) (hroom (dev, block) ?_) true⟩
          rw [lookup, hpc]
          rfl
      | freeWait r => exact ⟨_, rfl, h.freeWait (by rw [hpc]; rfl)⟩
      | sync r syncDev second i => exact ⟨_, rfl, h.sync (by rw [hpc]; rfl) r syncDev second i⟩
      | syncRequest r syncDev second i =>
          refine ⟨_, rfl, ?_⟩
          unfold Cache.syncRequest
          split
          next hi =>
            have hwaiting : (s.task t).pc.waiting = [] := by rw [hpc]; rfl
            exact (h.addRequest ⟨i, hi⟩).syncNext hwaiting r syncDev second i
          next => exact h
      | releasing r => exact h.brelse (by rw [hpc]; rfl) (h.releasing t r hpc)
  | modify t r dirt uptodate =>
      rw [Cache.exec]
      split
      next => exact ⟨_, rfl, h.setHead rfl rfl rfl⟩
      next => exact ⟨s, rfl, h⟩
  | lockBuffer b =>
      rw [Cache.exec]
      split
      next => exact ⟨s, rfl, h⟩
      next => exact ⟨_, rfl, h.setHead rfl rfl rfl⟩
  | addRequest b =>
      rw [Cache.exec]
      split
      next => exact ⟨_, rfl, h.addRequest b⟩
      next => exact ⟨s, rfl, h⟩
  | unlockBuffer b uptodate => exact ⟨_, rfl, h.setHead rfl rfl rfl⟩

/-! ## Runs -/

/-- The action does not overflow a count in the state it is executed in. -/
def NoOverflowStep (r : Except String (Cache τ n)) (a : BufferAction τ n) : Prop :=
  ∀ s ∈ r.toOption, s.NoOverflow a

instance (r : Except String (Cache τ n)) (a : BufferAction τ n) : Decidable (NoOverflowStep r a) :=
  Option.decidableForallMem r.toOption

end Cache

section Runs

variable {τ : Type} [Fintype τ] [DecidableEq τ] {n : ℕ}

/-- In every run that never takes the 256th reference to a buffer, no call
panics and the cache is sound in every state. -/
theorem buffer_cache_sound (requestFn : UInt16 → Bool) {as : List (BufferAction τ n)}
    (hroom : EachStep Cache.next Cache.NoOverflowStep (.ok (.init τ n requestFn)) as) :
    Always Cache.next (fun r => ∃ s, r = .ok s ∧ s.Sound) (.ok (.init τ n requestFn)) as := by
  refine hroom.always (I := fun r => ∃ s, r = .ok s ∧ s.Inv) ?_ ?_ ⟨_, rfl, Cache.inv_init requestFn⟩
  · rintro r ⟨s, rfl, h⟩
    exact ⟨s, rfl, h.sound⟩
  · rintro r a ⟨s, rfl, h⟩ hok
    obtain ⟨s', hexec, h'⟩ := h.exec (hok s rfl)
    exact ⟨s', hexec, h'⟩

/-- Each of two tasks has a block, and then both buffers are re-assigned, the first one
after a task has waited for it. -/
theorem buffer_cache_sound_two_tasks :
    Always Cache.next (fun r => ∃ s, r = .ok s ∧ s.Sound) (.ok (.init Bool 2 fun _ => true))
      [.getblk true 1 5, .getblk false 1 6, .lockBuffer 0, .brelse true ⟨1, 5, 0⟩,
        .unlockBuffer 0 true, .run true, .lockBuffer 0, .getblk true 1 7, .unlockBuffer 0 true,
        .run true, .brelse false ⟨1, 6, 1⟩, .getblk false 1 8] := by
  refine buffer_cache_sound _ ⟨?_, ?_, ?_, ?_, ?_, ?_, ?_, ?_, ?_, ?_, ?_, ?_, trivial⟩
  all_goals decide +kernel

/-- The 256th reference makes the count 0. -/
theorem buffer_count_overflow :
    ¬Always Cache.next (fun r => ∃ s, r = .ok s ∧ s.Sound) (.ok (.init Unit 1 fun _ => true))
      (List.replicate 256 (.getblk () 1 5)) := by
  intro h
  obtain ⟨s, hs, hsound⟩ := h.last
  have hview : ((List.replicate 256 (BufferAction.getblk () 1 5)).foldl Cache.next
      (.ok (.init Unit 1 fun _ => true))).toOption.map
        (fun s => ((s.head 0).count, (s.task ()).held.head?)) = some (0, some ⟨1, 5, 0⟩) := by
    decide +kernel
  rw [hs] at hview
  have hview := Option.some.inj hview
  have hcount : (s.head 0).count = 0 := congrArg Prod.fst hview
  have hheld := List.mem_of_mem_head? (congrArg Prod.snd hview)
  have hpos : 1 ≤ (s.head 0).count := (hsound.returned () _ hheld).2.2
  omega

end Runs

end MyJavaExample.Fs
