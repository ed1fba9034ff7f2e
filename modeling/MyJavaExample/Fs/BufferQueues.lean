import Mathlib.Data.List.FinRange
import MyJavaExample.Fs.BufferUnique
import MyJavaExample.Lib.DoublyLinked
import MyJavaExample.Lib.Run

/-!
# The queues of the buffer cache, pointer by pointer

Here the hash queues and the free list are what they are in `fs/buffer.c`:
pointers in the buffer heads.  A field that is read or written through the null
pointer is at an address below the buffers, so that no buffer changes; that it
happened is kept in `nullAccess`.

Re-assigning a buffer keeps the lists well formed and does what the list model
of the cache says.  It writes through the null pointer whenever the hash queue
of the new block was empty, which is so from the first buffer on.
-/

namespace MyJavaExample.Fs

open Lib Cache

structure BufferQueues (n : ℕ) where
  blocknr : Fin n → UInt32
  dev : Fin n → UInt16
  prev : Fin n → Option (Fin n)
  next : Fin n → Option (Fin n)
  prevFree : Fin n → Option (Fin n)
  nextFree : Fin n → Option (Fin n)
  hashTable : ℕ → Option (Fin n)
  freeList : Option (Fin n)
  nullAccess : Bool

namespace BufferQueues

variable {n : ℕ} (q : BufferQueues n) (bh : Fin n) (p v : Option (Fin n))

/-! ## Accesses through a pointer -/

def access : BufferQueues n := { q with nullAccess := q.nullAccess || p.isNone }

/-- `p->b_prev = v` -/
def setPrev : BufferQueues n := { q.access p with prev := setAt q.prev p v }

/-- `p->b_next = v` -/
def setNext : BufferQueues n := { q.access p with next := setAt q.next p v }

/-- `p->b_prev_free = v` -/
def setPrevFree : BufferQueues n := { q.access p with prevFree := setAt q.prevFree p v }

/-- `p->b_next_free = v` -/
def setNextFree : BufferQueues n := { q.access p with nextFree := setAt q.nextFree p v }

/-! ## The functions -/

/-- The first half of `remove_from_queues`. -/
def removeFromHashQueue : BufferQueues n :=
  let q := if (q.next bh).isSome then q.setPrev (q.next bh) (q.prev bh) else q
  let q := if (q.prev bh).isSome then q.setNext (q.prev bh) (q.next bh) else q
  let k := hashfn (q.dev bh) (q.blocknr bh)
  if q.hashTable k = some bh then
    { q with hashTable := Function.update q.hashTable k (q.next bh) }
  else q

/-- The second half of `remove_from_queues`. -/
def removeFromFreeList : Except String (BufferQueues n) :=
  if q.prevFree bh = none ∨ q.nextFree bh = none then throw "Free block list corrupted"
  else
    let q := q.setNextFree (q.prevFree bh) (q.nextFree bh)
    let q := q.setPrevFree (q.nextFree bh) (q.prevFree bh)
    pure (if q.freeList = some bh then { q with freeList := q.nextFree bh } else q)

def removeFromQueues : Except String (BufferQueues n) :=
  (q.removeFromHashQueue bh).removeFromFreeList bh

/-- The first half of `insert_into_queues`. -/
def putAtEnd : BufferQueues n :=
  let q := q.setNextFree (some bh) q.freeList
  let q := (q.access q.freeList).setPrevFree (some bh) (q.freeList.bind q.prevFree)
  let q := (q.access q.freeList).setNextFree (q.freeList.bind q.prevFree) (some bh)
  q.setPrevFree q.freeList (some bh)

/-- The second half of `insert_into_queues`. -/
def putInHashQueue : BufferQueues n :=
  let q := q.setPrev (some bh) none
  let q := q.setNext (some bh) none
  if q.dev bh = 0 then q
  else
    let k := hashfn (q.dev bh) (q.blocknr bh)
    let q := q.setNext (some bh) (q.hashTable k)
    let q := { q with hashTable := Function.update q.hashTable k (some bh) }
    q.setPrev (q.next bh) (some bh)

def insertIntoQueues : BufferQueues n := (q.putAtEnd bh).putInHashQueue bh

/-- The end of `getblk`. -/
def reassign (dev : UInt16) (block : UInt32) : Except String (BufferQueues n) := do
  let q ← q.removeFromQueues bh
  let q := { q with
    dev := Function.update q.dev bh dev
    blocknr := Function.update q.blocknr bh block }
  pure (q.insertIntoQueues bh)

/-- `buffer_init`, which leaves `b_blocknr` as it was in memory. -/
def init (blocknr : Fin n → UInt32) : BufferQueues n where
  blocknr := blocknr
  dev := fun _ => 0
  prev := fun _ => none
  next := fun _ => none
  prevFree := fun h =>
    if h.val = 0 then some ⟨n - 1, Nat.sub_one_lt_of_lt h.pos⟩ else some ⟨h.val - 1, by omega⟩
  nextFree := fun h => if hlt : h.val + 1 < n then some ⟨h.val + 1, hlt⟩ else some ⟨0, h.pos⟩
  hashTable := fun _ => none
  freeList := if hpos : 0 < n then some ⟨0, hpos⟩ else none
  nullAccess := false

/-! ## Well-formed queues -/

/-- The lists that the pointers make. -/
structure Queues (q : BufferQueues n) (chains : ℕ → List (Fin n)) (free : List (Fin n)) : Prop where
  ring : Ring q.nextFree q.prevFree free
  freeList : q.freeList = free.head?
  chain : ∀ k, Chain q.next q.prev (chains k)
  hashTable : ∀ k, q.hashTable k = (chains k).head?

/-- The free list has all buffers, a hash queue those with a device that hash to
it. -/
structure WellFormed (q : BufferQueues n) (chains : ℕ → List (Fin n)) (free : List (Fin n)) : Prop
    extends Queues q chains free where
  free_nodup : free.Nodup
  mem_free : ∀ b, b ∈ free
  chain_nodup : ∀ k, (chains k).Nodup
  mem_chain : ∀ k b, b ∈ chains k ↔ q.dev b ≠ 0 ∧ hashfn (q.dev b) (q.blocknr b) = k
  unhashed : ∀ b, q.dev b = 0 → q.next b = none ∧ q.prev b = none

variable {q : BufferQueues n} {bh : Fin n} {chains : ℕ → List (Fin n)} {free : List (Fin n)}

/-! ## What the functions write -/

/-! ### Out of the queues -/

/-- A pointer that is tested first is not the null pointer. -/
theorem ite_setPrev (q : BufferQueues n) (p v : Option (Fin n)) :
    (if p.isSome then q.setPrev p v else q) = { q with prev := setAt q.prev p v } := by
  cases p with
  | none => rfl
  | some a => simp [setPrev, access]

theorem ite_setNext (q : BufferQueues n) (p v : Option (Fin n)) :
    (if p.isSome then q.setNext p v else q) = { q with next := setAt q.next p v } := by
  cases p with
  | none => rfl
  | some a => simp [setNext, access]

theorem removeFromHashQueue_eq (q : BufferQueues n) (bh : Fin n) :
    q.removeFromHashQueue bh = { q with
      prev := setAt q.prev (q.next bh) (q.prev bh)
      next := setAt q.next (q.prev bh) (q.next bh)
      hashTable :=
        if q.hashTable (hashfn (q.dev bh) (q.blocknr bh)) = some bh then
          Function.update q.hashTable (hashfn (q.dev bh) (q.blocknr bh)) (q.next bh)
        else q.hashTable } := by
  simp only [removeFromHashQueue, ite_setPrev, ite_setNext, Linked.setAt_apply]
  split <;> rfl

theorem removeFromFreeList_eq {f l : Fin n} (hnext : q.nextFree bh = some f)
    (hprev : q.prevFree bh = some l) :
    q.removeFromFreeList bh = .ok { q with
      prevFree := setAt q.prevFree (some f) (some l)
      nextFree := setAt q.nextFree (some l) (some f)
      freeList := if q.freeList = some bh then some f else q.freeList } := by
  have hback : setAt q.nextFree (some l) (some f) bh = some f := by
    rw [← hnext]
    exact Linked.setAt_apply _ _ _
  have hback' : setAt q.prevFree (some f) (some l) bh = some l := by
    rw [← hprev]
    exact Linked.setAt_apply _ _ _
  unfold removeFromFreeList
  rw [if_neg (by simp [hnext, hprev])]
  simp only [hnext, hprev, setNextFree, setPrevFree, access, hback, Option.isNone_some,
    Bool.or_false]
  split <;> rfl

/-! ### Into the queues -/

theorem putAtEnd_eq {f l : Fin n} (hf : q.freeList = some f) (hl : q.prevFree f = some l)
    (hne : f ≠ bh) : q.putAtEnd bh = { q with
      prevFree := setAt (Function.update q.prevFree bh (some l)) (some f) (some bh)
      nextFree := setAt (Function.update q.nextFree bh (some f)) (some l) (some bh) } := by
  have hsame : setAt q.prevFree (some bh) (some l) f = some l := by
    rw [← hl]
    exact Linked.setAt_of_ne _ (fun h => hne (Option.some.inj h)) _
  simp only [putAtEnd, setNextFree, setPrevFree, access, hf, hl, Option.bind_some, hsame,
    Option.isNone_some, Bool.or_false]
  rfl

theorem putInHashQueue_eq (hdev : q.dev bh ≠ 0) :
    q.putInHashQueue bh = { q with
      prev := setAt (Function.update q.prev bh none)
        (q.hashTable (hashfn (q.dev bh) (q.blocknr bh))) (some bh)
      next := Function.update q.next bh (q.hashTable (hashfn (q.dev bh) (q.blocknr bh)))
      hashTable := Function.update q.hashTable (hashfn (q.dev bh) (q.blocknr bh)) (some bh)
      nullAccess := q.nullAccess ||
        (q.hashTable (hashfn (q.dev bh) (q.blocknr bh))).isNone } := by
  simp [putInHashQueue, setPrev, setNext, access, setAt, hdev]

/-! ## Re-assigning a buffer -/

/-- A buffer is in the one queue that its block hashes to. -/
theorem WellFormed.mem_unique (h : q.WellFormed chains free) {b : Fin n} {k k' : ℕ}
    (hk : b ∈ chains k) (hk' : b ∈ chains k') : k = k' :=
  ((h.mem_chain k b).1 hk).2.symm.trans ((h.mem_chain k' b).1 hk').2

theorem WellFormed.not_mem (h : q.WellFormed chains free) (hdev : q.dev bh = 0) (k : ℕ) :
    bh ∉ chains k :=
  fun hmem => ((h.mem_chain k bh).1 hmem).1 hdev

/-- The queue of a buffer that has a device. -/
theorem WellFormed.exists_chain (h : q.WellFormed chains free) (hdev : q.dev bh ≠ 0) :
    ∃ m₁ m₂, chains (hashfn (q.dev bh) (q.blocknr bh)) = m₁ ++ bh :: m₂ ∧
      q.next bh = m₂.head? ∧ q.prev bh = m₁.getLast? ∧
      Chain (setAt q.next (q.prev bh) (q.next bh)) (setAt q.prev (q.next bh) (q.prev bh))
        (m₁ ++ m₂) := by
  have hmem := (h.mem_chain _ bh).2 ⟨hdev, rfl⟩
  obtain ⟨m₁, m₂, hsplit⟩ := List.append_of_mem hmem
  have hnodup := h.chain_nodup (hashfn (q.dev bh) (q.blocknr bh))
  have hchain := h.chain (hashfn (q.dev bh) (q.blocknr bh))
  rw [hsplit] at hnodup hchain
  exact ⟨m₁, m₂, hsplit, hchain.unlink hnodup⟩

/-- The neighbours of a buffer are in its queue. -/
theorem WellFormed.neighbour_mem (h : q.WellFormed chains free) {a : Fin n}
    (ha : some a = q.next bh ∨ some a = q.prev bh) : ∃ k, bh ∈ chains k ∧ a ∈ chains k := by
  by_cases hdev : q.dev bh = 0
  · obtain ⟨hnext, hprev⟩ := h.unhashed bh hdev
    rw [hnext, hprev] at ha
    rcases ha with ha | ha <;> cases ha
  · obtain ⟨m₁, m₂, hsplit, hnext, hprev, -⟩ := h.exists_chain hdev
    refine ⟨_, (h.mem_chain _ bh).2 ⟨hdev, rfl⟩, ?_⟩
    rw [hsplit]
    rcases ha with ha | ha
    · simp [List.mem_of_head? (hnext ▸ ha.symm)]
    · simp [List.mem_of_getLast? (hprev ▸ ha.symm)]

/-- A buffer of another queue keeps its pointers. -/
theorem WellFormed.frame (h : q.WellFormed chains free) {a : Fin n}
    (ha : ∀ k, bh ∈ chains k → a ∉ chains k) :
    (q.removeFromHashQueue bh).next a = q.next a ∧
      (q.removeFromHashQueue bh).prev a = q.prev a := by
  have hne : ¬(some a = q.next bh ∨ some a = q.prev bh) := by
    intro hnb
    obtain ⟨k, hbh, hmem⟩ := h.neighbour_mem hnb
    exact ha k hbh hmem
  rw [removeFromHashQueue_eq]
  exact ⟨Linked.setAt_of_ne _ (fun heq => hne (.inr heq)) _,
    Linked.setAt_of_ne _ (fun heq => hne (.inl heq)) _⟩

theorem WellFormed.chain_removed (h : q.WellFormed chains free) (bh : Fin n) (k : ℕ) :
    Chain (q.removeFromHashQueue bh).next (q.removeFromHashQueue bh).prev ((chains k).erase bh) ∧
      (q.removeFromHashQueue bh).hashTable k = ((chains k).erase bh).head? := by
  by_cases hmem : bh ∈ chains k
  · obtain ⟨hdev, rfl⟩ := (h.mem_chain k bh).1 hmem
    obtain ⟨m₁, m₂, hsplit, hnext, hprev, hunlink⟩ := h.exists_chain hdev
    have hnodup := h.chain_nodup (hashfn (q.dev bh) (q.blocknr bh))
    have hhead := h.hashTable (hashfn (q.dev bh) (q.blocknr bh))
    rw [hsplit] at hnodup hhead
    have hm₁ : bh ∉ m₁ := fun hb => (List.nodup_append.1 hnodup).2.2 bh hb bh (by simp) rfl
    rw [hsplit, List.erase_append_right _ hm₁, List.erase_cons_head, removeFromHashQueue_eq]
    refine ⟨hunlink, ?_⟩
    dsimp only
    cases m₁ with
    | nil =>
        have hfirst : q.hashTable (hashfn (q.dev bh) (q.blocknr bh)) = some bh := hhead
        rw [if_pos hfirst, Function.update_self, hnext]
        rfl
    | cons a m₁ =>
        have hne : q.hashTable (hashfn (q.dev bh) (q.blocknr bh)) ≠ some bh := by
          rw [hhead]
          intro heq
          cases heq
          exact hm₁ List.mem_cons_self
        rw [if_neg hne, hhead]
        rfl
  · have hother (a : Fin n) (ha : a ∈ chains k) (k' : ℕ) (hbh : bh ∈ chains k') :
        a ∉ chains k' := fun ha' => hmem (h.mem_unique ha ha' ▸ hbh)
    rw [List.erase_of_not_mem hmem]
    refine ⟨(h.chain k).congr (fun a ha => (h.frame (hother a ha)).1)
      fun a ha => (h.frame (hother a ha)).2, ?_⟩
    rw [removeFromHashQueue_eq, ← h.hashTable k]
    dsimp only
    split
    next hhead =>
      refine Function.update_of_ne ?_ _ _
      rintro rfl
      exact hmem (List.mem_of_head? ((h.hashTable _).symm.trans hhead))
    next => rfl

/-- The free list has another buffer. -/
theorem WellFormed.exists_other (h : q.WellFormed chains free) (hn : 2 ≤ n) (bh : Fin n) :
    ∃ b, b ≠ bh ∧ b ∈ free := by
  have hnontrivial : Nontrivial (Fin n) := Fin.nontrivial_iff_two_le.2 hn
  obtain ⟨b, hb⟩ := exists_ne bh
  exact ⟨b, hb, h.mem_free b⟩

theorem WellFormed.removeFromQueues (h : q.WellFormed chains free) (hn : 2 ≤ n) (bh : Fin n) :
    ∃ q', q.removeFromQueues bh = .ok q' ∧ q'.dev = q.dev ∧ q'.blocknr = q.blocknr ∧
      q'.nullAccess = q.nullAccess ∧ q'.Queues (fun k => (chains k).erase bh) (free.erase bh) ∧
      ∀ b, q.dev b = 0 → q'.next b = none ∧ q'.prev b = none := by
  obtain ⟨l₁, l₂, hsplit⟩ := List.append_of_mem (h.mem_free bh)
  have hnodup := h.free_nodup
  have hring := h.ring
  have hfree := h.freeList
  rw [hsplit] at hnodup hring hfree
  have hne : l₂ ++ l₁ ≠ [] := by
    obtain ⟨b, hb, hmem⟩ := h.exists_other hn bh
    intro hnil
    obtain ⟨rfl, rfl⟩ := List.append_eq_nil_iff.1 hnil
    rw [hsplit] at hmem
    exact hb (by simpa using hmem)
  have hl₁ : bh ∉ l₁ := fun hb => (List.nodup_append.1 hnodup).2.2 bh hb bh (by simp) rfl
  have herase : free.erase bh = l₁ ++ l₂ := by
    rw [hsplit, List.erase_append_right _ hl₁, List.erase_cons_head]
  obtain ⟨hnext, hprev, hunlink⟩ := hring.unlink hne hnodup
  obtain ⟨f, hf⟩ := Option.isSome_iff_exists.1 (List.isSome_head?.2 hne)
  obtain ⟨l, hl⟩ := Option.isSome_iff_exists.1 (List.getLast?_isSome.2 hne)
  rw [hf] at hnext
  rw [hl] at hprev
  rw [hnext, hprev] at hunlink
  have hchains := fun k => h.chain_removed bh k
  have hframe := fun b (hb : q.dev b = 0) => h.frame fun k (_ : bh ∈ chains k) => h.not_mem hb k
  have heq := removeFromHashQueue_eq q bh
  unfold BufferQueues.removeFromQueues
  generalize q.removeFromHashQueue bh = q₁ at heq hchains hframe
  have hnext₁ : q₁.nextFree bh = some f := by
    rw [heq]
    exact hnext
  have hprev₁ : q₁.prevFree bh = some l := by
    rw [heq]
    exact hprev
  have hstep := removeFromFreeList_eq hnext₁ hprev₁
  refine ⟨_, hstep, by rw [heq], by rw [heq], by rw [heq], ⟨?_, ?_, fun k => (hchains k).1,
    fun k => (hchains k).2⟩, fun b hb => ?_⟩
  · rw [herase, heq]
    exact hunlink
  · rw [herase, heq]
    dsimp only
    rw [hfree]
    cases l₁ with
    | nil =>
        have hfirst : ([] ++ bh :: l₂).head? = some bh := rfl
        rw [if_pos hfirst, ← hf]
        simp
    | cons a l₁ =>
        have hfirst : ((a :: l₁) ++ bh :: l₂).head? ≠ some bh := by
          intro heq
          cases heq
          exact hl₁ List.mem_cons_self
        rw [if_neg hfirst]
        rfl
  · rw [(hframe b hb).1, (hframe b hb).2]
    exact h.unhashed b hb

/-- A buffer that is in no list is put into the lists. -/
theorem Queues.insertIntoQueues (h : q.Queues chains free) (hfree : free ≠ [])
    (hnodup : (free ++ [bh]).Nodup) (hchain : ∀ k, (chains k).Nodup ∧ bh ∉ chains k)
    (hdisj : ∀ k k', k ≠ k' → ∀ b ∈ chains k, b ∉ chains k') (hdev : q.dev bh ≠ 0) :
    (q.insertIntoQueues bh).Queues
      (Function.update chains (hashfn (q.dev bh) (q.blocknr bh))
        (bh :: chains (hashfn (q.dev bh) (q.blocknr bh)))) (free ++ [bh]) ∧
      (q.insertIntoQueues bh).nullAccess =
        (q.nullAccess || (chains (hashfn (q.dev bh) (q.blocknr bh))).isEmpty) ∧
      (q.insertIntoQueues bh).dev = q.dev ∧ (q.insertIntoQueues bh).blocknr = q.blocknr ∧
      ∀ b, b ≠ bh → (∀ k, b ∉ chains k) → (q.insertIntoQueues bh).next b = q.next b ∧
        (q.insertIntoQueues bh).prev b = q.prev b := by
  obtain ⟨f, hf⟩ := Option.isSome_iff_exists.1 (List.isSome_head?.2 hfree)
  obtain ⟨l, hl⟩ := Option.isSome_iff_exists.1 (List.getLast?_isSome.2 hfree)
  have hhead : q.freeList = some f := h.freeList.trans hf
  have hlast : q.prevFree f = some l := by
    have hprev := h.ring.prev_head
    rw [hf, hl] at hprev
    exact hprev
  have hne : f ≠ bh := by
    rintro rfl
    exact (List.nodup_append.1 hnodup).2.2 f (List.mem_of_head? hf) f (by simp) rfl
  have hring := h.ring.snoc hfree hnodup
  rw [hf, hl] at hring
  have hend := putAtEnd_eq hhead hlast hne
  have hdev₁ : (q.putAtEnd bh).dev bh ≠ 0 := by
    rw [hend]
    exact hdev
  have hput := putInHashQueue_eq hdev₁
  have htable : (q.putAtEnd bh).hashTable = q.hashTable := by rw [hend]
  generalize hk : hashfn (q.dev bh) (q.blocknr bh) = k
  have hk' : hashfn ((q.putAtEnd bh).dev bh) ((q.putAtEnd bh).blocknr bh) = k := by
    rw [hend]
    exact hk
  rw [hk', htable, h.hashTable] at hput
  unfold BufferQueues.insertIntoQueues
  rw [hput, hend]
  dsimp only
  refine ⟨⟨hring, ?_, fun k' => ?_, fun k' => ?_⟩, ?_, rfl, rfl, fun b hb hnot => ⟨?_, ?_⟩⟩
  · rw [hhead, List.head?_append, hf]
    rfl
  · by_cases heq : k' = k
    · subst heq
      rw [Function.update_self]
      exact (h.chain k').push (hchain k').1 (hchain k').2
    · rw [Function.update_of_ne heq]
      refine (h.chain k').congr (fun a ha => ?_) fun a ha => ?_
      all_goals have hab : a ≠ bh := fun hab => (hchain k').2 (hab ▸ ha)
      · exact Function.update_of_ne hab _ _
      · have hfirst : some a ≠ (chains k).head? := by
          intro hfirst
          exact hdisj k' k heq a ha (List.mem_of_head? hfirst.symm)
        exact (Linked.setAt_of_ne _ hfirst _).trans (Function.update_of_ne hab _ _)
  · dsimp only
    by_cases heq : k' = k
    · subst heq
      rw [Function.update_self, Function.update_self]
      rfl
    · rw [Function.update_of_ne heq, Function.update_of_ne heq, h.hashTable]
  · cases chains k <;> rfl
  · exact Function.update_of_ne hb _ _
  · have hfirst : some b ≠ (chains k).head? := fun hfirst =>
      hnot k (List.mem_of_head? hfirst.symm)
    exact (Linked.setAt_of_ne _ hfirst _).trans (Function.update_of_ne hb _ _)

/-- Re-assigning a buffer does to the lists what the list model does.  It writes
through the null pointer if no other buffer is in the queue of the new block. -/
theorem WellFormed.reassign (h : q.WellFormed chains free) (hn : 2 ≤ n) (bh : Fin n) {dev : UInt16}
    (block : UInt32) (hdev : dev ≠ 0) :
    ∃ q', q.reassign bh dev block = .ok q' ∧
      q'.WellFormed (Function.update (fun k => (chains k).erase bh) (hashfn dev block)
        (bh :: (chains (hashfn dev block)).erase bh)) (free.erase bh ++ [bh]) ∧
      q'.nullAccess = (q.nullAccess || ((chains (hashfn dev block)).erase bh).isEmpty) ∧
      q'.dev = Function.update q.dev bh dev ∧ q'.blocknr = Function.update q.blocknr bh block := by
  obtain ⟨q₁, hremove, hdev₁, hblock₁, hnull₁, hqueues, hunhashed⟩ := h.removeFromQueues hn bh
  let q₂ := { q₁ with
    dev := Function.update q₁.dev bh dev
    blocknr := Function.update q₁.blocknr bh block }
  have hqueues₂ : q₂.Queues (fun k => (chains k).erase bh) (free.erase bh) :=
    ⟨hqueues.ring, hqueues.freeList, hqueues.chain, hqueues.hashTable⟩
  have hdev₂ : q₂.dev bh = dev := Function.update_self ..
  have hblock₂ : q₂.blocknr bh = block := Function.update_self ..
  have hnot (k : ℕ) : bh ∉ (chains k).erase bh := (h.chain_nodup k).not_mem_erase
  have hfree : free.erase bh ≠ [] := by
    obtain ⟨b, hb, hmem⟩ := h.exists_other hn bh
    exact List.ne_nil_of_mem ((List.mem_erase_of_ne hb).2 hmem)
  have hnodup : (free.erase bh ++ [bh]).Nodup :=
    List.nodup_append.2 ⟨h.free_nodup.erase bh, List.nodup_singleton bh, fun a ha b hb hab => by
      rw [List.mem_singleton.1 hb] at hab
      exact h.free_nodup.not_mem_erase (hab ▸ ha)⟩
  obtain ⟨hresult, hnull, hdev', hblock', hframe⟩ := hqueues₂.insertIntoQueues hfree hnodup
    (fun k => ⟨(h.chain_nodup k).erase bh, hnot k⟩)
    (fun k k' hk b hb hb' => hk (h.mem_unique (List.mem_of_mem_erase hb)
      (List.mem_of_mem_erase hb'))) (by rwa [hdev₂])
  rw [hdev₂, hblock₂] at hresult hnull
  rw [hnull₁] at hnull
  have hdev'' : (q₂.insertIntoQueues bh).dev = Function.update q.dev bh dev := by
    rw [hdev', ← hdev₁]
  have hblock'' : (q₂.insertIntoQueues bh).blocknr = Function.update q.blocknr bh block := by
    rw [hblock', ← hblock₁]
  refine ⟨q₂.insertIntoQueues bh, ?_, ⟨hresult, hnodup, fun b => ?_, fun k => ?_, fun k b => ?_,
    fun b hb => ?_⟩, hnull, hdev'', hblock''⟩
  · simp only [BufferQueues.reassign, hremove]
    rfl
  · by_cases hb : b = bh
    · simp [hb]
    · exact List.mem_append_left _ ((List.mem_erase_of_ne hb).2 (h.mem_free b))
  · by_cases hk : k = hashfn dev block
    · subst hk
      rw [Function.update_self]
      exact List.nodup_cons.2 ⟨hnot _, (h.chain_nodup _).erase bh⟩
    · rw [Function.update_of_ne hk]
      exact (h.chain_nodup k).erase bh
  · rw [hdev'', hblock'']
    by_cases hb : b = bh
    · subst hb
      rw [Function.update_self, Function.update_self]
      by_cases hk : k = hashfn dev block
      · simp [hk, hdev]
      · rw [Function.update_of_ne hk]
        exact ⟨fun hmem => absurd hmem (hnot k), fun hmem => absurd hmem.2.symm hk⟩
    · rw [Function.update_of_ne hb, Function.update_of_ne hb, ← h.mem_chain k b]
      by_cases hk : k = hashfn dev block
      · subst hk
        rw [Function.update_self, List.mem_cons, List.mem_erase_of_ne hb]
        exact or_iff_right hb
      · rw [Function.update_of_ne hk, List.mem_erase_of_ne hb]
  · rw [hdev''] at hb
    have hne : b ≠ bh := by
      rintro rfl
      rw [Function.update_self] at hb
      exact hdev hb
    rw [Function.update_of_ne hne] at hb
    obtain ⟨hnext, hprev⟩ := hframe b hne fun k hmem =>
      h.not_mem hb k (List.mem_of_mem_erase hmem)
    rw [hnext, hprev]
    exact hunhashed b hb

/-! ## The list model -/

/-- The pointers make the lists of the cache.  A buffer that has no device has
no block either. -/
structure Represents {τ : Type} (q : BufferQueues n) (s : Cache τ n) : Prop where
  wellFormed : q.WellFormed s.hashTable s.freeList
  dev : ∀ b, q.dev b = (s.head b).dev
  blocknr : ∀ b, q.dev b ≠ 0 → q.blocknr b = (s.head b).blocknr

/-- What `getblk` does to the pointers at its end is what it does to the lists. -/
theorem Represents.reassign {τ : Type} [DecidableEq τ] {s : Cache τ n} (h : q.Represents s)
    (hn : 2 ≤ n) (t : τ) {r : Ref n} (hdev : r.dev ≠ 0) :
    ∃ q', q.reassign r.bh r.dev r.block = .ok q' ∧ q'.Represents (s.reassign t r) := by
  obtain ⟨q', hok, hwf, -, hdev', hblock'⟩ := h.wellFormed.reassign hn r.bh r.block hdev
  have herase : Function.update s.hashTable (hashfn (s.head r.bh).dev (s.head r.bh).blocknr)
      ((s.hashTable (hashfn (s.head r.bh).dev (s.head r.bh).blocknr)).erase r.bh) =
      fun k => (s.hashTable k).erase r.bh := by
    funext k
    by_cases hk : k = hashfn (s.head r.bh).dev (s.head r.bh).blocknr
    · rw [hk, Function.update_self]
    · have hnot : r.bh ∉ s.hashTable k := by
        intro hmem
        obtain ⟨hq, hhash⟩ := (h.wellFormed.mem_chain k r.bh).1 hmem
        rw [h.blocknr r.bh hq, h.dev r.bh] at hhash
        exact hk hhash.symm
      rw [Function.update_of_ne hk, List.erase_of_not_mem hnot]
  have htable : (s.reassign t r).hashTable = Function.update (fun k => (s.hashTable k).erase r.bh)
      (hashfn r.dev r.block) (r.bh :: (s.hashTable (hashfn r.dev r.block)).erase r.bh) := by
    simp only [Cache.reassign, give, setTask, Cache.insertIntoQueues, Cache.removeFromQueues,
      Cache.setHead, Function.update_self, hdev, if_false, herase]
  have hlist : (s.reassign t r).freeList = s.freeList.erase r.bh ++ [r.bh] := rfl
  refine ⟨q', hok, ⟨?_, fun b => ?_, fun b hb => ?_⟩⟩
  · rw [htable, hlist]
    exact hwf
  · rw [hdev', reassign_head]
    by_cases hb : b = r.bh
    · simp [hb]
    · simp [hb, h.dev b]
  · rw [hdev'] at hb
    rw [hblock', reassign_head]
    by_cases heq : b = r.bh
    · simp [heq]
    · rw [Function.update_of_ne heq] at hb
      simp [heq, h.blocknr b hb]

/-! ## Runs -/

/-- `buffer_init` closes the free list in a circle. -/
theorem ring_init {m : ℕ} (blocknr : Fin (m + 1) → UInt32) :
    Ring (init blocknr).nextFree (init blocknr).prevFree (List.finRange (m + 1)) := by
  have hring : Linked (init blocknr).nextFree (init blocknr).prevFree
      ((List.finRange (m + 1)).map some ++ [some 0]) := by
    refine Linked.of_getElem fun i hi => ?_
    have him : i < m + 1 := by simpa using hi
    have hcur : ((List.finRange (m + 1)).map some ++ [some 0])[i] = some ⟨i, him⟩ := by
      simp [him]
    rw [hcur]
    by_cases hlast : i + 1 < m + 1
    · have hnext : ((List.finRange (m + 1)).map some ++ [some 0])[i + 1] = some ⟨i + 1, hlast⟩ := by
        simp [hlast]
      rw [hnext]
      constructor
      · intro a ha
        cases ha
        exact dif_pos hlast
      · intro b hb
        cases hb
        simp [init]
    · have hnext : ((List.finRange (m + 1)).map some ++ [some 0])[i + 1] = some 0 := by
        simp [List.getElem_append, hlast]
      have hend : i = m := by omega
      rw [hnext]
      constructor
      · intro a ha
        cases ha
        exact dif_neg hlast
      · intro b hb
        cases hb
        simp [init, hend]
  rw [List.finRange_succ] at hring ⊢
  exact hring

theorem wellFormed_init (hn : 2 ≤ n) (blocknr : Fin n → UInt32) :
    (init blocknr).WellFormed (fun _ => []) (List.finRange n) := by
  obtain ⟨m, rfl⟩ : ∃ m, n = m + 1 := ⟨n - 1, by omega⟩
  refine ⟨⟨ring_init blocknr, ?_, fun _ => ⟨by simp, by simp, trivial⟩, fun _ => rfl⟩,
    List.nodup_finRange _, List.mem_finRange, fun _ => List.nodup_nil, fun k b => by simp [init],
    fun _ _ => ⟨rfl, rfl⟩⟩
  rw [List.finRange_succ]
  rfl

theorem represents_init (hn : 2 ≤ n) (blocknr : Fin n → UInt32) (τ : Type)
    (requestFn : UInt16 → Bool) : (init blocknr).Represents (Cache.init τ n requestFn) :=
  ⟨wellFormed_init hn blocknr, fun _ => rfl, fun _ hb => absurd rfl hb⟩

end BufferQueues

/-- `getblk` takes a buffer for a block. -/
structure Reassignment (n : ℕ) where
  bh : Fin n
  dev : UInt16
  block : UInt32

namespace BufferQueues

variable {n : ℕ} {q : BufferQueues n} {as : List (Reassignment n)}

/-- One re-assignment of a run.  A panic ends the run. -/
def assign (r : Except String (BufferQueues n)) (a : Reassignment n) :
    Except String (BufferQueues n) :=
  r >>= fun q => q.reassign a.bh a.dev a.block

/-- The queues are well formed, and there was no panic. -/
def Intact (r : Except String (BufferQueues n)) : Prop :=
  ∃ q, r = .ok q ∧ ∃ chains free, q.WellFormed chains free

/-- And nothing was read or written through the null pointer. -/
def Safe (r : Except String (BufferQueues n)) : Prop :=
  ∃ q, r = .ok q ∧ (∃ chains free, q.WellFormed chains free) ∧ q.nullAccess = false

/-- Another buffer is in the queue that the new block hashes to. -/
def Collides (r : Except String (BufferQueues n)) (a : Reassignment n) : Prop :=
  ∀ q, r = .ok q → ∃ b, b ≠ a.bh ∧ q.dev b ≠ 0 ∧
    hashfn (q.dev b) (q.blocknr b) = hashfn a.dev a.block

theorem Intact.assign (hn : 2 ≤ n) {r : Except String (BufferQueues n)} (h : Intact r)
    {a : Reassignment n} (hdev : a.dev ≠ 0) : Intact (assign r a) := by
  obtain ⟨q, rfl, chains, free, hwf⟩ := h
  obtain ⟨q', hok, hwf', -⟩ := hwf.reassign hn a.bh a.block hdev
  exact ⟨q', hok, _, _, hwf'⟩

/-- A re-assignment is safe exactly if it collides. -/
theorem Safe.assign_iff (hn : 2 ≤ n) {r : Except String (BufferQueues n)} (h : Safe r)
    {a : Reassignment n} (hdev : a.dev ≠ 0) : Safe (assign r a) ↔ Collides r a := by
  obtain ⟨q, rfl, ⟨chains, free, hwf⟩, hnull⟩ := h
  obtain ⟨q', hok, hwf', hnull', -⟩ := hwf.reassign hn a.bh a.block hdev
  have hsafe : Safe (.ok q') ↔ (chains (hashfn a.dev a.block)).erase a.bh ≠ [] := by
    rw [hnull, Bool.false_or] at hnull'
    refine ⟨?_, fun hne => ⟨q', rfl, ⟨_, _, hwf'⟩, ?_⟩⟩
    · rintro ⟨q'', hq, -, hfalse⟩ hnil
      cases hq
      rw [hnull', hnil] at hfalse
      cases hfalse
    · rw [hnull']
      simpa using hne
  have hassign : assign (.ok q) a = .ok q' := hok
  rw [hassign, hsafe]
  constructor
  · rintro hne q'' hq
    cases hq
    obtain ⟨b, hb⟩ := List.exists_mem_of_ne_nil _ hne
    obtain ⟨hba, hb⟩ := (hwf.chain_nodup _).mem_erase_iff.1 hb
    exact ⟨b, hba, (hwf.mem_chain _ b).1 hb⟩
  · intro hcollides
    obtain ⟨b, hba, hb⟩ := hcollides q rfl
    exact List.ne_nil_of_mem ((List.mem_erase_of_ne hba).2 ((hwf.mem_chain _ b).2 hb))

theorem eachStep_dev {r : Except String (BufferQueues n)} (hdev : ∀ a ∈ as, a.dev ≠ 0) :
    EachStep assign (fun _ a => a.dev ≠ 0) r as := by
  induction as generalizing r with
  | nil => trivial
  | cons a as ih => exact ⟨hdev a (by simp), ih fun a ha => hdev a (by simp [ha])⟩

/-- The run is safe exactly if every
re-assignment finds another buffer in the queue of the new block. -/
theorem always_safe_iff (hn : 2 ≤ n) {r : Except String (BufferQueues n)} (h : Safe r)
    (hdev : ∀ a ∈ as, a.dev ≠ 0) :
    Always assign Safe r as ↔ EachStep assign Collides r as := by
  exact always_iff (fun _ hs => hs) (fun _ _ hs hd hc => (hs.assign_iff hn hd).2 hc)
    (fun _ _ hs hd hc hsafe => hc ((hs.assign_iff hn hd).1 hsafe)) h (eachStep_dev hdev)

/-- From `buffer_init` on the queues are well formed in every state of every run.
The hash queues are empty then, so that the first re-assignment writes through
the null pointer. -/
theorem queues_from_init (hn : 2 ≤ n) (blocknr : Fin n → UInt32) (hdev : ∀ a ∈ as, a.dev ≠ 0) :
    Always assign Intact (.ok (init blocknr)) as ∧
      (Always assign Safe (.ok (init blocknr)) as ↔ as = []) := by
  have hwf := wellFormed_init hn blocknr
  have hsafe : Safe (.ok (init blocknr)) := ⟨_, rfl, ⟨_, _, hwf⟩, rfl⟩
  have hintact : Intact (.ok (init blocknr)) := ⟨_, rfl, _, _, hwf⟩
  constructor
  · exact (eachStep_dev hdev).always (fun _ hs => hs) (fun _ _ hs hd => hs.assign hn hd) hintact
  · rw [always_safe_iff hn hsafe hdev]
    cases as with
    | nil => simp [EachStep]
    | cons a as =>
        refine ⟨fun h => ?_, fun h => by cases h⟩
        obtain ⟨b, -, hb, -⟩ := h.1 _ rfl
        exact absurd rfl hb

/-- Two buffers, and a re-assignment of each. -/
theorem queues_from_init_two :
    Always assign Intact (.ok (init fun _ : Fin 2 => 0)) [⟨0, 0x301, 5⟩, ⟨1, 0x301, 6⟩] ∧
      (Always assign Safe (.ok (init fun _ : Fin 2 => 0)) [⟨0, 0x301, 5⟩, ⟨1, 0x301, 6⟩] ↔
        [(⟨0, 0x301, 5⟩ : Reassignment 2), ⟨1, 0x301, 6⟩] = []) :=
  queues_from_init (by decide) _ (by simp)

/-- With two buffers the first block that is read goes to an empty hash queue. -/
theorem init_not_safe : ¬Always assign Safe (.ok (init fun _ : Fin 2 => 0)) [⟨0, 0x301, 5⟩] := by
  intro h
  obtain ⟨q, hq, -, hnull⟩ := h.2
  have hwrite : (assign (.ok (init fun _ : Fin 2 => 0)) ⟨0, 0x301, 5⟩).map nullAccess = .ok true := by
    rfl
  rw [show assign (.ok (init fun _ : Fin 2 => 0)) ⟨0, 0x301, 5⟩ = .ok q from hq] at hwrite
  cases hnull.symm.trans (Except.ok.inj hwrite)

end BufferQueues

end MyJavaExample.Fs
