import Mathlib.Algebra.Order.BigOperators.Group.Finset
import MyJavaExample.Fs.InodeTable
import MyJavaExample.Lib.RefCount

/-!
# References to inodes

The count of an inode is the number of references to it: those of the tasks, where a
task that is in one of the functions has some too, and those of the super blocks.  An
inode that a task is about to free has no reference but that one.
-/

namespace MyJavaExample.Fs

open Lib

/-! ## The references of a task -/

section Refs

variable {n : ℕ}

def IgetCont.refs : IgetCont n → List (Fin n)
  | .unlink dir _ => [dir]
  | _ => []

def PutCont.refs : PutCont n → List (Fin n)
  | .done => []
  | .give i => [i]
  | .iput i => [i]
  | .iget _ _ k => k.refs
  | .got i k => i :: k.refs
  | .search _ _ empty k => empty :: k.refs
  | .find .. => []

def EmptyCont.refs : EmptyCont n → List (Fin n)
  | .iget _ _ k => k.refs
  | .create dir _ _ => [dir]

def SyncCont.refs : SyncCont n → List (Fin n)
  | none => []
  | some (i, k) => i :: k.refs

def InodePc.refs : InodePc n → List (Fin n)
  | .idle => []
  | .finding _ dir _ _ _ _ => [dir]
  | .putWait i k => i :: k.refs
  | .putLock i k => i :: k.refs
  | .putWrite _ _ i k => i :: k.refs
  | .putWritten i k => i :: k.refs
  | .truncating i k => i :: k.refs
  | .put k => k.refs
  | .sync _ k => k.refs
  | .syncLock _ _ k => k.refs
  | .syncWrite _ _ _ _ k => k.refs
  | .empty k => k.refs
  | .emptyWait _ k => k.refs
  | .emptyLock _ k => k.refs
  | .emptyWrite _ _ _ k => k.refs
  | .search _ _ i k => i :: k.refs
  | .igetWait _ _ i _ k => i :: k.refs
  | .readLock i k => i :: k.refs
  | .reading i k => i :: k.refs
  | .got i k => i :: k.refs
  | .adding dir _ _ _ i => [dir, i]
  | .emptying i => [i]

/-- The inode that a task is about to free. -/
def InodePc.freed : InodePc n → Option (Fin n)
  | .truncating i _ => some i
  | _ => none

def InodeTask.refs (task : InodeTask n) : List (Fin n) :=
  task.root :: task.pwd :: (task.held ++ task.pc.refs)

/-- The references of a task to an inode. -/
def InodeTask.refCount (task : InodeTask n) (i : Fin n) : ℕ := task.refs.count i

def InodeSuper.refs (sb : InodeSuper n) : List (Fin n) := sb.isup.toList ++ sb.imount.toList

variable {task : InodeTask n} {i : Fin n}

theorem InodePc.mem_refs_of_freed {pc : InodePc n} (h : i ∈ pc.freed) : i ∈ pc.refs := by
  cases pc with
  | truncating j k =>
      obtain rfl := Option.some.inj h
      exact List.mem_cons_self
  | _ => cases h

theorem InodeTask.refCount_eq (task : InodeTask n) (i : Fin n) :
    task.refCount i = [task.root, task.pwd].count i + task.held.count i + task.pc.refs.count i := by
  rw [InodeTask.refCount, InodeTask.refs, ← List.count_append, ← List.count_append]
  rfl

theorem InodeTask.refCount_setPc (task : InodeTask n) (pc : InodePc n) (i : Fin n) :
    (task.goTo pc).refCount i + task.pc.refs.count i =
      task.refCount i + pc.refs.count i := by
  have hnew : (task.goTo pc).refCount i =
      [task.root, task.pwd].count i + task.held.count i + pc.refs.count i :=
    InodeTask.refCount_eq (task.goTo pc) i
  rw [hnew, InodeTask.refCount_eq task]
  omega

theorem InodeTask.refCount_pos_of_pc (h : i ∈ task.pc.refs) : 0 < task.refCount i := by
  have hpos := List.count_pos_iff.2 h
  rw [InodeTask.refCount_eq]
  omega

theorem InodeTask.refCount_pos_of_freed (h : i ∈ task.pc.freed) : 0 < task.refCount i :=
  refCount_pos_of_pc (InodePc.mem_refs_of_freed h)

theorem InodeTask.refCount_root_pos (task : InodeTask n) : 0 < task.refCount task.root :=
  List.count_pos_iff.2 List.mem_cons_self

theorem InodeTask.refCount_pwd_pos (task : InodeTask n) : 0 < task.refCount task.pwd :=
  List.count_pos_iff.2 (List.mem_cons_of_mem _ List.mem_cons_self)

end Refs

namespace InodeTable

variable {τ : Type} {n : ℕ}

/-! ## The invariant -/

/-- No two slots have the same number of the same device. -/
def Unique (s : InodeTable τ n) : Prop :=
  ∀ i j, (s.slot i).dev ≠ 0 → (s.slot j).dev = (s.slot i).dev → (s.slot j).num = (s.slot i).num →
    i = j

/-- The number is one of the device, and its bit is set in the map. -/
def InUse (s : InodeTable τ n) (dev nr : ℕ) : Prop :=
  ∃ sb, s.getSuper dev = some sb ∧ 1 ≤ nr ∧ nr ≤ sb.ninodes ∧ s.used dev nr = true

/-- Some task is about to free the inode. -/
def Freed (s : InodeTable τ n) (i : Fin n) : Prop := ∃ t, i ∈ (s.task t).pc.freed

@[simp] theorem setSlot_self (s : InodeTable τ n) (i : Fin n) (x : MInode) :
    (s.setSlot i x).slot i = x :=
  Function.update_self ..

theorem setSlot_of_ne (s : InodeTable τ n) {i j : Fin n} (x : MInode) (h : j ≠ i) :
    (s.setSlot i x).slot j = s.slot j :=
  Function.update_of_ne h ..

variable [Fintype τ]

/-- The references to an inode. -/
def total (s : InodeTable τ n) (i : Fin n) : ℕ :=
  ∑ t, (s.task t).refCount i + (s.supers.flatMap InodeSuper.refs).count i

/-- The counts are the references, and an inode that is in memory is in use on its
device. -/
structure Inv (s : InodeTable τ n) : Prop where
  counts : ∀ i, (s.slot i).count = s.total i
  unique : s.Unique
  used : ∀ i, (s.slot i).dev ≠ 0 → s.InUse (s.slot i).dev (s.slot i).num
  freed : ∀ i, s.Freed i → (s.slot i).count = 1 ∧ (s.slot i).nlinks = 0

variable {s : InodeTable τ n} {t : τ} {i : Fin n}

theorem Inv.refCount_le (h : s.Inv) (t : τ) (i : Fin n) :
    (s.task t).refCount i ≤ (s.slot i).count := by
  have hle := Finset.single_le_sum (f := fun t => (s.task t).refCount i) (fun _ _ => Nat.zero_le _)
    (Finset.mem_univ t)
  rw [h.counts, total]
  exact hle.trans (Nat.le_add_right _ _)

/-- An inode that is about to be freed has no reference of another task. -/
theorem Inv.refCount_eq_zero (h : s.Inv) {t' : τ} (ht' : i ∈ (s.task t').pc.freed) (hne : t ≠ t') :
    (s.task t).refCount i = 0 := by
  have htwo := Finset.add_le_sum (f := fun t => (s.task t).refCount i) (fun _ _ => Nat.zero_le _)
    (Finset.mem_univ t) (Finset.mem_univ t') hne
  have hpos := InodeTask.refCount_pos_of_freed ht'
  have hcount := h.counts i
  rw [(h.freed i ⟨t', ht'⟩).1, total] at hcount
  omega

theorem Inv.not_freed (h : s.Inv) (hpos : 0 < (s.task t).refCount i)
    (hpc : (s.task t).pc.freed = none) : ¬s.Freed i := by
  rintro ⟨t', ht'⟩
  have hne : t ≠ t' := by
    rintro rfl
    rw [hpc] at ht'
    cases ht'
  exact hpos.ne' (h.refCount_eq_zero ht' hne)

/-- Nor has it a reference of a super block. -/
theorem Inv.not_freed_of_mountedOn (h : s.Inv) {dev : ℕ} (hmount : s.mountedOn dev = some i) :
    ¬s.Freed i := by
  rintro ⟨t, ht⟩
  obtain ⟨sb, hsb, himount⟩ := Option.bind_eq_some_iff.1 hmount
  have hmem : i ∈ s.supers.flatMap InodeSuper.refs := by
    refine List.mem_flatMap.2 ⟨sb, List.mem_of_find?_eq_some hsb, ?_⟩
    exact List.mem_append_right _ (Option.mem_toList.2 himount)
  have hsuper := List.count_pos_iff.2 hmem
  have hpos := InodeTask.refCount_pos_of_freed ht
  have hle := Finset.single_le_sum (f := fun t => (s.task t).refCount i) (fun _ _ => Nat.zero_le _)
    (Finset.mem_univ t)
  have hcount := h.counts i
  rw [(h.freed i ⟨t, ht⟩).1, total] at hcount
  omega

/-! ## Changes of the table -/

/-- A change of a slot that keeps its number and its count. -/
theorem Inv.setSlot (h : s.Inv) {x : MInode} (hdev : x.dev = (s.slot i).dev)
    (hnum : x.num = (s.slot i).num) (hcount : x.count = (s.slot i).count)
    (hlinks : s.Freed i → x.nlinks = (s.slot i).nlinks) : (s.setSlot i x).Inv := by
  have hkeep : ∀ j, ((s.setSlot i x).slot j).dev = (s.slot j).dev ∧
      ((s.setSlot i x).slot j).num = (s.slot j).num ∧
      ((s.setSlot i x).slot j).count = (s.slot j).count ∧
      (s.Freed j → ((s.setSlot i x).slot j).nlinks = (s.slot j).nlinks) := by
    intro j
    by_cases heq : j = i
    · subst heq
      rw [setSlot_self]
      exact ⟨hdev, hnum, hcount, hlinks⟩
    · rw [setSlot_of_ne s x heq]
      exact ⟨rfl, rfl, rfl, fun _ => rfl⟩
  refine ⟨fun j => ?_, fun j k => ?_, fun j => ?_, fun j hj => ?_⟩
  · exact (hkeep j).2.2.1.trans (h.counts j)
  · rw [(hkeep j).1, (hkeep j).2.1, (hkeep k).1, (hkeep k).2.1]
    exact h.unique j k
  · rw [(hkeep j).1, (hkeep j).2.1]
    exact h.used j
  · rw [(hkeep j).2.2.1, (hkeep j).2.2.2 hj]
    exact h.freed j hj

/-- A slot gets a number that no slot has. -/
theorem Inv.fill (h : s.Inv) {x : MInode} (hcount : x.count = (s.slot i).count)
    (hfresh : ∀ j, x.dev ≠ 0 → ¬((s.slot j).dev = x.dev ∧ (s.slot j).num = x.num))
    (huse : s.InUse x.dev x.num) (hfreed : ¬s.Freed i) : (s.setSlot i x).Inv := by
  have hself : (s.setSlot i x).slot i = x := setSlot_self s i x
  have hother : ∀ j, j ≠ i → (s.setSlot i x).slot j = s.slot j := fun j => setSlot_of_ne s x
  refine ⟨fun j => ?_, fun j k hdev hdevs hnums => ?_, fun j hdev => ?_, fun j hj => ?_⟩
  · by_cases heq : j = i
    · subst heq
      rw [hself, hcount]
      exact h.counts j
    · rw [hother j heq]
      exact h.counts j
  · by_cases hj : j = i
    · subst hj
      by_cases hk : k = j
      · exact hk.symm
      · rw [hself] at hdev hdevs hnums
        rw [hother k hk] at hdevs hnums
        exact absurd ⟨hdevs, hnums⟩ (hfresh k hdev)
    · by_cases hk : k = i
      · subst hk
        rw [hother j hj] at hdev hdevs hnums
        rw [hself] at hdevs hnums
        exact absurd ⟨hdevs.symm, hnums.symm⟩ (hfresh j (hdevs ▸ hdev))
      · rw [hother j hj] at hdev hdevs hnums
        rw [hother k hk] at hdevs hnums
        exact h.unique j k hdev hdevs hnums
  · by_cases heq : j = i
    · subst heq
      rw [hself]
      exact huse
    · rw [hother j heq] at hdev ⊢
      exact h.used j hdev
  · have hne : j ≠ i := by
      rintro rfl
      exact hfreed hj
    rw [hother j hne]
    exact h.freed j hj

omit [Fintype τ] in
theorem setUsed_used (s : InodeTable τ n) (dev nr : ℕ) (bit : Bool) (dev' nr' : ℕ) :
    (s.setUsed dev nr bit).used dev' nr' =
      if dev' = dev ∧ nr' = nr then bit else s.used dev' nr' := by
  change Function.update s.used dev (Function.update (s.used dev) nr bit) dev' nr' = _
  by_cases hdev : dev' = dev
  · subst hdev
    rw [Function.update_self]
    by_cases hnr : nr' = nr
    · subst hnr
      rw [Function.update_self, if_pos ⟨rfl, rfl⟩]
    · rw [Function.update_of_ne hnr, if_neg fun hc => hnr hc.2]
  · rw [Function.update_of_ne hdev, if_neg fun hc => hdev hc.1]

/-- A bit is set, or one that no slot has is cleared. -/
theorem Inv.setUsed (h : s.Inv) (dev nr : ℕ) {bit : Bool}
    (hbit : bit = true ∨ ∀ j, (s.slot j).dev ≠ 0 → ¬((s.slot j).dev = dev ∧ (s.slot j).num = nr)) :
    (s.setUsed dev nr bit).Inv := by
  refine ⟨h.counts, h.unique, fun j hj => ?_, h.freed⟩
  obtain ⟨sb, hsuper, hpos, hle, hused⟩ := h.used j hj
  refine ⟨sb, hsuper, hpos, hle, ?_⟩
  rw [setUsed_used]
  split
  next hkey => exact hbit.resolve_right fun hno => hno j hj hkey
  next => exact hused

/-! ## Changes of a task -/

variable [DecidableEq τ]

omit [Fintype τ] in
@[simp] theorem setTask_self (s : InodeTable τ n) (t : τ) (x : InodeTask n) :
    (s.setTask t x).task t = x :=
  Function.update_self ..

theorem total_setTask (s : InodeTable τ n) (t : τ) (x : InodeTask n) (i : Fin n) :
    (s.setTask t x).total i + (s.task t).refCount i = s.total i + x.refCount i := by
  have hsum := sum_update_add (fun x : InodeTask n => x.refCount i) s.task t x
  simp only [total, setTask]
  omega

omit [Fintype τ] in
theorem freed_setTask {x : InodeTask n} (h : (s.setTask t x).Freed i) :
    i ∈ x.pc.freed ∨ ∃ t', t' ≠ t ∧ i ∈ (s.task t').pc.freed := by
  obtain ⟨t', ht'⟩ := h
  change i ∈ (Function.update s.task t x t').pc.freed at ht'
  by_cases heq : t' = t
  · subst heq
    rw [Function.update_self] at ht'
    exact .inl ht'
  · rw [Function.update_of_ne heq] at ht'
    exact .inr ⟨t', heq, ht'⟩

/-- The references of a task and a count change together.  The slot keeps its number or
gets none. -/
theorem Inv.change (h : s.Inv) {x : InodeTask n} {y : MInode}
    (hkey : (y.dev = (s.slot i).dev ∧ y.num = (s.slot i).num) ∨ y.dev = 0)
    (hcount : y.count + (s.task t).refCount i = (s.slot i).count + x.refCount i)
    (hrefs : ∀ j, j ≠ i → x.refCount j = (s.task t).refCount j)
    (hfreed : ∀ t', t' ≠ t → i ∉ (s.task t').pc.freed) (hpc : x.pc.freed = none) :
    ((s.setSlot i y).setTask t x).Inv := by
  have hself : (s.setSlot i y).slot i = y := setSlot_self s i y
  have hother : ∀ j, j ≠ i → (s.setSlot i y).slot j = s.slot j := fun j => setSlot_of_ne s y
  refine ⟨fun j => ?_, fun j k hdev hdevs hnums => ?_, fun j hdev => ?_, fun j hj => ?_⟩
  · have htotal := total_setTask (s.setSlot i y) t x j
    have hold : (s.slot j).count = (s.setSlot i y).total j := h.counts j
    change ((s.setSlot i y).slot j).count = _
    change _ + (s.task t).refCount j = _ at htotal
    by_cases heq : j = i
    · subst heq
      rw [hself]
      omega
    · have hrefs := hrefs j heq
      rw [hother j heq]
      omega
  · change ((s.setSlot i y).slot j).dev ≠ 0 at hdev
    change ((s.setSlot i y).slot k).dev = ((s.setSlot i y).slot j).dev at hdevs
    change ((s.setSlot i y).slot k).num = ((s.setSlot i y).slot j).num at hnums
    have hkeep : ∀ l, ((s.setSlot i y).slot l).dev ≠ 0 →
        ((s.setSlot i y).slot l).dev = (s.slot l).dev ∧
          ((s.setSlot i y).slot l).num = (s.slot l).num := by
      intro l hl
      by_cases heq : l = i
      · subst heq
        rw [hself] at hl ⊢
        exact hkey.resolve_right hl
      · rw [hother l heq]
        exact ⟨rfl, rfl⟩
    have hj := hkeep j hdev
    have hk := hkeep k (hdevs ▸ hdev)
    rw [hj.1] at hdev hdevs
    rw [hj.2, hk.2] at hnums
    exact h.unique j k hdev (hk.1 ▸ hdevs) hnums
  · change ((s.setSlot i y).slot j).dev ≠ 0 at hdev
    change s.InUse ((s.setSlot i y).slot j).dev ((s.setSlot i y).slot j).num
    by_cases heq : j = i
    · subst heq
      rw [hself] at hdev ⊢
      obtain ⟨hdev', hnum'⟩ := hkey.resolve_right hdev
      rw [hdev'] at hdev
      rw [hdev', hnum']
      exact h.used j hdev
    · rw [hother j heq] at hdev ⊢
      exact h.used j hdev
  · rcases freed_setTask hj with hx | ⟨t', hne, ht'⟩
    · rw [hpc] at hx
      cases hx
    · have hji : j ≠ i := by
        rintro rfl
        exact hfreed t' hne ht'
      change ((s.setSlot i y).slot j).count = 1 ∧ ((s.setSlot i y).slot j).nlinks = 0
      rw [hother j hji]
      exact h.freed j ⟨t', ht'⟩

/-- A task goes to another place with the same references. -/
theorem Inv.setTask (h : s.Inv) {x : InodeTask n}
    (hrefs : ∀ i, x.refCount i = (s.task t).refCount i)
    (hpc : ∀ i ∈ x.pc.freed, (s.slot i).count = 1 ∧ (s.slot i).nlinks = 0) :
    (s.setTask t x).Inv := by
  refine ⟨fun j => ?_, h.unique, h.used, fun j hj => ?_⟩
  · have htotal := total_setTask s t x j
    have hcounts := h.counts j
    have hrefs := hrefs j
    change (s.slot j).count = _
    omega
  · rcases freed_setTask hj with hx | ⟨t', -, ht'⟩
    · exact hpc j hx
    · exact h.freed j ⟨t', ht'⟩

theorem Inv.setPc (h : s.Inv) {pc : InodePc n} (hrefs : pc.refs.Perm (s.task t).pc.refs)
    (hpc : pc.freed = none) : (s.setPc t pc).Inv := by
  refine h.setTask (fun i => ?_) fun i hi => ?_
  · have hset := InodeTask.refCount_setPc (s.task t) pc i
    have hcount := hrefs.count_eq i
    omega
  · rw [show ((s.task t).goTo pc).pc.freed = none from hpc] at hi
    cases hi

theorem Inv.give (h : s.Inv) (hrefs : (s.task t).pc.refs = [i]) : (s.give t i).Inv := by
  refine h.setTask (fun j => ?_) fun j hj => by cases hj
  rw [InodeTask.refCount_eq, InodeTask.refCount_eq (s.task t), hrefs]
  simp only [InodePc.refs, List.count_cons, List.count_nil]
  omega

/-- A task takes a reference to an inode that is not about to be freed. -/
theorem Inv.take (h : s.Inv) {pc : InodePc n} (hfreed : ¬s.Freed i)
    (hrefs : pc.refs.Perm (i :: (s.task t).pc.refs)) (hpc : pc.freed = none) :
    ((s.setCount i ((s.slot i).count + 1)).setPc t pc).Inv := by
  have hset := InodeTask.refCount_setPc (s.task t) pc
  have hcount := fun j => hrefs.count_eq j
  refine h.change (.inl ⟨rfl, rfl⟩) ?_ (fun j hne => ?_) (fun t' _ ht' => hfreed ⟨t', ht'⟩) hpc
  · have hset := hset i
    have hcount := hcount i
    rw [List.count_cons_self] at hcount
    change (s.slot i).count + 1 + _ = _ + ((s.task t).goTo pc).refCount i
    omega
  · have hset := hset j
    have hcount := hcount j
    rw [List.count_cons_of_ne (Ne.symm hne)] at hcount
    change ((s.task t).goTo pc).refCount j = _
    omega

/-- A task gives up a reference, and the slot may be cleared with the last one. -/
theorem Inv.drop (h : s.Inv) {pc : InodePc n} {y : MInode}
    (hrefs : (s.task t).pc.refs = i :: pc.refs) (hpc : pc.freed = none)
    (hkey : (y.dev = (s.slot i).dev ∧ y.num = (s.slot i).num) ∨ y.dev = 0)
    (hy : y.count + 1 = (s.slot i).count) : ((s.setSlot i y).setPc t pc).Inv := by
  have hset := InodeTask.refCount_setPc (s.task t) pc
  refine h.change hkey ?_ (fun j hne => ?_) (fun t' hne ht' => ?_) hpc
  · have hset := hset i
    rw [hrefs, List.count_cons_self] at hset
    change _ = _ + ((s.task t).goTo pc).refCount i
    omega
  · have hset := hset j
    rw [hrefs, List.count_cons_of_ne (Ne.symm hne)] at hset
    change ((s.task t).goTo pc).refCount j = _
    omega
  -- another task that is about to free the inode would have the only reference
  · have hpos : 0 < (s.task t).refCount i := InodeTask.refCount_pos_of_pc (by
      rw [hrefs]
      exact List.mem_cons_self)
    exact hpos.ne' (h.refCount_eq_zero ht' (Ne.symm hne))

/-- A task takes a slot without references. -/
theorem Inv.clear (h : s.Inv) {pc : InodePc n} (hcount : (s.slot i).count = 0)
    (hrefs : pc.refs.Perm (i :: (s.task t).pc.refs)) (hpc : pc.freed = none) :
    ((s.setSlot i .fresh).setPc t pc).Inv := by
  have hset := InodeTask.refCount_setPc (s.task t) pc
  have hperm := fun j => hrefs.count_eq j
  refine h.change (.inr rfl) ?_ (fun j hne => ?_) (fun t' _ ht' => ?_) hpc
  · have hset := hset i
    have hperm := hperm i
    rw [List.count_cons_self] at hperm
    change 1 + _ = _ + ((s.task t).goTo pc).refCount i
    omega
  · have hset := hset j
    have hperm := hperm j
    rw [List.count_cons_of_ne (Ne.symm hne)] at hperm
    change ((s.task t).goTo pc).refCount j = _
    omega
  · have hone := (h.freed i ⟨t', ht'⟩).1
    omega

end InodeTable

end MyJavaExample.Fs
