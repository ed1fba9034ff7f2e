import Mathlib.Data.Sum.Basic
import MyJavaExample.Mm.PageRefs

/-!
# Consistent page tables

The references of a memory are those of its directory and of the tables the
directory refers to.  A memory is consistent when `mem_map` counts them, and
when an entry that can be written is the only reference to its page.

Each change of the memory is described by what it does to the directory
(`dirRef`) and to the entries (`entryAt`), and keeps a memory consistent.
-/

namespace MyJavaExample.Mm

open Lib

/-- The table an entry of the directory refers to, the kernel's own left out. -/
def dirRef (m : Memory) (d : Fin 1024) : Option ℕ :=
  if 4 ≤ d.val ∧ (m.pgDir d).present then some (m.pgDir d).frame else none

/-- An entry, if it is present. -/
def Entry.get? (e : Entry) : Option Entry := if e.present then some e else none

/-- The present entry of a process at an index of a table. -/
def entryAt (m : Memory) (x : Fin 1024 × Fin 1024) : Option Entry :=
  (dirRef m x.1).bind fun t => (m.table t x.2).get?

def refOf (m : Memory) : Place → Option ℕ :=
  Sum.elim (dirRef m) fun x => (entryAt m x).map Entry.frame

/-- The part of the kernel's own table that is copied to the first process maps
pages below `LOW_MEM`. -/
def KernelLow (m : Memory) : Prop :=
  (m.pgDir 0).frame < LOW_MEM ∧ ∀ i < 0xA0, (m.table (m.pgDir 0).frame i).frame < LOW_MEM

/-- The free memory at boot, from the page `start` to the page `high`. -/
structure Bounds where
  start : ℕ
  high : ℕ

structure Consistent (bounds : Bounds) (m : Memory) (held : List ℕ) : Prop where
  counted : Counted bounds.start m.highMemory m.memMap (refOf m) held
  writable : ∀ x e, entryAt m x = some e → e.writable →
    LOW_MEM ≤ e.frame ∧ m.memMap e.frame = 1
  kernel : KernelLow m
  high : m.highMemory = bounds.high

section Basic

variable {bounds : Bounds} {m m' : Memory} {held : List ℕ} {d i : Fin 1024} {t p : ℕ} {e : Entry}

theorem dirRef_eq_some :
    dirRef m d = some t ↔ 4 ≤ d.val ∧ (m.pgDir d).present ∧ (m.pgDir d).frame = t := by
  rw [dirRef]
  split
  next h => simp [h]
  next h =>
    constructor
    · intro hno
      cases hno
    · rintro ⟨h₁, h₂, -⟩
      exact absurd ⟨h₁, h₂⟩ h

theorem Entry.get?_eq_some {e' : Entry} : e.get? = some e' ↔ e.present ∧ e = e' := by
  rw [Entry.get?]
  split
  next h => simp [h]
  next h => simp [h]

theorem entryAt_eq_some {x : Fin 1024 × Fin 1024} :
    entryAt m x = some e ↔ ∃ t, dirRef m x.1 = some t ∧ (m.table t x.2).present ∧
      m.table t x.2 = e := by
  rw [entryAt, Option.bind_eq_some_iff]
  exact exists_congr fun t => and_congr_right fun _ => Entry.get?_eq_some

theorem present_of_entryAt {x : Fin 1024 × Fin 1024} (h : entryAt m x = some e) : e.present := by
  obtain ⟨t, -, hpresent, rfl⟩ := entryAt_eq_some.1 h
  exact hpresent

theorem entryAt_of_dirRef (h : dirRef m d = some t) :
    entryAt m (d, i) = (m.table t i).get? := by
  rw [entryAt, h, Option.bind_some]

theorem entryAt_of_dirRef_none (h : dirRef m d = none) : entryAt m (d, i) = none := by
  rw [entryAt, h, Option.bind_none]

theorem refOf_entry {x : Fin 1024 × Fin 1024} (h : entryAt m x = some e) :
    refOf m (.inr x) = some e.frame := by
  rw [refOf, Sum.elim_inr, h, Option.map_some]

theorem Consistent.perm {held' : List ℕ} (h : Consistent bounds m held)
    (hperm : held.Perm held') : Consistent bounds m held' :=
  { h with counted := h.counted.perm hperm }

/-- Two entries of the directory do not share a table. -/
theorem Consistent.dir_unique (h : Consistent bounds m held) {d' : Fin 1024}
    (hd : dirRef m d = some t) (hd' : dirRef m d' = some t) : d' = d :=
  Sum.inl.inj (h.counted.table_unique (d := d) (r := .inl d') hd hd')

theorem Consistent.low_le_table (h : Consistent bounds m held) (hd : dirRef m d = some t) :
    LOW_MEM ≤ t :=
  (h.counted.tables d t hd).1

/-- The kernel's own table is none of the tables of the processes. -/
theorem Consistent.table_ne_kernel (h : Consistent bounds m held) (hd : dirRef m d = some t) :
    (m.pgDir 0).frame ≠ t := by
  have hlow := h.low_le_table hd
  have hkernel := h.kernel.1
  omega

/-- The page of an entry is not a table and not held by the kernel. -/
theorem Consistent.entry_ne_table (h : Consistent bounds m held) {x : Fin 1024 × Fin 1024}
    (hx : entryAt m x = some e) (hd : dirRef m d = some t) : e.frame ≠ t := by
  rintro rfl
  cases h.counted.table_unique (d := d) (r := .inr x) hd (refOf_entry hx)

/-- The consistency depends on the counts, the references and the kernel's table. -/
theorem Consistent.of_eq (h : Consistent bounds m held) (hhigh : m'.highMemory = m.highMemory)
    (hmap : m'.memMap = m.memMap) (hdir : dirRef m' = dirRef m) (hentry : entryAt m' = entryAt m)
    (hpg : m'.pgDir 0 = m.pgDir 0) (htable : m'.table (m.pgDir 0).frame = m.table (m.pgDir 0).frame) :
    Consistent bounds m' held where
  counted := by
    rw [hhigh, hmap, refOf, hdir, hentry]
    exact h.counted
  writable := by
    rw [hentry, hmap]
    exact h.writable
  kernel := by
    rw [KernelLow, hpg, htable]
    exact h.kernel
  high := hhigh.trans h.high

end Basic

/-! ## Changes of the directory and of the tables -/

section Effects

variable {bounds : Bounds} {m : Memory} {held : List ℕ} {d i : Fin 1024} {t : ℕ}

theorem setEntry_table_self (m : Memory) (t i : ℕ) (e : Entry) :
    (m.setEntry t i e).table t = Function.update (m.table t) i e :=
  Function.update_self ..

theorem setEntry_table_ne (m : Memory) {t t' : ℕ} (h : t' ≠ t) (i : ℕ) (e : Entry) :
    (m.setEntry t i e).table t' = m.table t' :=
  Function.update_of_ne h ..

theorem dirRef_setEntry (m : Memory) (t i : ℕ) (e : Entry) :
    dirRef (m.setEntry t i e) = dirRef m :=
  rfl

theorem entryAt_setEntry_of_unique (hunique : ∀ d', dirRef m d' = some t → d' = d)
    (hd : dirRef m d = some t) (e : Entry) :
    entryAt (m.setEntry t i e) = Function.update (entryAt m) (d, i) e.get? := by
  funext ⟨d', i'⟩
  cases hd' : dirRef m d' with
  | none =>
      have hne : (d', i') ≠ (d, i) := by
        rintro ⟨⟩
        rw [hd] at hd'
        cases hd'
      rw [Function.update_of_ne hne, entryAt_of_dirRef_none hd']
      exact entryAt_of_dirRef_none (m := m.setEntry t i e) hd'
  | some t' =>
      rw [entryAt_of_dirRef (m := m.setEntry t i e) hd']
      by_cases hdd : d' = d
      · subst hdd
        cases hd.symm.trans hd'
        rw [setEntry_table_self]
        by_cases hii : i' = i
        · subst hii
          rw [Function.update_self, Function.update_self]
        · have hne : (d', i') ≠ (d', i) := fun heq => hii (Prod.mk.inj heq).2
          have hval : i'.val ≠ i.val := fun heq => hii (Fin.ext heq)
          rw [Function.update_of_ne hval, Function.update_of_ne hne, entryAt_of_dirRef hd]
      · have hne : (d', i') ≠ (d, i) := fun heq => hdd (Prod.mk.inj heq).1
        have htt : t' ≠ t := by
          rintro rfl
          exact hdd (hunique d' hd')
        rw [setEntry_table_ne m htt, Function.update_of_ne hne, entryAt_of_dirRef hd']

theorem entryAt_setEntry (h : Consistent bounds m held) (hd : dirRef m d = some t) (e : Entry) :
    entryAt (m.setEntry t i e) = Function.update (entryAt m) (d, i) e.get? :=
  entryAt_setEntry_of_unique (fun _ hd' => h.dir_unique hd hd') hd e

theorem dirRef_setDir {d : Fin 1024} (hd : 4 ≤ d.val) (e : Entry) :
    dirRef (m.setDir d e) = Function.update (dirRef m) d (if e.present then some e.frame else none) := by
  funext d'
  by_cases hdd : d' = d
  · subst hdd
    simp [dirRef, Memory.setDir, hd]
  · have hval : d'.val ≠ d.val := fun heq => hdd (Fin.ext heq)
    rw [Function.update_of_ne hdd]
    simp [dirRef, Memory.setDir, Function.update_of_ne hval]

/-- Linking or unlinking a table without entries changes no entry. -/
theorem entryAt_setDir {d : Fin 1024} (hd : 4 ≤ d.val) {e : Entry}
    (hold : ∀ i, entryAt m (d, i) = none)
    (hnew : ∀ i, e.present → (m.table e.frame i).present = false) :
    entryAt (m.setDir d e) = entryAt m := by
  funext ⟨d', i'⟩
  by_cases hdd : d' = d
  · subst hdd
    rw [hold i', entryAt, dirRef_setDir hd, Function.update_self]
    by_cases he : e.present
    · simp [he, Memory.setDir, Entry.get?, hnew i'.val he]
    · simp [he]
  · rw [entryAt, entryAt, dirRef_setDir hd, Function.update_of_ne hdd]
    rfl

theorem refOf_eq_update_dir {m' : Memory} {v : Option ℕ}
    (hdir : dirRef m' = Function.update (dirRef m) d v) (hentry : entryAt m' = entryAt m) :
    refOf m' = Function.update (refOf m) (.inl d) v := by
  rw [refOf, refOf, hdir, hentry, Sum.elim_update_left]

theorem refOf_eq_update_entry {m' : Memory} {x : Fin 1024 × Fin 1024} {v : Option Entry}
    (hdir : dirRef m' = dirRef m) (hentry : entryAt m' = Function.update (entryAt m) x v) :
    refOf m' = Function.update (refOf m) (.inr x) (v.map Entry.frame) := by
  have hmap : (fun y => (Function.update (entryAt m) x v y).map Entry.frame) =
      Function.update (fun y => (entryAt m y).map Entry.frame) x (v.map Entry.frame) := by
    funext y
    by_cases hy : y = x
    · subst hy
      simp
    · simp [Function.update_of_ne hy]
  rw [refOf, refOf, hdir, hentry, hmap, Sum.elim_update_right]

end Effects

/-! ## Free pages -/

section Alloc

variable {bounds : Bounds} {m m' : Memory} {held : List ℕ} {p : ℕ}

theorem findFree_some {memMap : ℕ → ℕ} {n : ℕ} (h : findFree memMap n = some p) :
    LOW_MEM ≤ p ∧ memMap p = 0 := by
  induction n with
  | zero => cases h
  | succ n ih =>
      rw [findFree] at h
      split at h
      next hfree =>
        cases h
        exact ⟨Nat.le_add_right _ _, hfree⟩
      next => exact ih h

theorem getFreePage_some (h : getFreePage m = some (p, m')) :
    LOW_MEM ≤ p ∧ m.memMap p = 0 ∧ m' = (m.setCount p 1).clearPage p := by
  obtain ⟨q, hq, heq⟩ := Option.map_eq_some_iff.1 h
  cases heq
  obtain ⟨hlow, hfree⟩ := findFree_some hq
  exact ⟨hlow, hfree, rfl⟩

/-- A free page is neither a table nor the page of an entry. -/
theorem Consistent.free_ne (h : Consistent bounds m held) (hlow : LOW_MEM ≤ p)
    (hfree : m.memMap p = 0) :
    (∀ d, dirRef m d ≠ some p) ∧ (∀ x e, entryAt m x = some e → e.frame ≠ p) ∧ p ∉ held := by
  obtain ⟨-, hunref, hheld⟩ := h.counted.free_unreferenced hlow hfree
  refine ⟨fun d => hunref (.inl d), fun x e hx hep => ?_, hheld⟩
  exact hunref (.inr x) (hep ▸ refOf_entry hx)

/-- `getFreePage` hands out a page that nothing refers to, and changes nothing
else. -/
structure Handed (m m' : Memory) (p : ℕ) : Prop where
  low : LOW_MEM ≤ p
  free : m.memMap p = 0
  memory : m' = (m.setCount p 1).clearPage p
  dirRef : dirRef m' = dirRef m
  entryAt : entryAt m' = entryAt m

/-- A page that is not a table is handed out. -/
theorem handed_of_getFreePage (hget : getFreePage m = some (p, m')) (hdir : ∀ d, dirRef m d ≠ some p) :
    Handed m m' p := by
  obtain ⟨hlow, hfree, hm'⟩ := getFreePage_some hget
  have hdirRef : dirRef m' = dirRef m := by
    rw [hm']
    rfl
  refine ⟨hlow, hfree, hm', hdirRef, ?_⟩
  funext ⟨d, i⟩
  rw [entryAt, entryAt, hdirRef]
  cases hd : dirRef m d with
  | none => rfl
  | some t =>
      have ht : t ≠ p := by
        rintro rfl
        exact hdir d hd
      have htable : m'.table t = m.table t := by
        rw [hm']
        exact Function.update_of_ne ht ..
      simp only [Option.bind_some, htable]

theorem Consistent.handed (h : Consistent bounds m held) (hget : getFreePage m = some (p, m')) :
    Handed m m' p := by
  obtain ⟨hlow, hfree, -⟩ := getFreePage_some hget
  exact handed_of_getFreePage hget (h.free_ne hlow hfree).1

theorem Handed.pgDir (h : Handed m m' p) : m'.pgDir = m.pgDir := by
  rw [h.memory]
  rfl

theorem Handed.highMemory (h : Handed m m' p) : m'.highMemory = m.highMemory := by
  rw [h.memory]
  rfl

theorem Handed.memMap (h : Handed m m' p) : m'.memMap = Function.update m.memMap p 1 := by
  rw [h.memory]
  rfl

theorem Handed.table_self (h : Handed m m' p) (i : ℕ) : m'.table p i = .zero := by
  rw [h.memory]
  exact congrFun (Function.update_self (β := fun _ => ℕ → Entry) p _ m.table) i

theorem Handed.table_ne (h : Handed m m' p) {t : ℕ} (ht : t ≠ p) : m'.table t = m.table t := by
  rw [h.memory]
  exact Function.update_of_ne ht ..

theorem Handed.bytes_ne (h : Handed m m' p) {q : ℕ} (hq : q ≠ p) : m'.bytes q = m.bytes q := by
  rw [h.memory]
  exact Function.update_of_ne hq ..

theorem Consistent.alloc (h : Consistent bounds m held) (hp : Handed m m' p) :
    Consistent bounds m' (p :: held) where
  counted := by
    rw [hp.highMemory, hp.memMap, refOf, hp.dirRef, hp.entryAt]
    exact h.counted.alloc hp.low hp.free
  writable := by
    intro x e hx hw
    rw [hp.entryAt] at hx
    have hne := (h.free_ne hp.low hp.free).2.1 x e hx
    rw [hp.memMap, Function.update_of_ne hne]
    exact h.writable x e hx hw
  kernel := by
    have hlow := hp.low
    have hkernel := h.kernel.1
    rw [KernelLow, hp.pgDir, hp.table_ne (by omega)]
    exact h.kernel
  high := hp.highMemory.trans h.high

end Alloc

/-! ## Changes of one reference -/

section Changes

variable {bounds : Bounds} {m : Memory} {held : List ℕ} {d i : Fin 1024} {t p : ℕ} {e : Entry}

theorem Consistent.kernel_setEntry (h : Consistent bounds m held) (hd : dirRef m d = some t)
    (i : ℕ) (e : Entry) : KernelLow (m.setEntry t i e) := by
  have htable : (m.setEntry t i e).table (m.pgDir 0).frame = m.table (m.pgDir 0).frame :=
    setEntry_table_ne m (h.table_ne_kernel hd) i e
  change (m.pgDir 0).frame < LOW_MEM ∧ ∀ j < 0xA0,
    ((m.setEntry t i e).table (m.pgDir 0).frame j).frame < LOW_MEM
  rw [htable]
  exact h.kernel

theorem KernelLow.setDir (h : KernelLow m) (hd : 4 ≤ d.val) (e : Entry) :
    KernelLow (m.setDir d e) := by
  have hzero : (m.setDir d e).pgDir 0 = m.pgDir 0 := Function.update_of_ne (by omega) ..
  rw [KernelLow, hzero]
  exact h

/-- What holds of the entries after one of them was changed. -/
theorem forall_entryAt_update {m' : Memory} {x : Fin 1024 × Fin 1024} {v : Option Entry}
    {P : Entry → Prop} (hentry : entryAt m' = Function.update (entryAt m) x v)
    (hnew : ∀ e, v = some e → P e) (hold : ∀ y e, y ≠ x → entryAt m y = some e → P e) :
    ∀ y e, entryAt m' y = some e → P e := by
  intro y e hy
  rw [hentry] at hy
  by_cases hyx : y = x
  · subst hyx
    rw [Function.update_self] at hy
    exact hnew e hy
  · rw [Function.update_of_ne hyx] at hy
    exact hold y e hyx hy

/-- A new table, with no entries in it. -/
theorem Consistent.link (h : Consistent bounds m (t :: held)) (hd : 4 ≤ d.val)
    (hnone : dirRef m d = none) (hzero : ∀ i, m.table t i = .zero) :
    Consistent bounds (m.setDir d (.user t)) held ∧
      dirRef (m.setDir d (.user t)) = Function.update (dirRef m) d (some t) ∧
      entryAt (m.setDir d (.user t)) = entryAt m := by
  have hdir := dirRef_setDir (m := m) hd (.user t)
  have hentry : entryAt (m.setDir d (.user t)) = entryAt m :=
    entryAt_setDir hd (fun i => entryAt_of_dirRef_none hnone) fun i _ => by
      rw [Entry.user, hzero i]
      rfl
  refine ⟨⟨?_, ?_, h.kernel.setDir hd _, h.high⟩, hdir, hentry⟩
  · rw [refOf_eq_update_dir hdir hentry]
    exact h.counted.map hnone
  · rw [hentry]
    exact h.writable

/-- A page the kernel holds is mapped. -/
theorem Consistent.map (h : Consistent bounds m (p :: held)) (hd : dirRef m d = some t)
    (hnone : entryAt m (d, i) = none) :
    Consistent bounds (m.setEntry t i (.user p)) held := by
  have hentry := entryAt_setEntry (i := i) h hd (.user p)
  obtain ⟨hstart, -, hone⟩ := h.counted.held p List.mem_cons_self
  have hlow : LOW_MEM ≤ p := h.counted.low.trans hstart
  refine ⟨?_, ?_, h.kernel_setEntry hd _ _, h.high⟩
  · rw [refOf_eq_update_entry (dirRef_setEntry m t i _) hentry]
    refine h.counted.map ?_
    rw [refOf, Sum.elim_inr, hnone, Option.map_none]
  · refine forall_entryAt_update hentry ?_ fun y e _ => h.writable y e
    intro e he _
    cases he
    exact ⟨hlow, hone⟩

/-- The flags of an entry change.  Only a page without another reference may
become writable. -/
theorem Consistent.reflag (h : Consistent bounds m held) (hd : dirRef m d = some t)
    {e' : Entry} (he : entryAt m (d, i) = some e) (hpresent : e'.present)
    (hframe : e'.frame = e.frame)
    (hwritable : e'.writable → LOW_MEM ≤ e.frame ∧ m.memMap e.frame = 1) :
    Consistent bounds (m.setEntry t i e') held := by
  have hentry := entryAt_setEntry (i := i) h hd e'
  rw [Entry.get?, if_pos hpresent] at hentry
  refine ⟨?_, ?_, h.kernel_setEntry hd _ _, h.high⟩
  · have hsame : refOf (m.setEntry t i e') = refOf m := by
      rw [refOf_eq_update_entry (dirRef_setEntry m t i _) hentry, Option.map_some, hframe]
      exact Function.update_eq_self_iff.2 (refOf_entry he).symm
    rw [hsame]
    exact h.counted
  · refine forall_entryAt_update hentry ?_ fun y e _ => h.writable y e
    intro e₁ he₁ hw
    cases he₁
    rw [hframe]
    exact hwritable hw

/-- A writable entry is the only reference to its page. -/
theorem Consistent.writable_unique (h : Consistent bounds m held) {x : Fin 1024 × Fin 1024}
    (hx : entryAt m x = some e) (hw : e.writable) {r : Place} (hr : refOf m r = some e.frame) :
    r = .inr x := by
  obtain ⟨hlow, hone⟩ := h.writable x e hx hw
  obtain ⟨hstart, hhigh⟩ := h.counted.managed (refOf_entry hx) hlow
  have hcounts := h.counted.counts e.frame hstart hhigh
  exact eq_of_refCount_le_one (by omega) hr (refOf_entry hx)

/-- A page is mapped at the same address of another task.  Both entries are
write-protected. -/
theorem Consistent.share (h : Consistent bounds m held) (hd : dirRef m d = some t) {d' : Fin 1024}
    (hnone : entryAt m (d, i) = none) (hsource : entryAt m (d', i) = some e)
    (hwritable : e.writable = false) (hmod : d.val % 16 = d'.val % 16) (hlow : LOW_MEM ≤ e.frame) :
    Consistent bounds ((m.setEntry t i e).incCount e.frame) held := by
  have hentry := entryAt_setEntry (i := i) h hd e
  rw [Entry.get?, if_pos (present_of_entryAt hsource)] at hentry
  have hle := h.counted.count_le (refOf_entry hsource) hlow
  have hmap : ((m.setEntry t i e).incCount e.frame).memMap =
      Function.update m.memMap e.frame (m.memMap e.frame + 1) := by
    rw [← Nat.mod_eq_of_lt (show m.memMap e.frame + 1 < 256 by omega)]
    rfl
  refine ⟨?_, ?_, h.kernel_setEntry hd _ _, h.high⟩
  · have href : refOf ((m.setEntry t i e).incCount e.frame) =
        Function.update (refOf m) (.inr (d, i)) (some e.frame) :=
      refOf_eq_update_entry (dirRef_setEntry m t i _) hentry
    rw [hmap, href]
    refine h.counted.share ?_ (refOf_entry hsource) hmod hlow
    rw [refOf, Sum.elim_inr, hnone, Option.map_none]
  · rw [hmap]
    refine forall_entryAt_update hentry ?_ ?_
    · intro e₁ he₁ hw
      cases he₁
      rw [hwritable] at hw
      cases hw
    · intro x e₁ _ hx hw
      -- the source is another reference to its page and is not writable
      have hne : e₁.frame ≠ e.frame := by
        intro heq
        have hplace := h.writable_unique hx hw ((refOf_entry hsource).trans (congrArg some heq.symm))
        cases Sum.inr.inj hplace
        cases hsource.symm.trans hx
        rw [hwritable] at hw
        cases hw
      rw [Function.update_of_ne hne]
      exact h.writable x e₁ hx hw

/-- An entry is changed that refers to no page from `LOW_MEM` on, before and
after. -/
theorem Consistent.updateLow (h : Consistent bounds m held) (hd : dirRef m d = some t)
    (hold : ∀ e₀, entryAt m (d, i) = some e₀ → e₀.frame < LOW_MEM)
    (hnew : e.present → e.writable = false ∧ e.frame < LOW_MEM) :
    Consistent bounds (m.setEntry t i e) held := by
  have hentry := entryAt_setEntry (i := i) h hd e
  refine ⟨?_, ?_, h.kernel_setEntry hd _ _, h.high⟩
  · rw [refOf_eq_update_entry (dirRef_setEntry m t i _) hentry]
    refine h.counted.updateLow ?_ ?_
    · intro q hq
      obtain ⟨e₀, he₀, rfl⟩ := Option.map_eq_some_iff.1 hq
      exact hold e₀ he₀
    · intro q hq
      obtain ⟨e₁, he₁, rfl⟩ := Option.map_eq_some_iff.1 hq
      obtain ⟨hpresent, rfl⟩ := Entry.get?_eq_some.1 he₁
      exact (hnew hpresent).2
  · refine forall_entryAt_update hentry ?_ fun y e _ => h.writable y e
    intro e₁ he₁ hw
    obtain ⟨hpresent, rfl⟩ := Entry.get?_eq_some.1 he₁
    rw [(hnew hpresent).1] at hw
    cases hw

/-! ## References that go away -/

theorem decCount_memMap (m : Memory) {p : ℕ} (hpos : 0 < m.memMap p) (hle : m.memMap p ≤ 256) :
    (m.decCount p).memMap = Function.update m.memMap p (m.memMap p - 1) := by
  have hcount : (m.memMap p + 255) % 256 = m.memMap p - 1 := by omega
  rw [← hcount]
  rfl

theorem freePage_eq_decCount {p : ℕ} (hlow : LOW_MEM ≤ p) (hhigh : p < m.highMemory)
    (hpos : 0 < m.memMap p) : freePage p m = .ok (m.decCount p) := by
  rw [freePage, if_neg (Nat.not_lt.2 hlow), if_neg (Nat.not_le.2 hhigh), if_pos (by omega)]

/-- The pages a count goes down for stay counted for the other entries. -/
theorem Consistent.writable_dec (h : Consistent bounds m held) (hlow : LOW_MEM ≤ p) {r : Place}
    (hr : refOf m r = some p) {x : Fin 1024 × Fin 1024} (hx : entryAt m x = some e)
    (hxr : r ≠ .inr x) (hw : e.writable) :
    LOW_MEM ≤ e.frame ∧ Function.update m.memMap p (m.memMap p - 1) e.frame = 1 := by
  have hne : e.frame ≠ p := by
    rintro rfl
    exact hxr (h.writable_unique hx hw hr)
  rw [Function.update_of_ne hne]
  exact h.writable x e hx hw

/-- An entry is cleared and its page is freed. -/
theorem Consistent.unmap (h : Consistent bounds m held) (hd : dirRef m d = some t)
    (he : entryAt m (d, i) = some e) (hlow : LOW_MEM ≤ e.frame) :
    freePage e.frame m = .ok (m.decCount e.frame) ∧
      Consistent bounds ((m.decCount e.frame).setEntry t i .zero) held := by
  have href := refOf_entry he
  obtain ⟨-, hhigh⟩ := h.counted.managed href hlow
  have hpos := h.counted.count_pos href hlow
  have hle := h.counted.count_le href hlow
  have hentry : entryAt (m.setEntry t i .zero) = Function.update (entryAt m) (d, i) none :=
    entryAt_setEntry h hd .zero
  have hmap := decCount_memMap m hpos (by omega)
  refine ⟨freePage_eq_decCount hlow hhigh hpos, ?_, ?_, h.kernel_setEntry hd _ _, h.high⟩
  · have hrefs : refOf ((m.decCount e.frame).setEntry t i .zero) =
        Function.update (refOf m) (.inr (d, i)) none :=
      refOf_eq_update_entry (dirRef_setEntry m t i _) hentry
    rw [hrefs]
    change Counted bounds.start m.highMemory (m.decCount e.frame).memMap _ held
    rw [hmap]
    exact h.counted.unref href hlow
  · change ∀ x e₁, entryAt (m.setEntry t i .zero) x = some e₁ → e₁.writable →
      LOW_MEM ≤ e₁.frame ∧ (m.decCount e.frame).memMap e₁.frame = 1
    rw [hmap]
    refine forall_entryAt_update hentry ?_ ?_
    · intro e₁ he₁
      cases he₁
    · intro y e₁ hy hx hw
      exact h.writable_dec hlow href hx (fun heq => hy (Sum.inr.inj heq).symm) hw

/-- The entry of a page that is not shared is cleared and the page is lost. -/
theorem Consistent.lose (h : Consistent bounds m held) (hd : dirRef m d = some t)
    (he : entryAt m (d, i) = some e) (hlow : LOW_MEM ≤ e.frame) (hone : m.memMap e.frame = 1) :
    Consistent bounds (m.setEntry t i .zero) (e.frame :: held) := by
  have hentry : entryAt (m.setEntry t i .zero) = Function.update (entryAt m) (d, i) none :=
    entryAt_setEntry h hd .zero
  refine ⟨?_, ?_, h.kernel_setEntry hd _ _, h.high⟩
  · rw [refOf_eq_update_entry (dirRef_setEntry m t i _) hentry]
    exact h.counted.lose (refOf_entry he) hlow hone
  · exact forall_entryAt_update hentry (fun _ hno => by cases hno) fun y e' _ hy hw =>
      h.writable y e' hy hw

/-- A table without entries is freed. -/
theorem Consistent.unlink (h : Consistent bounds m held) (hd : dirRef m d = some t)
    (hnone : ∀ i, entryAt m (d, i) = none) :
    freePage t m = .ok (m.decCount t) ∧
      Consistent bounds ((m.decCount t).setDir d .zero) held ∧
      dirRef ((m.decCount t).setDir d .zero) = Function.update (dirRef m) d none ∧
      entryAt ((m.decCount t).setDir d .zero) = entryAt m := by
  have hd4 := (dirRef_eq_some.1 hd).1
  obtain ⟨hlow, hone⟩ := h.counted.tables d t hd
  obtain ⟨-, hhigh⟩ := h.counted.managed (r := .inl d) hd hlow
  have hmap := decCount_memMap m (p := t) (by omega) (by omega)
  have hdir : dirRef (m.setDir d .zero) = Function.update (dirRef m) d none :=
    dirRef_setDir hd4 .zero
  have hentry : entryAt (m.setDir d .zero) = entryAt m :=
    entryAt_setDir hd4 hnone fun i hno => by cases hno
  refine ⟨freePage_eq_decCount hlow hhigh (by omega), ⟨?_, ?_, h.kernel.setDir hd4 _, h.high⟩, hdir, hentry⟩
  · have hrefs : refOf ((m.decCount t).setDir d .zero) = Function.update (refOf m) (.inl d) none :=
      refOf_eq_update_dir hdir hentry
    rw [hrefs]
    change Counted bounds.start m.highMemory (m.decCount t).memMap _ held
    rw [hmap]
    exact h.counted.unref (r := .inl d) hd hlow
  · change ∀ x e₁, entryAt (m.setDir d .zero) x = some e₁ → e₁.writable →
      LOW_MEM ≤ e₁.frame ∧ (m.decCount t).memMap e₁.frame = 1
    rw [hmap, hentry]
    intro x e₁ hx hw
    exact h.writable_dec (r := .inl d) hlow hd hx (by simp) hw

/-- The kernel gives a page back. -/
theorem Consistent.release (h : Consistent bounds m (p :: held)) :
    freePage p m = .ok (m.decCount p) ∧ Consistent bounds (m.decCount p) held := by
  obtain ⟨hstart, hhigh, hone⟩ := h.counted.held p List.mem_cons_self
  obtain ⟨-, hunref⟩ := h.counted.held_unreferenced List.mem_cons_self
  have hlow := h.counted.low
  have hmap := decCount_memMap m (p := p) (by omega) (by omega)
  refine ⟨freePage_eq_decCount (by omega) hhigh (by omega), ?_, ?_, h.kernel, h.high⟩
  · rw [hmap]
    exact h.counted.release
  · rw [hmap]
    intro x e hx hw
    have hne : e.frame ≠ p := fun heq => hunref (.inr x) (heq ▸ refOf_entry hx)
    rw [Function.update_of_ne hne]
    exact h.writable x e hx hw

end Changes

end MyJavaExample.Mm
