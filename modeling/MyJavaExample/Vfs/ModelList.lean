import Mathlib.Data.List.Perm.Subperm
import MyJavaExample.Java.InputStream
import MyJavaExample.Lib.Int32
import MyJavaExample.Lib.LinkedList

/-!
# The model list: `PhoneGameVFS/Model.java`

`Model` objects live in a heap and `next`, `head` and `tail` are references.  An
object keeps its fields when the list drops it, and `tail` may still refer to
it: `deleteModel` never changes `tail`.

What a caller sees of the list are the fields of the objects reachable from
`head`, in order (`entries`).  Each operation is described by what it does to
these.
-/

namespace MyJavaExample.Vfs

open Java Lib

/-- A string, as its characters. -/
abbrev Name : Type := List Char

structure Model where
  filename : Name
  off : ℤ
  len : ℤ
  next : Option ℕ

structure ModelList where
  heap : ℕ → Model
  /-- The number of objects created so far.  Their references are the numbers
      below it. -/
  fresh : ℕ
  head : Option ℕ
  tail : Option ℕ
  size : ℤ

/-! ## The loops -/

/-- The objects from `p` on, for at most `fuel` objects. -/
def visit : ℕ → (ℕ → Model) → Option ℕ → List ℕ
  | fuel + 1, heap, some p => p :: visit fuel heap (heap p).next
  | _, _, _ => []

/-- `off` is increased by `d` in all objects from `p` on. -/
def shiftOff : ℕ → (ℕ → Model) → Option ℕ → ℤ → ℕ → Model
  | fuel + 1, heap, some p, d =>
      shiftOff fuel (Function.update heap p { heap p with off := toInt32 ((heap p).off + d) })
        (heap p).next d
  | _, heap, _, _ => heap

/-- The loop of `findModel` and of `updateModel`. -/
def findFrom : ℕ → (ℕ → Model) → Option ℕ → Name → Option ℕ
  | fuel + 1, heap, some p, filename =>
      if (heap p).filename = filename then some p
      else findFrom fuel heap (heap p).next filename
  | _, _, _, _ => none

/-- The loop of `deleteModel` that stops before the object with the name. -/
def prevFrom : ℕ → (ℕ → Model) → ℕ → Name → ℕ
  | 0, _, p, _ => p
  | fuel + 1, heap, p, filename =>
      match (heap p).next with
      | none => p
      | some q => if (heap q).filename = filename then p else prevFrom fuel heap q filename

namespace ModelList

/-- `new ModelList()`. -/
def new : ModelList where
  heap := fun _ => ⟨[], 0, 0, none⟩
  fresh := 0
  head := none
  tail := none
  size := 0

/-- `addModel(new Model(filename, off, len))`. -/
def addModel (ml : ModelList) (filename : Name) (off len : ℤ) : Except JExn ModelList :=
  let p := ml.fresh
  let heap := Function.update ml.heap p ⟨filename, off, len, none⟩
  let ml := { ml with heap, fresh := ml.fresh + 1, size := toInt32 (ml.size + 1) }
  match ml.head with
  | none => .ok { ml with head := some p, tail := some p }
  | some _ =>
      match ml.tail with
      | none => .error .nullPointer
      | some t =>
          .ok { ml with
            heap := Function.update heap t { heap t with next := some p }
            tail := some p }

def deleteModel (ml : ModelList) (model : ℕ) : Except JExn ModelList :=
  if ml.size ≤ 0 then .ok ml
  else
    match ml.head with
    | none => .error .nullPointer
    | some h =>
        if (ml.heap h).filename = (ml.heap model).filename then
          let heap := shiftOff ml.fresh ml.heap (some h) (-(ml.heap h).len)
          .ok { ml with heap, head := (heap h).next, size := toInt32 (ml.size - 1) }
        else
          let p := prevFrom ml.fresh ml.heap h (ml.heap model).filename
          match (ml.heap p).next with
          | none => .error .nullPointer
          | some q =>
              let heap := Function.update ml.heap p { ml.heap p with next := (ml.heap q).next }
              .ok { ml with
                heap := shiftOff ml.fresh heap (heap p).next (-(heap model).len)
                size := toInt32 (ml.size - 1) }

def findModel (ml : ModelList) (filename : Name) : Option ℕ :=
  findFrom ml.fresh ml.heap ml.head filename

def updateModel (ml : ModelList) (filename : Name) (off len : ℤ) : ModelList :=
  match findFrom ml.fresh ml.heap ml.head filename with
  | none => ml
  | some p =>
      let tmpLen := toInt32 (len - (ml.heap p).len)
      let heap := Function.update ml.heap p { ml.heap p with filename, off, len }
      { ml with heap := shiftOff ml.fresh heap (heap p).next tmpLen }

end ModelList

/-! ## What a caller sees -/

/-- The fields of a model that the list is about. -/
structure Entry where
  filename : Name
  off : ℤ
  len : ℤ
deriving DecidableEq

def Model.entry (m : Model) : Entry := ⟨m.filename, m.off, m.len⟩

namespace Entry

def shift (d : ℤ) (e : Entry) : Entry := { e with off := toInt32 (e.off + d) }

/-- The first entry with the name is dropped and the later ones move up. -/
def delete (filename : Name) : List Entry → List Entry
  | [] => []
  | e :: es => if e.filename = filename then es.map (shift (-e.len)) else e :: delete filename es

/-- The first entry with the name is replaced and the later ones move. -/
def update (filename : Name) (off len : ℤ) : List Entry → List Entry
  | [] => []
  | e :: es =>
      if e.filename = filename then
        ⟨filename, off, len⟩ :: es.map (shift (toInt32 (len - e.len)))
      else e :: update filename off len es

theorem delete_append {filename : Name} {es₁ es₂ : List Entry} {e : Entry}
    (h₁ : ∀ x ∈ es₁, x.filename ≠ filename) (he : e.filename = filename) :
    delete filename (es₁ ++ e :: es₂) = es₁ ++ es₂.map (shift (-e.len)) := by
  induction es₁ with
  | nil => simp [delete, he]
  | cons x es₁ ih =>
      rw [List.cons_append, delete, if_neg (h₁ x List.mem_cons_self),
        ih fun y hy => h₁ y (List.mem_cons_of_mem x hy)]
      rfl

theorem update_append {filename : Name} {off len : ℤ} {es₁ es₂ : List Entry} {e : Entry}
    (h₁ : ∀ x ∈ es₁, x.filename ≠ filename) (he : e.filename = filename) :
    update filename off len (es₁ ++ e :: es₂) =
      es₁ ++ ⟨filename, off, len⟩ :: es₂.map (shift (toInt32 (len - e.len))) := by
  induction es₁ with
  | nil => simp [update, he]
  | cons x es₁ ih =>
      rw [List.cons_append, update, if_neg (h₁ x List.mem_cons_self),
        ih fun y hy => h₁ y (List.mem_cons_of_mem x hy)]
      rfl

end Entry

namespace ModelList

def entries (ml : ModelList) : List Entry :=
  (visit ml.fresh ml.heap ml.head).map fun p => (ml.heap p).entry

end ModelList

/-! ## The loops along a segment -/

/-- The references of a heap. -/
def links (heap : ℕ → Model) : ℕ → Option ℕ := fun p => (heap p).next

section Loops

variable {heap : ℕ → Model} {p : Option ℕ} {l : List ℕ} {fuel a : ℕ}

theorem visit_eq (h : Seg (links heap) p l none) (hfuel : l.length ≤ fuel) :
    visit fuel heap p = l := by
  induction l generalizing p fuel with
  | nil =>
      cases h
      cases fuel <;> rfl
  | cons a l ih =>
      obtain ⟨rfl, h⟩ := h
      obtain ⟨fuel, rfl⟩ := Nat.exists_eq_add_of_le' (Nat.le_of_add_left_le hfuel)
      rw [visit, ih (p := (heap a).next) h (Nat.le_of_succ_le_succ hfuel)]

theorem findFrom_eq (h : Seg (links heap) p l none) (hfuel : l.length ≤ fuel) (filename : Name) :
    findFrom fuel heap p filename = l.find? fun a => (heap a).filename = filename := by
  induction l generalizing p fuel with
  | nil =>
      cases h
      cases fuel <;> rfl
  | cons a l ih =>
      obtain ⟨rfl, h⟩ := h
      obtain ⟨fuel, rfl⟩ := Nat.exists_eq_add_of_le' (Nat.le_of_add_left_le hfuel)
      rw [findFrom, List.find?_cons]
      split
      next hname => simp [hname]
      next hname =>
        rw [ih (p := (heap a).next) h (Nat.le_of_succ_le_succ hfuel)]
        simp [hname]

/-- The heap with the offsets of the objects `l` increased by `d`. -/
def shifted (heap : ℕ → Model) (l : List ℕ) (d : ℤ) : ℕ → Model := fun a =>
  if a ∈ l then { heap a with off := toInt32 ((heap a).off + d) } else heap a

theorem shifted_links (heap : ℕ → Model) (l : List ℕ) (d : ℤ) :
    links (shifted heap l d) = links heap := by
  funext a
  simp only [links, shifted]
  split <;> rfl

theorem shifted_entry (hentry : a ∈ l) (d : ℤ) :
    (shifted heap l d a).entry = (heap a).entry.shift d := by
  rw [shifted, if_pos hentry]
  rfl

theorem shifted_of_notMem (ha : a ∉ l) (d : ℤ) : shifted heap l d a = heap a := if_neg ha

theorem shiftOff_eq (h : Seg (links heap) p l none) (hnodup : l.Nodup) (hfuel : l.length ≤ fuel)
    (d : ℤ) : shiftOff fuel heap p d = shifted heap l d := by
  induction l generalizing p fuel heap with
  | nil =>
      cases h
      funext a
      cases fuel <;> simp [shiftOff, shifted]
  | cons a l ih =>
      obtain ⟨rfl, h⟩ := h
      obtain ⟨ha, hnodup⟩ := List.nodup_cons.1 hnodup
      obtain ⟨fuel, rfl⟩ := Nat.exists_eq_add_of_le' (Nat.le_of_add_left_le hfuel)
      have hlinks : Seg (links (Function.update heap a
          { heap a with off := toInt32 ((heap a).off + d) })) (heap a).next l none := by
        refine h.congr fun b hb => ?_
        rw [links, Function.update_of_ne (ne_of_mem_of_not_mem hb ha)]
        rfl
      rw [shiftOff, ih hlinks hnodup (Nat.le_of_succ_le_succ hfuel)]
      funext b
      by_cases hba : b = a
      · subst hba
        simp [shifted, ha]
      · simp [shifted, hba]

/-- The search for the predecessor stops at the last object before the name. -/
theorem prevFrom_eq {a b : ℕ} {l₁ l₂ : List ℕ} {filename : Name}
    (h : Seg (links heap) (some a) (a :: (l₁ ++ b :: l₂)) none)
    (hfuel : l₁.length < fuel) (hl₁ : ∀ c ∈ l₁, (heap c).filename ≠ filename)
    (hb : (heap b).filename = filename) :
    prevFrom fuel heap a filename = (a :: l₁).getLast (List.cons_ne_nil a l₁) := by
  induction l₁ generalizing a fuel with
  | nil =>
      obtain ⟨fuel, rfl⟩ := Nat.exists_eq_add_of_le' (Nat.succ_le_of_lt hfuel)
      have hnext : (heap a).next = some b := h.2.1
      simp [prevFrom, hnext, hb]
  | cons c l₁ ih =>
      obtain ⟨fuel, rfl⟩ := Nat.exists_eq_add_of_le' (Nat.succ_le_of_lt (Nat.zero_lt_of_lt hfuel))
      have hnext : (heap a).next = some c := h.2.1
      have hrest : Seg (links heap) (some c) (c :: (l₁ ++ b :: l₂)) none := by
        have htail := h.2
        rw [links, hnext] at htail
        exact htail
      simp only [prevFrom, hnext, if_neg (hl₁ c List.mem_cons_self)]
      rw [ih hrest (Nat.lt_of_succ_lt_succ hfuel) fun x hx => hl₁ x (List.mem_cons_of_mem c hx)]
      rfl

end Loops

/-! ## The operations -/

namespace ModelList

/-- The objects `l` are those reachable from `head`.  They were created in this
order, and `tail` is the last object that was created, reachable or not. -/
structure Wf (ml : ModelList) (l : List ℕ) : Prop where
  seg : Seg (links ml.heap) ml.head l none
  sorted : l.Pairwise (· < ·)
  lt : ∀ p ∈ l, p < ml.fresh
  tail : l ≠ [] → ∃ t, ml.tail = some t ∧ ml.fresh = t + 1

namespace Wf

variable {ml : ModelList} {l : List ℕ}

theorem nodup (h : ml.Wf l) : l.Nodup := h.sorted.imp Nat.ne_of_lt

theorem length_le (h : ml.Wf l) : l.length ≤ ml.fresh := by
  have hsub : l ⊆ List.range ml.fresh := fun p hp => List.mem_range.2 (h.lt p hp)
  simpa using (List.subperm_of_subset h.nodup hsub).length_le

theorem entries_eq (h : ml.Wf l) : ml.entries = l.map fun p => (ml.heap p).entry := by
  rw [entries, visit_eq h.seg h.length_le]

theorem findModel_eq (h : ml.Wf l) (filename : Name) :
    ml.findModel filename = l.find? fun p => (ml.heap p).filename = filename :=
  findFrom_eq h.seg h.length_le filename

theorem head_eq_none (h : ml.Wf l) : ml.head = none ↔ l = [] := by
  have hseg := h.seg
  cases l with
  | nil => exact ⟨fun _ => rfl, fun _ => hseg⟩
  | cons a l => simp [hseg.1]

theorem new : ModelList.new.Wf [] :=
  ⟨rfl, .nil, nofun, fun h => absurd rfl h⟩

end Wf

/-- An added model is found from `head` afterwards: the list is empty, or its
last object is reachable from `head`. -/
def TailReachable (ml : ModelList) : Prop :=
  ml.head = none ∨ ∃ t ∈ visit ml.fresh ml.heap ml.head, ml.tail = some t

instance (ml : ModelList) : Decidable ml.TailReachable :=
  inferInstanceAs (Decidable (_ ∨ _))

section Add

variable {ml : ModelList} {l : List ℕ}

theorem Wf.tailReachable_iff (h : ml.Wf l) :
    ml.TailReachable ↔ l = [] ∨ ∃ t ∈ l, ml.tail = some t := by
  rw [TailReachable, h.head_eq_none, visit_eq h.seg h.length_le]

/-- A reachable `tail` is the last object of the list. -/
theorem Wf.eq_append_tail (h : ml.Wf l) {t : ℕ} (ht : t ∈ l) (hfresh : ml.fresh = t + 1) :
    ∃ l₀, l = l₀ ++ [t] := by
  obtain ⟨l₁, l₂, rfl⟩ := List.append_of_mem ht
  cases l₂ with
  | nil => exact ⟨l₁, rfl⟩
  | cons b l₂ =>
      have hlt : t < b := by
        have hs := (List.pairwise_append.1 h.sorted).2.1
        exact (List.pairwise_cons.1 hs).1 b List.mem_cons_self
      have hb := h.lt b (by simp)
      omega

theorem Wf.fresh_notMem (h : ml.Wf l) : ml.fresh ∉ l := fun hm => Nat.lt_irrefl _ (h.lt _ hm)

/-- A longer list is still sorted. -/
theorem Wf.sorted_snoc (h : ml.Wf l) : (l ++ [ml.fresh]).Pairwise (· < ·) := by
  refine List.pairwise_append.2 ⟨h.sorted, List.pairwise_singleton _ _, fun a ha b hb => ?_⟩
  rw [List.mem_singleton.1 hb]
  exact h.lt a ha

/-- The list after `addModel`, when it was not empty. -/
def hang (ml : ModelList) (t : ℕ) (filename : Name) (off len : ℤ) : ModelList :=
  let heap := Function.update ml.heap ml.fresh ⟨filename, off, len, none⟩
  { ml with
    heap := Function.update heap t { heap t with next := some ml.fresh }
    fresh := ml.fresh + 1
    tail := some ml.fresh
    size := toInt32 (ml.size + 1) }

variable {filename : Name} {off len : ℤ} {t : ℕ}

theorem hang_links (ht : t ≠ ml.fresh) : links (ml.hang t filename off len).heap =
    Function.update (Function.update (links ml.heap) ml.fresh none) t (some ml.fresh) := by
  funext p
  by_cases hpt : p = t
  · subst hpt
    simp [links, hang]
  · by_cases hp : p = ml.fresh
    · subst hp
      simp [links, hang, Ne.symm ht]
    · simp [links, hang, hpt, hp]

theorem hang_entry (ht : t ≠ ml.fresh) {p : ℕ} (hp : p ≠ ml.fresh) :
    ((ml.hang t filename off len).heap p).entry = (ml.heap p).entry := by
  by_cases hpt : p = t
  · subst hpt
    simp [hang, Model.entry, ht]
  · simp [hang, hpt, hp]

theorem hang_entry_fresh (ht : t ≠ ml.fresh) :
    ((ml.hang t filename off len).heap ml.fresh).entry = ⟨filename, off, len⟩ := by
  simp [hang, Model.entry, Ne.symm ht]

theorem Wf.addModel_eq (h : ml.Wf l) (hl : l ≠ []) (htail : ml.tail = some t) :
    ml.addModel filename off len = .ok (ml.hang t filename off len) := by
  cases l with
  | nil => exact absurd rfl hl
  | cons a l => simp [addModel, h.seg.1, htail, hang]

/-- When `tail` is reachable the new model is the last one. -/
theorem Wf.addModel_reachable (h : ml.Wf l) (hreach : ml.TailReachable) (filename : Name)
    (off len : ℤ) :
    ∃ ml', ml.addModel filename off len = .ok ml' ∧ ml'.Wf (l ++ [ml.fresh]) ∧ ml'.TailReachable ∧
      ml'.entries = ml.entries ++ [⟨filename, off, len⟩] ∧ ml'.size = toInt32 (ml.size + 1) := by
  have hlast : ml.fresh ∈ l ++ [ml.fresh] := List.mem_append_right l (List.mem_singleton_self _)
  rcases h.tailReachable_iff.1 hreach with rfl | ⟨t, ht, htail⟩
  · have hhead : ml.head = none := h.seg
    have hwf : ({ heap := Function.update ml.heap ml.fresh ⟨filename, off, len, none⟩
                  fresh := ml.fresh + 1
                  head := some ml.fresh
                  tail := some ml.fresh
                  size := toInt32 (ml.size + 1) } : ModelList).Wf ([] ++ [ml.fresh]) := by
      refine ⟨⟨rfl, ?_⟩, h.sorted_snoc, ?_, fun _ => ⟨_, rfl, rfl⟩⟩
      · simp [links, Seg]
      · simp
    refine ⟨_, by simp [addModel, hhead], hwf,
      hwf.tailReachable_iff.2 (.inr ⟨_, hlast, rfl⟩), ?_, rfl⟩
    rw [h.entries_eq, hwf.entries_eq]
    simp [Model.entry]
  · have hl : l ≠ [] := List.ne_nil_of_mem ht
    obtain ⟨t', htail', hfresh⟩ := h.tail hl
    obtain rfl : t = t' := Option.some.inj (htail.symm.trans htail')
    have hne : t ≠ ml.fresh := by omega
    have hwf : (ml.hang t filename off len).Wf (l ++ [ml.fresh]) := by
      refine ⟨?_, h.sorted_snoc, ?_, fun _ => ⟨_, rfl, rfl⟩⟩
      · obtain ⟨l₀, rfl⟩ := h.eq_append_tail ht hfresh
        rw [hang_links hne]
        refine (h.seg.update h.fresh_notMem none).snoc ?_ (Ne.symm hne) (Function.update_self ..)
        have hnodup := List.nodup_append.1 h.nodup
        exact fun hm => hnodup.2.2 _ hm _ (List.mem_singleton_self t) rfl
      · intro p hp
        rcases List.mem_append.1 hp with hp | hp
        · exact Nat.lt_succ_of_lt (h.lt p hp)
        · rw [List.mem_singleton.1 hp]
          exact Nat.lt_succ_self _
    refine ⟨_, h.addModel_eq hl htail, hwf,
      hwf.tailReachable_iff.2 (.inr ⟨_, hlast, rfl⟩), ?_, rfl⟩
    rw [hwf.entries_eq, h.entries_eq, List.map_append, List.map_singleton, hang_entry_fresh hne]
    congr 1
    exact List.map_congr_left fun p hp => hang_entry hne fun hf => h.fresh_notMem (hf ▸ hp)

/-- When `tail` is not reachable the new model is lost. -/
theorem Wf.addModel_lost (h : ml.Wf l) (hlost : ¬ml.TailReachable) (filename : Name)
    (off len : ℤ) :
    ∃ ml', ml.addModel filename off len = .ok ml' ∧ ml'.Wf l ∧ ml'.entries = ml.entries ∧
      ml'.size = toInt32 (ml.size + 1) := by
  rw [h.tailReachable_iff, not_or] at hlost
  obtain ⟨t, htail, hfresh⟩ := h.tail hlost.1
  have hne : t ≠ ml.fresh := by omega
  have ht : t ∉ l := fun hm => hlost.2 ⟨t, hm, htail⟩
  have hwf : (ml.hang t filename off len).Wf l := by
    refine ⟨?_, h.sorted, fun p hp => Nat.lt_succ_of_lt (h.lt p hp), fun _ => ⟨_, rfl, rfl⟩⟩
    rw [hang_links hne]
    exact (h.seg.update h.fresh_notMem none).update ht _
  refine ⟨_, h.addModel_eq hlost.1 htail, hwf, ?_, rfl⟩
  rw [hwf.entries_eq, h.entries_eq]
  exact List.map_congr_left fun p hp => hang_entry hne fun hf => h.fresh_notMem (hf ▸ hp)

end Add

section Find

variable {ml : ModelList} {l : List ℕ} {filename : Name} {m : ℕ}

/-- The list around the object that `findModel` returns. -/
theorem Wf.split_of_find (h : ml.Wf l) (hm : ml.findModel filename = some m) :
    (ml.heap m).filename = filename ∧ ∃ l₁ l₂, l = l₁ ++ m :: l₂ ∧
      ∀ p ∈ l₁, (ml.heap p).filename ≠ filename := by
  rw [h.findModel_eq, List.find?_eq_some_iff_append] at hm
  obtain ⟨hname, l₁, l₂, hl, h₁⟩ := hm
  exact ⟨by simpa using hname, l₁, l₂, hl, fun p hp => by simpa using h₁ p hp⟩

/-- `findModel` finds the first entry with the name. -/
theorem Wf.find_entries (h : ml.Wf l) (filename : Name) :
    (ml.findModel filename).map (fun p => (ml.heap p).entry) =
      ml.entries.find? fun e => e.filename = filename := by
  rw [h.findModel_eq, h.entries_eq, List.find?_map]
  rfl

theorem entry_filename_ne {heap : ℕ → Model} {l : List ℕ}
    (h : ∀ p ∈ l, (heap p).filename ≠ filename) :
    ∀ e ∈ l.map fun p => (heap p).entry, e.filename ≠ filename := by
  intro e he
  obtain ⟨p, hp, rfl⟩ := List.mem_map.1 he
  exact h p hp

theorem Wf.entries_split {l₁ l₂ : List ℕ} (h : ml.Wf (l₁ ++ m :: l₂)) :
    ml.entries = l₁.map (fun p => (ml.heap p).entry) ++
      (ml.heap m).entry :: l₂.map fun p => (ml.heap p).entry := by
  rw [h.entries_eq, List.map_append, List.map_cons]

/-- The entries after the objects `l₂` were moved by `d`. -/
theorem map_shifted {heap : ℕ → Model} {d : ℤ} {l₁ l₂ : List ℕ} (hdisj : ∀ p ∈ l₁, p ∉ l₂) :
    (l₁ ++ l₂).map (fun p => (shifted heap l₂ d p).entry) =
      l₁.map (fun p => (heap p).entry) ++ (l₂.map fun p => (heap p).entry).map (Entry.shift d) := by
  rw [List.map_append, List.map_map]
  refine congrArg₂ _ (List.map_congr_left fun p hp => ?_) (List.map_congr_left fun p hp => ?_)
  · rw [shifted_of_notMem (hdisj p hp)]
  · exact shifted_entry hp d

/-- `deleteModel` at the head. -/
theorem Wf.deleteModel_head {l₂ : List ℕ} (h : ml.Wf (m :: l₂)) (hsize : 0 < ml.size)
    (hname : (ml.heap m).filename = filename) :
    ∃ ml', ml.deleteModel m = .ok ml' ∧ ml'.Wf l₂ ∧
      ml'.entries = Entry.delete filename ml.entries ∧ ml'.size = toInt32 (ml.size - 1) := by
  obtain ⟨hhead, hseg⟩ := h.seg
  have hwhole : Seg (links ml.heap) (some m) (m :: l₂) none := ⟨rfl, hseg⟩
  have hshift := shiftOff_eq hwhole h.nodup h.length_le (-(ml.heap m).len)
  have hlinks := shifted_links ml.heap (m :: l₂) (-(ml.heap m).len)
  have hwf : ({ ml with
      heap := shifted ml.heap (m :: l₂) (-(ml.heap m).len)
      head := (shifted ml.heap (m :: l₂) (-(ml.heap m).len) m).next
      size := toInt32 (ml.size - 1) } : ModelList).Wf l₂ := by
    refine ⟨?_, h.sorted.of_cons, fun p hp => h.lt p (List.mem_cons_of_mem m hp),
      fun _ => h.tail (List.cons_ne_nil m l₂)⟩
    have hnext := congrFun hlinks m
    rw [links] at hnext
    simp only [hlinks, hnext]
    exact hseg
  refine ⟨_, ?_, hwf, ?_, rfl⟩
  · rw [deleteModel, if_neg (Int.not_le.2 hsize)]
    simp only [hhead, if_true, hshift]
  · rw [hwf.entries_eq, h.entries_eq, List.map_cons, Entry.delete,
      if_pos (show (ml.heap m).entry.filename = filename from hname), List.map_map]
    exact List.map_congr_left fun p hp => shifted_entry (List.mem_cons_of_mem m hp) _

/-- The heap after `b.next = q`. -/
def setNext (heap : ℕ → Model) (b : ℕ) (q : Option ℕ) : ℕ → Model :=
  Function.update heap b { heap b with next := q }

theorem setNext_links (heap : ℕ → Model) (b : ℕ) (q : Option ℕ) :
    links (setNext heap b q) = Function.update (links heap) b q := by
  funext p
  by_cases hp : p = b
  · subst hp
    simp [links, setNext]
  · simp [links, setNext, hp]

theorem setNext_entry (heap : ℕ → Model) (b : ℕ) (q : Option ℕ) (p : ℕ) :
    (setNext heap b q p).entry = (heap p).entry := by
  by_cases hp : p = b
  · subst hp
    simp [Model.entry, setNext]
  · simp [setNext, hp]

/-- The loop of `deleteModel` finds the object before `m`. -/
theorem Wf.prevFrom_eq {l₁ l₂ : List ℕ} {b h₀ : ℕ} (h : ml.Wf (l₁ ++ b :: m :: l₂))
    (hname : (ml.heap m).filename = filename)
    (h₁ : ∀ p ∈ l₁ ++ [b], (ml.heap p).filename ≠ filename) (hhead : ml.head = some h₀) :
    (ml.heap h₀).filename ≠ filename ∧ prevFrom ml.fresh ml.heap h₀ filename = b := by
  obtain ⟨a, l', hl'⟩ := List.exists_cons_of_ne_nil
    (List.append_ne_nil_of_right_ne_nil l₁ (List.cons_ne_nil b []))
  have hlist : l₁ ++ b :: m :: l₂ = a :: (l' ++ m :: l₂) := by
    rw [List.append_cons, hl']
    rfl
  have hseg := h.seg
  rw [hlist] at hseg
  obtain rfl : h₀ = a := Option.some.inj (hhead.symm.trans hseg.1)
  rw [hl'] at h₁
  refine ⟨h₁ h₀ List.mem_cons_self, ?_⟩
  rw [hhead] at hseg
  have hlen := h.length_le
  rw [hlist] at hlen
  simp only [List.length_cons, List.length_append] at hlen
  rw [Vfs.prevFrom_eq hseg (by omega) (fun c hc => h₁ c (List.mem_cons_of_mem h₀ hc)) hname]
  simp [← hl']

/-- `deleteModel` after the head, when the object before `m` is `b`. -/
theorem Wf.deleteModel_inner {l₁ l₂ : List ℕ} {b : ℕ} (h : ml.Wf (l₁ ++ b :: m :: l₂))
    (hsize : 0 < ml.size) (hname : (ml.heap m).filename = filename)
    (h₁ : ∀ p ∈ l₁ ++ [b], (ml.heap p).filename ≠ filename) :
    ∃ ml', ml.deleteModel m = .ok ml' ∧ ml'.Wf (l₁ ++ [b] ++ l₂) ∧
      ml'.entries = Entry.delete filename ml.entries ∧ ml'.size = toInt32 (ml.size - 1) := by
  have hassoc : l₁ ++ b :: m :: l₂ = l₁ ++ [b] ++ m :: l₂ := List.append_cons _ _ _
  obtain ⟨-, hnodup, hdisj⟩ := List.nodup_append.1 (hassoc ▸ h.nodup)
  obtain ⟨hm, hnodup⟩ := List.nodup_cons.1 hnodup
  have hkeep : ∀ p ∈ l₁ ++ [b], p ∉ l₂ := fun p hp hp₂ =>
    hdisj p hp p (List.mem_cons_of_mem m hp₂) rfl
  have hmb : m ≠ b := fun he => hdisj b (by simp) m List.mem_cons_self he.symm
  have hb₁ : b ∉ l₁ := by
    have hfront := (List.nodup_append.1 h.nodup).2.2
    exact fun hb => hfront b hb b List.mem_cons_self rfl
  have hb₂ : b ∉ l₂ := hkeep b (by simp)
  obtain ⟨q, -, -, hbm, hseg₂⟩ := Seg.append_iff.1 h.seg
  -- `b` now refers to what followed `m`
  have hseg : Seg (links (setNext ml.heap b (ml.heap m).next)) ml.head (l₁ ++ [b] ++ l₂) none := by
    rw [setNext_links, ← List.append_cons]
    exact h.seg.remove hb₁ hb₂
  have htail : Seg (links (setNext ml.heap b (ml.heap m).next))
      (setNext ml.heap b (ml.heap m).next b).next l₂ none := by
    rw [setNext_links, setNext, Function.update_self]
    exact hseg₂.update hb₂ _
  have hlen := h.length_le
  rw [hassoc, List.length_append, List.length_cons] at hlen
  have hshift := shiftOff_eq htail hnodup (show l₂.length ≤ ml.fresh by omega) (-(ml.heap m).len)
  have hwf : ({ ml with
      heap := shifted (setNext ml.heap b (ml.heap m).next) l₂ (-(ml.heap m).len)
      size := toInt32 (ml.size - 1) } : ModelList).Wf (l₁ ++ [b] ++ l₂) := by
    refine ⟨?_, ?_, ?_, fun _ => h.tail (by simp)⟩
    · simp only [shifted_links]
      exact hseg
    · exact h.sorted.sublist (by simp)
    · intro p hp
      have hmem : p ∈ l₁ ++ [b] ++ m :: l₂ :=
        ((List.sublist_cons_self m l₂).append_left (l₁ ++ [b])).subset hp
      rw [← hassoc] at hmem
      exact h.lt p hmem
  obtain ⟨h₀, hhead⟩ : ∃ h₀, ml.head = some h₀ := by
    cases hhead : ml.head with
    | none => simpa using h.head_eq_none.1 hhead
    | some h₀ => exact ⟨h₀, rfl⟩
  obtain ⟨hne, hprev⟩ := h.prevFrom_eq hname h₁ hhead
  refine ⟨_, ?_, hwf, ?_, rfl⟩
  · have hnext : (ml.heap b).next = some m := hbm
    have hlen : (setNext ml.heap b (ml.heap m).next m).len = (ml.heap m).len := by
      simp [setNext, hmb]
    rw [deleteModel, if_neg (Int.not_le.2 hsize)]
    simp only [hhead, hname, if_neg hne, hprev, hnext]
    rw [← hshift, ← hlen]
    rfl
  · rw [hassoc] at h
    rw [hwf.entries_eq, map_shifted hkeep, h.entries_split,
      Entry.delete_append (entry_filename_ne h₁) hname]
    simp only [setNext_entry]
    rfl

/-- `deleteModel` takes the entry of the model out. -/
theorem Wf.deleteModel_eq (h : ml.Wf l) (hsize : 0 < ml.size)
    (hm : ml.findModel filename = some m) :
    ∃ ml' l', ml.deleteModel m = .ok ml' ∧ ml'.Wf l' ∧
      ml'.entries = Entry.delete filename ml.entries ∧ ml'.size = toInt32 (ml.size - 1) := by
  obtain ⟨hname, l₁, l₂, rfl, h₁⟩ := h.split_of_find hm
  rcases List.eq_nil_or_concat l₁ with rfl | ⟨l₁, b, rfl⟩
  · obtain ⟨ml', hdelete⟩ := Wf.deleteModel_head h hsize hname
    exact ⟨ml', l₂, hdelete⟩
  · rw [List.concat_eq_append] at h h₁
    rw [← List.append_cons] at h
    obtain ⟨ml', hdelete⟩ := h.deleteModel_inner hsize hname h₁
    exact ⟨ml', _, hdelete⟩

/-- `updateModel` replaces the entry of the model. -/
theorem Wf.updateModel_eq (h : ml.Wf l) (hm : ml.findModel filename = some m) (off len : ℤ) :
    (ml.updateModel filename off len).Wf l ∧
      (ml.updateModel filename off len).entries = Entry.update filename off len ml.entries ∧
      (ml.updateModel filename off len).size = ml.size := by
  obtain ⟨hname, l₁, l₂, rfl, h₁⟩ := h.split_of_find hm
  obtain ⟨-, hnodup, hdisj⟩ := List.nodup_append.1 h.nodup
  obtain ⟨hm₂, hnodup⟩ := List.nodup_cons.1 hnodup
  have hm₁ : m ∉ l₁ := fun hm₁ => hdisj m hm₁ m List.mem_cons_self rfl
  generalize hheap : Function.update ml.heap m { ml.heap m with filename, off, len } = heap
  have hlinks : links heap = links ml.heap := by
    funext p
    rw [← hheap]
    by_cases hp : p = m
    · subst hp
      simp [links]
    · simp [links, hp]
  have hentry : ∀ p, p ≠ m → (heap p).entry = (ml.heap p).entry := by
    intro p hp
    rw [← hheap, Function.update_of_ne hp]
  have hentry_m : (heap m).entry = ⟨filename, off, len⟩ := by
    rw [← hheap, Function.update_self]
    rfl
  obtain ⟨q, -, -, hseg₂⟩ := Seg.append_iff.1 h.seg
  have hlen := h.length_le
  rw [List.length_append, List.length_cons] at hlen
  have htail : Seg (links heap) (heap m).next l₂ none := by
    have hnext := congrFun hlinks m
    rw [links] at hnext
    rw [hnext, hlinks]
    exact hseg₂
  have hshift := shiftOff_eq htail hnodup (show l₂.length ≤ ml.fresh by omega)
    (toInt32 (len - (ml.heap m).len))
  have hupdate : ml.updateModel filename off len =
      { ml with heap := shifted heap l₂ (toInt32 (len - (ml.heap m).len)) } := by
    rw [← hshift, updateModel, ← findModel, hm]
    simp only [hheap]
  have hwf : (ml.updateModel filename off len).Wf (l₁ ++ m :: l₂) := by
    rw [hupdate]
    refine ⟨?_, h.sorted, h.lt, h.tail⟩
    simp only [shifted_links, hlinks]
    exact h.seg
  refine ⟨hwf, ?_, by rw [hupdate]⟩
  have hkeep : ∀ p ∈ l₁ ++ [m], p ∉ l₂ := by
    intro p hp hp₂
    rcases List.mem_append.1 hp with hp | hp
    · exact hdisj p hp p (List.mem_cons_of_mem m hp₂) rfl
    · exact hm₂ (List.mem_singleton.1 hp ▸ hp₂)
  have h₁' : l₁.map (fun p => (heap p).entry) = l₁.map fun p => (ml.heap p).entry :=
    List.map_congr_left fun p hp => hentry p (ne_of_mem_of_not_mem hp hm₁)
  have h₂' : l₂.map (fun p => (heap p).entry) = l₂.map fun p => (ml.heap p).entry :=
    List.map_congr_left fun p hp => hentry p (ne_of_mem_of_not_mem hp hm₂)
  rw [hwf.entries_eq, h.entries_split, Entry.update_append (entry_filename_ne h₁) hname, hupdate,
    List.append_cons, map_shifted hkeep, List.map_append, List.map_singleton, hentry_m, h₁', h₂']
  simp [Model.entry]

end Find

end ModelList

end MyJavaExample.Vfs
