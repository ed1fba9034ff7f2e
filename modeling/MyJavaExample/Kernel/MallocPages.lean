import Mathlib.Data.Fin.Basic
import Mathlib.Data.List.Perm.Subperm
import MyJavaExample.Kernel.Malloc

/-!
# The allocator keeps its pages in order

The invariant gives the chains and the pool as lists of descriptors.  Taking an
object, putting one back, setting up a page and giving a page back each keep it,
and `malloc` and `free_s` are made of these.
-/

namespace MyJavaExample.Kernel

open Lib

/-! ## Pages and slots -/

theorem Bucket.size_mul (i : Bucket) : i.size * (PAGE_SIZE / i.size) = PAGE_SIZE := by
  revert i
  decide

theorem Bucket.size_pos (i : Bucket) : 0 < i.size := by
  revert i
  decide

theorem Bucket.slots_le (i : Bucket) : PAGE_SIZE / i.size ≤ 256 := by
  revert i
  decide

theorem Bucket.slots_pos (i : Bucket) : 0 < PAGE_SIZE / i.size := by
  revert i
  decide

theorem le_size_of_bucketFor {len : ℕ} {i : Bucket} (h : bucketFor len = some i) : len ≤ i.size := by
  have := List.find?_some h
  simpa using this

theorem exists_bucketFor {len : ℕ} (h : len ≤ PAGE_SIZE) : ∃ i, bucketFor len = some i := by
  cases hi : bucketFor len with
  | some i => exact ⟨i, rfl⟩
  | none =>
      have hnot := List.find?_eq_none.1 hi (Fin.last 8) (List.mem_finRange _)
      have hlast : Bucket.size (Fin.last 8) = PAGE_SIZE := rfl
      rw [hlast] at hnot
      exact absurd (decide_eq_true h) hnot

theorem Object.size_of_bucketFor {o : Object} {i : Bucket} (h : bucketFor o.len = some i) :
    o.size = i.size := by
  rw [Object.size, h]
  rfl

namespace Allocator

variable {s : Allocator} {i j : Bucket} {a b p x : ℕ}

theorem mem_slots : a ∈ slots i p ↔ ∃ k < PAGE_SIZE / i.size, a = p + k * i.size := mem_strided

/-- An object lies within its page. -/
theorem slots_le (h : a ∈ slots i p) : p ≤ a ∧ a + i.size ≤ p + PAGE_SIZE := by
  obtain ⟨k, hk, rfl⟩ := mem_slots.1 h
  refine ⟨Nat.le_add_right _ _, ?_⟩
  have hle := Nat.mul_le_mul_left i.size (Nat.succ_le_of_lt hk)
  rw [Bucket.size_mul, Nat.mul_succ, Nat.mul_comm] at hle
  omega

theorem slots_lt (h : a ∈ slots i p) : a < p + PAGE_SIZE := by
  have := slots_le h
  have := i.size_pos
  omega

theorem pageOf_slot (hp : p % PAGE_SIZE = 0) (h : a ∈ slots i p) : pageOf a = p := by
  have hle := (slots_le h).1
  have hlt := slots_lt h
  unfold pageOf
  unfold PAGE_SIZE at *
  omega

/-- Two slots of one page do not overlap. -/
theorem slots_disjoint (ha : a ∈ slots i p) (hx : x ∈ slots i p) (hne : a ≠ x) :
    a + i.size ≤ x ∨ x + i.size ≤ a := by
  obtain ⟨k, -, rfl⟩ := mem_slots.1 ha
  obtain ⟨m, -, rfl⟩ := mem_slots.1 hx
  rcases Nat.lt_trichotomy k m with hkm | rfl | hkm
  · have := Nat.mul_le_mul_right i.size (Nat.succ_le_of_lt hkm)
    rw [Nat.succ_mul] at this
    omega
  · exact absurd rfl hne
  · have := Nat.mul_le_mul_right i.size (Nat.succ_le_of_lt hkm)
    rw [Nat.succ_mul] at this
    omega

/-! ## The invariant -/

/-- The addresses of the descriptors in the pages for them. -/
def descs (s : Allocator) : List ℕ :=
  s.descPages.flatMap fun p => strided DESC_SIZE (PAGE_SIZE / DESC_SIZE) p

theorem length_descs : s.descs.length = s.descCount := by
  unfold descs descCount
  induction s.descPages with
  | nil => rfl
  | cons p ps ih =>
      rw [List.flatMap_cons, List.length_append, length_strided, ih, List.length_cons,
        Nat.mul_succ, Nat.add_comm]

/-- `c` are the chains and `f` is the pool. -/
structure Inv (s : Allocator) (c : Bucket → List ℕ) (f : List ℕ) : Prop where
  chain : ∀ i, Seg s.next (s.chain i) (c i) none
  pool : Seg s.next s.freeBucketDesc f none
  apart : ∀ i j b, b ∈ c i → b ∈ c j → i = j
  apart_pool : ∀ i b, b ∈ c i → b ∉ f
  chain_descs : ∀ i b, b ∈ c i → b ∈ s.descs
  pool_descs : ∀ b ∈ f, b ∈ s.descs
  held : s.held.Nodup
  held_page : ∀ p ∈ s.held, p % PAGE_SIZE = 0
  descPages : ∀ p ∈ s.descPages, p ∈ s.held
  page : ∀ i b, b ∈ c i → (s.desc b).page ∈ s.held ∧ (s.desc b).page ∉ s.descPages
  page_inj : ∀ i j b b', b ∈ c i → b' ∈ c j → (s.desc b).page = (s.desc b').page → b = b'
  describes : ∀ i b, b ∈ c i → s.Describes i b
  live : ∀ o ∈ s.live, ∃ i b, bucketFor o.len = some i ∧ b ∈ c i ∧ o.obj ∈ slots i (s.desc b).page
  nodup : (s.live.map Object.obj).Nodup

variable {c : Bucket → List ℕ} {f : List ℕ}

theorem Inv.length_chain (h : s.Inv c f) (i : Bucket) : (c i).length ≤ s.descCount := by
  rw [← length_descs]
  exact (((h.chain i).nodup.subperm fun b hb => h.chain_descs i b hb)).length_le

theorem Inv.page_mod (h : s.Inv c f) (hb : b ∈ c i) : (s.desc b).page % PAGE_SIZE = 0 :=
  h.held_page _ (h.page i b hb).1

theorem init_inv : init.Inv (fun _ => []) [] where
  chain := fun _ => rfl
  pool := rfl
  apart := fun _ _ _ h => by cases h
  apart_pool := fun _ _ h => by cases h
  chain_descs := fun _ _ h => by cases h
  pool_descs := fun _ h => by cases h
  held := List.nodup_nil
  held_page := fun _ h => by cases h
  descPages := fun _ h => by cases h
  page := fun _ _ h => by cases h
  page_inj := fun _ _ _ _ h => by cases h
  describes := fun _ _ h => by cases h
  live := fun _ h => by cases h
  nodup := List.nodup_nil

/-- The invariant says what is to hold. -/
theorem Inv.consistent (h : s.Inv c f) : s.Consistent where
  disjoint := by
    have hpair := List.pairwise_map.1 h.nodup
    refine hpair.imp_of_mem fun {o o'} ho ho' hne => ?_
    obtain ⟨i, b, hi, hb, hslot⟩ := h.live o ho
    obtain ⟨j, b', hj, hb', hslot'⟩ := h.live o' ho'
    rw [Object.size_of_bucketFor hi, Object.size_of_bucketFor hj]
    by_cases hpage : (s.desc b).page = (s.desc b').page
    · obtain rfl := h.page_inj i j b b' hb hb' hpage
      obtain rfl := h.apart i j b hb hb'
      exact slots_disjoint hslot hslot' hne
    · have hmod := h.page_mod hb
      have hmod' := h.page_mod hb'
      have hle := slots_le hslot
      have hle' := slots_le hslot'
      unfold PAGE_SIZE at *
      omega
  enough := fun o ho => by
    obtain ⟨i, b, hi, -, -⟩ := h.live o ho
    rw [Object.size_of_bucketFor hi]
    exact le_size_of_bucketFor hi
  chains := by
    refine ⟨c, h.chain, h.describes, fun o ho => ?_⟩
    obtain ⟨i, b, hi, hb, hslot⟩ := h.live o ho
    rw [Object.size_of_bucketFor hi]
    exact ⟨i, b, hb, slots_le hslot⟩

/-! ## Objects -/

/-- The objects in use on a page are fewer than its slots, if one is free. -/
theorem Inv.count_lt (h : s.Inv c f) (hb : b ∈ c i) (ha : a ∈ slots i (s.desc b).page)
    (hfree : a ∉ s.live.map Object.obj) :
    s.live.countP (fun o => pageOf o.obj = (s.desc b).page) < 256 := by
  rw [List.countP_eq_length_filter]
  generalize hl : s.live.filter (fun o => decide (pageOf o.obj = (s.desc b).page)) = l
  have hsub : l.Sublist s.live := hl ▸ List.filter_sublist
  have hnodup : (a :: l.map Object.obj).Nodup := by
    refine List.nodup_cons.2 ⟨fun hmem => hfree ?_, h.nodup.sublist (hsub.map _)⟩
    exact (hsub.map _).subset hmem
  have hslots : a :: l.map Object.obj ⊆ slots i (s.desc b).page := by
    intro x hx
    rcases List.mem_cons.1 hx with rfl | hx
    · exact ha
    · obtain ⟨o, ho, rfl⟩ := List.mem_map.1 hx
      rw [← hl, List.mem_filter] at ho
      obtain ⟨j, b', -, hb', hslot⟩ := h.live o ho.1
      have hpage := pageOf_slot (h.page_mod hb') hslot
      have heq : (s.desc b').page = (s.desc b).page := hpage.symm.trans (of_decide_eq_true ho.2)
      obtain rfl := h.page_inj j i b' b hb' hb heq
      obtain rfl := h.apart i j b' hb hb'
      exact hslot
  have hle := (hnodup.subperm hslots).length_le
  rw [List.length_cons, List.length_map, slots, length_strided] at hle
  have := i.slots_le
  omega

theorem describes_of_desc {d : BucketDesc} (hdesc : s.desc b = d)
    (hcount : d.refcnt.toNat = s.live.countP fun o => pageOf o.obj = d.page) {l : List ℕ}
    (hseg : Seg s.word d.freeptr l none) (hnodup : l.Nodup)
    (hmem : ∀ a, a ∈ l ↔ a ∈ slots i d.page ∧ a ∉ s.live.map Object.obj) : s.Describes i b := by
  subst hdesc
  exact ⟨hcount, l, hseg, hnodup, hmem⟩

/-- What a descriptor says of its page depends on the free words and the objects
there. -/
theorem Describes.congr {s' : Allocator} (h : s.Describes i b) (hdesc : s'.desc b = s.desc b)
    (hword : ∀ a ∈ slots i (s.desc b).page, a ∉ s.live.map Object.obj → s'.word a = s.word a)
    (hcount : s'.live.countP (fun o => pageOf o.obj = (s.desc b).page) =
      s.live.countP fun o => pageOf o.obj = (s.desc b).page)
    (hlive : ∀ a ∈ slots i (s.desc b).page,
      a ∈ s'.live.map Object.obj ↔ a ∈ s.live.map Object.obj) : s'.Describes i b := by
  obtain ⟨hrefcnt, l, hseg, hnodup, hmem⟩ := h
  refine ⟨?_, l, ?_, hnodup, fun a => ?_⟩
  · rw [hdesc, hrefcnt, hcount]
  · rw [hdesc]
    exact hseg.congr fun a ha => hword a ((hmem a).1 ha).1 ((hmem a).1 ha).2
  · rw [hdesc, hmem]
    exact and_congr_right fun ha => not_congr (hlive a ha).symm

/-- An object of another page is taken. -/
theorem Describes.cons {s' : Allocator} (h : s.Describes i b)
    (hmod : (s.desc b).page % PAGE_SIZE = 0) (hdesc : s'.desc b = s.desc b)
    (hword : ∀ a ∈ slots i (s.desc b).page, s'.word a = s.word a) {o : Object}
    (hlive : s'.live = o :: s.live) (ho : pageOf o.obj ≠ (s.desc b).page) : s'.Describes i b := by
  refine h.congr hdesc (fun a ha _ => hword a ha) ?_ fun a ha => ?_
  · rw [hlive, List.countP_cons_of_neg (by simpa using ho)]
  · rw [hlive, List.map_cons, List.mem_cons, or_iff_right]
    rintro rfl
    exact ho (pageOf_slot hmod ha)

theorem mem_filter_obj {objs : List Object} {obj : ℕ} :
    a ∈ (objs.filter fun o => o.obj ≠ obj).map Object.obj ↔ a ∈ objs.map Object.obj ∧ a ≠ obj := by
  simp only [List.mem_map, List.mem_filter, decide_eq_true_eq]
  constructor
  · rintro ⟨o, ⟨ho, hne⟩, rfl⟩
    exact ⟨⟨o, ho, rfl⟩, hne⟩
  · rintro ⟨⟨o, ho, rfl⟩, hne⟩
    exact ⟨o, ⟨ho, hne⟩, rfl⟩

/-- An object of another page is put back. -/
theorem Describes.filter {s' : Allocator} (h : s.Describes i b)
    (hmod : (s.desc b).page % PAGE_SIZE = 0) (hdesc : s'.desc b = s.desc b)
    (hword : ∀ a ∈ slots i (s.desc b).page, s'.word a = s.word a) {obj : ℕ}
    (hlive : s'.live = s.live.filter fun o => o.obj ≠ obj)
    (ho : pageOf obj ≠ (s.desc b).page) : s'.Describes i b := by
  refine h.congr hdesc (fun a ha _ => hword a ha) ?_ fun a ha => ?_
  · rw [hlive, List.countP_filter]
    refine List.countP_congr fun o _ => ?_
    simp only [Bool.and_eq_true, decide_eq_true_eq, and_iff_left_iff_imp]
    rintro hpage rfl
    exact ho hpage
  · have hne : a ≠ obj := by
      rintro rfl
      exact ho (pageOf_slot hmod ha)
    rw [hlive, mem_filter_obj, and_iff_left hne]

/-- A change of the objects of the pages, with the descriptors where they were. -/
theorem Inv.of_objects {s' : Allocator} (h : s.Inv c f) (hnext : s'.next = s.next)
    (hchain : s'.chain = s.chain) (hpool : s'.freeBucketDesc = s.freeBucketDesc)
    (hheld : s'.held = s.held) (hdescPages : s'.descPages = s.descPages)
    (hpage : ∀ x, (s'.desc x).page = (s.desc x).page)
    (hdescribes : ∀ i b, b ∈ c i → s'.Describes i b)
    (hlive : ∀ o ∈ s'.live, ∃ i b, bucketFor o.len = some i ∧ b ∈ c i ∧
      o.obj ∈ slots i (s.desc b).page)
    (hnodup : (s'.live.map Object.obj).Nodup) : s'.Inv c f where
  chain := fun i => hnext ▸ hchain ▸ h.chain i
  pool := hnext ▸ hpool ▸ h.pool
  apart := h.apart
  apart_pool := h.apart_pool
  chain_descs := fun i b hb => by
    rw [descs, hdescPages]
    exact h.chain_descs i b hb
  pool_descs := fun b hb => by
    rw [descs, hdescPages]
    exact h.pool_descs b hb
  held := hheld ▸ h.held
  held_page := hheld ▸ h.held_page
  descPages := by
    rw [hheld, hdescPages]
    exact h.descPages
  page := fun i b hb => by
    rw [hpage, hheld, hdescPages]
    exact h.page i b hb
  page_inj := fun i j b b' hb hb' heq => by
    rw [hpage, hpage] at heq
    exact h.page_inj i j b b' hb hb' heq
  describes := hdescribes
  live := fun o ho => by
    obtain ⟨i, b, hi, hb, hslot⟩ := hlive o ho
    exact ⟨i, b, hi, hb, by rwa [hpage]⟩
  nodup := hnodup

/-- Descriptors of other pages are not concerned by an object of a page. -/
theorem Inv.pageOf_ne (h : s.Inv c f) (hb : b ∈ c i) (ha : a ∈ slots i (s.desc b).page)
    (hx : x ∈ c j) (hne : x ≠ b) : pageOf a ≠ (s.desc x).page := by
  rw [pageOf_slot (h.page_mod hb) ha]
  exact fun heq => hne (h.page_inj j i x b hx hb heq.symm)

theorem Inv.takeObject (h : s.Inv c f) {len : ℕ} (hi : bucketFor len = some i) (hb : b ∈ c i)
    (hptr : (s.desc b).freeptr = some a) :
    ∃ s', s.takeObject b = .ok (a, s') ∧ s'.freed = s.freed ∧
      { s' with live := ⟨a, len⟩ :: s'.live }.Inv c f := by
  obtain ⟨hcount, l, hseg, hnodup, hmem⟩ := h.describes i b hb
  rw [hptr] at hseg
  cases l with
  | nil => cases hseg
  | cons a' l =>
      obtain ⟨heq, hseg⟩ := hseg
      obtain rfl := Option.some.inj heq
      obtain ⟨hslot, hfree⟩ := (hmem a).1 List.mem_cons_self
      have hlt := h.count_lt hb hslot hfree
      have hpageOf := pageOf_slot (h.page_mod hb) hslot
      let d : BucketDesc := { s.desc b with freeptr := s.word a, refcnt := (s.desc b).refcnt + 1 }
      have htake : s.takeObject b = .ok (a, s.setDesc b d) := by
        rw [Allocator.takeObject, hptr]
        rfl
      refine ⟨s.setDesc b d, htake, rfl, h.of_objects rfl rfl rfl rfl rfl (fun x => ?_)
        (fun j x hx => ?_) (fun o ho => ?_) (List.nodup_cons.2 ⟨hfree, h.nodup⟩)⟩
      · show (Function.update s.desc b d x).page = (s.desc x).page
        by_cases hx : x = b
        · rw [hx, Function.update_self]
        · rw [Function.update_of_ne hx]
      · by_cases hxb : x = b
        · subst hxb
          obtain rfl := h.apart i j x hb hx
          have hinc : d.refcnt.toNat = (s.desc x).refcnt.toNat + 1 := by
            rw [UInt16.toNat_add, hcount, UInt16.toNat_one]
            omega
          refine describes_of_desc (Function.update_self ..) ?_ hseg (List.nodup_cons.1 hnodup).2
            fun y => ?_
          · rw [hinc, hcount]
            show _ = List.countP (fun o : Object => decide (pageOf o.obj = (s.desc x).page))
              (⟨a, len⟩ :: s.live)
            rw [List.countP_cons_of_pos (by simpa using hpageOf)]
          · have hy := hmem y
            rw [List.mem_cons] at hy
            rw [List.map_cons, List.mem_cons, not_or, and_left_comm]
            constructor
            · intro hyl
              exact ⟨ne_of_mem_of_not_mem hyl (List.nodup_cons.1 hnodup).1, hy.1 (Or.inr hyl)⟩
            · rintro ⟨hne, hyl⟩
              exact (hy.2 hyl).resolve_left hne
        · have hdesc : Function.update s.desc b d x = s.desc x := Function.update_of_ne hxb ..
          exact (h.describes j x hx).cons (h.page_mod hx) hdesc (fun _ _ => rfl) rfl
            (h.pageOf_ne hb hslot hx hxb)
      · rcases List.mem_cons.1 ho with rfl | ho
        · exact ⟨i, b, hi, hb, hslot⟩
        · exact h.live o ho

/-! ## New pages -/

/-- Pages do not overlap. -/
theorem inPage_of_page_ne {q : ℕ} (hp : p % PAGE_SIZE = 0) (hq : q % PAGE_SIZE = 0) (hne : q ≠ p)
    (hle : q ≤ a) (hlt : a < q + PAGE_SIZE) : inPage p a = false := by
  unfold inPage
  unfold PAGE_SIZE at *
  simp only [Bool.and_eq_false_iff, decide_eq_false_iff_not]
  omega

theorem mem_descs : b ∈ s.descs ↔
    ∃ p ∈ s.descPages, b ∈ strided DESC_SIZE (PAGE_SIZE / DESC_SIZE) p := List.mem_flatMap

theorem strided_desc (h : b ∈ strided DESC_SIZE (PAGE_SIZE / DESC_SIZE) p) :
    p ≤ b ∧ b < p + PAGE_SIZE := by
  obtain ⟨k, hk, rfl⟩ := mem_strided.1 h
  unfold PAGE_SIZE DESC_SIZE at *
  omega

/-- A descriptor is in none of the pages not in use. -/
theorem Inv.desc_notIn (h : s.Inv c f) (hp : s.Fresh p) (hb : b ∈ s.descs) : inPage p b = false := by
  obtain ⟨q, hq, hb⟩ := mem_descs.1 hb
  have hheld := h.descPages q hq
  exact inPage_of_page_ne hp.1 (h.held_page q hheld) (ne_of_mem_of_not_mem hheld hp.2.2)
    (strided_desc hb).1 (strided_desc hb).2

/-- No object of the allocator is in a page not in use. -/
theorem Inv.slot_notIn (h : s.Inv c f) (hp : s.Fresh p) (hb : b ∈ c i)
    (ha : a ∈ slots i (s.desc b).page) : inPage p a = false :=
  inPage_of_page_ne hp.1 (h.page_mod hb) (ne_of_mem_of_not_mem (h.page i b hb).1 hp.2.2)
    (slots_le ha).1 (slots_lt ha)

theorem getFreePage_next (h : inPage p b = false) : (s.getFreePage p).next b = s.next b := by
  unfold getFreePage
  split
  · rfl
  · exact if_neg (by rw [h]; exact Bool.false_ne_true)

theorem getFreePage_desc (h : inPage p b = false) : (s.getFreePage p).desc b = s.desc b := by
  unfold getFreePage
  split
  · rfl
  · exact if_neg (by rw [h]; exact Bool.false_ne_true)

theorem getFreePage_word (h : inPage p a = false) : (s.getFreePage p).word a = s.word a := by
  unfold getFreePage
  split
  · rfl
  · exact if_neg (by rw [h]; exact Bool.false_ne_true)

theorem getFreePage_held (hp : s.Fresh p) : (s.getFreePage p).held = p :: s.held := by
  rw [getFreePage, if_neg hp.2.1]

/-- `get_free_page` leaves all other fields as they are. -/
theorem getFreePage_frame (s : Allocator) (p : ℕ) :
    (s.getFreePage p).chain = s.chain ∧ (s.getFreePage p).freeBucketDesc = s.freeBucketDesc ∧
      (s.getFreePage p).descPages = s.descPages ∧ (s.getFreePage p).freed = s.freed ∧
      (s.getFreePage p).live = s.live := by
  unfold getFreePage
  split <;> exact ⟨rfl, rfl, rfl, rfl, rfl⟩

theorem Inv.getFreePage (h : s.Inv c f) (hp : s.Fresh p) : (s.getFreePage p).Inv c f := by
  obtain ⟨hchain, hpool, hdescPages, -, hlive⟩ := getFreePage_frame s p
  have hdescs : (s.getFreePage p).descs = s.descs := by rw [descs, hdescPages, ← descs]
  have hdesc : ∀ i b, b ∈ c i → (s.getFreePage p).desc b = s.desc b := fun i b hb =>
    getFreePage_desc (h.desc_notIn hp (h.chain_descs i b hb))
  constructor
  case chain =>
    intro i
    rw [hchain]
    exact (h.chain i).congr fun b hb => getFreePage_next (h.desc_notIn hp (h.chain_descs i b hb))
  case pool =>
    rw [hpool]
    exact h.pool.congr fun b hb => getFreePage_next (h.desc_notIn hp (h.pool_descs b hb))
  case apart => exact h.apart
  case apart_pool => exact h.apart_pool
  case chain_descs => rw [hdescs]; exact h.chain_descs
  case pool_descs => rw [hdescs]; exact h.pool_descs
  case held => rw [getFreePage_held hp]; exact List.nodup_cons.2 ⟨hp.2.2, h.held⟩
  case held_page =>
    rw [getFreePage_held hp]
    exact List.forall_mem_cons.2 ⟨hp.1, h.held_page⟩
  case descPages =>
    rw [getFreePage_held hp, hdescPages]
    exact fun q hq => List.mem_cons_of_mem p (h.descPages q hq)
  case page =>
    intro i b hb
    rw [hdesc i b hb, getFreePage_held hp, hdescPages]
    exact ⟨List.mem_cons_of_mem p (h.page i b hb).1, (h.page i b hb).2⟩
  case page_inj =>
    intro i j b b' hb hb' heq
    rw [hdesc i b hb, hdesc j b' hb'] at heq
    exact h.page_inj i j b b' hb hb' heq
  case describes =>
    intro i b hb
    refine (h.describes i b hb).congr (hdesc i b hb) (fun a ha _ => ?_) ?_ fun a _ => ?_
    · exact getFreePage_word (h.slot_notIn hp hb ha)
    · rw [hlive]
    · rw [hlive]
  case live =>
    intro o ho
    rw [hlive] at ho
    obtain ⟨i, b, hi, hb, hslot⟩ := h.live o ho
    exact ⟨i, b, hi, hb, by rwa [hdesc i b hb]⟩
  case nodup => rw [hlive]; exact h.nodup

/-- A page not in use has no descriptors. -/
theorem Inv.desc_notMem_strided (h : s.Inv c f) (hp : s.Fresh p) (hb : b ∈ s.descs) :
    b ∉ strided DESC_SIZE (PAGE_SIZE / DESC_SIZE) p := by
  intro hmem
  have hin := h.desc_notIn hp hb
  unfold inPage at hin
  simp only [Bool.and_eq_false_iff, decide_eq_false_iff_not] at hin
  have := strided_desc hmem
  omega

/-- The descriptors of a page become the pool. -/
theorem Inv.addDescs {next : ℕ → Option ℕ} (h : s.Inv c []) (hp : p ∈ s.held)
    (hpage : ∀ i b, b ∈ c i → (s.desc b).page ≠ p)
    (hnew : ∀ b ∈ s.descs, b ∉ strided DESC_SIZE (PAGE_SIZE / DESC_SIZE) p)
    (hseg : Seg next (some p) (strided DESC_SIZE (PAGE_SIZE / DESC_SIZE) p) none)
    (hnext : ∀ b ∈ s.descs, next b = s.next b) :
    { s with next := next, freeBucketDesc := some p, descPages := p :: s.descPages }.Inv c
      (strided DESC_SIZE (PAGE_SIZE / DESC_SIZE) p) := by
  have hdescs : ∀ b, b ∈ s.descs →
      b ∈ { s with next := next, freeBucketDesc := some p, descPages := p :: s.descPages }.descs :=
    fun b hb => List.mem_append_right _ hb
  constructor
  case chain => exact fun i => (h.chain i).congr fun b hb => hnext b (h.chain_descs i b hb)
  case pool => exact hseg
  case apart => exact h.apart
  case apart_pool => exact fun i b hb => hnew b (h.chain_descs i b hb)
  case chain_descs => exact fun i b hb => hdescs b (h.chain_descs i b hb)
  case pool_descs => exact fun b hb => List.mem_append_left _ hb
  case held => exact h.held
  case held_page => exact h.held_page
  case descPages => exact List.forall_mem_cons.2 ⟨hp, h.descPages⟩
  case page =>
    intro i b hb
    refine ⟨(h.page i b hb).1, ?_⟩
    rw [List.mem_cons, not_or]
    exact ⟨hpage i b hb, (h.page i b hb).2⟩
  case page_inj => exact h.page_inj
  case describes => exact h.describes
  case live => exact h.live
  case nodup => exact h.nodup

theorem initBucketDesc_eq (hp : p ≠ 0) :
    s.initBucketDesc p =
      let run := linkRun DESC_SIZE (PAGE_SIZE / DESC_SIZE - 1) (s.getFreePage p).next p
      .ok { s.getFreePage p with
        next := Function.update run.1 run.2 (s.getFreePage p).freeBucketDesc
        freeBucketDesc := some p
        descPages := p :: (s.getFreePage p).descPages } := if_neg hp

/-- A page of descriptors fills the empty pool. -/
theorem Inv.initBucketDesc (h : s.Inv c []) (hp : s.Fresh p) :
    ∃ s', s.initBucketDesc p = .ok s' ∧ s'.held = p :: s.held ∧ s'.freed = s.freed ∧
      s'.live = s.live ∧ s'.freeBucketDesc = some p ∧
      s'.Inv c (strided DESC_SIZE (PAGE_SIZE / DESC_SIZE) p) := by
  obtain ⟨-, hpool, hdescPages, hfreed, hlive⟩ := getFreePage_frame s p
  have hheld := getFreePage_held hp
  have hdescs : (s.getFreePage p).descs = s.descs := by rw [descs, hdescPages, ← descs]
  have hnone : (s.getFreePage p).freeBucketDesc = none := hpool.trans h.pool
  refine ⟨_, initBucketDesc_eq hp.2.1, hheld, hfreed, hlive, rfl, ?_⟩
  refine (h.getFreePage hp).addDescs ?_ (fun i b hb => ?_) ?_ ?_ fun b hb => ?_
  · rw [hheld]
    exact List.mem_cons_self
  · rw [getFreePage_desc (h.desc_notIn hp (h.chain_descs i b hb))]
    exact ne_of_mem_of_not_mem (h.page i b hb).1 hp.2.2
  · rw [hdescs]
    exact fun b hb => h.desc_notMem_strided hp hb
  · rw [hnone]
    exact Seg.of_linkRun (by decide) (PAGE_SIZE / DESC_SIZE - 1) _ p none
  · rw [hdescs] at hb
    exact update_linkRun_of_notMem (h.desc_notMem_strided hp hb)

/-- A descriptor is taken out of the pool and written to. -/
theorem Inv.pop (h : s.Inv c (b :: f)) (d : BucketDesc) :
    ({ s with freeBucketDesc := s.next b }.setDesc b d).Inv c f := by
  have hdesc : ∀ i x, x ∈ c i →
      ({ s with freeBucketDesc := s.next b }.setDesc b d).desc x = s.desc x := by
    intro i x hx
    refine Function.update_of_ne ?_ ..
    rintro rfl
    exact h.apart_pool i x hx List.mem_cons_self
  constructor
  case chain => exact h.chain
  case pool => exact h.pool.2
  case apart => exact h.apart
  case apart_pool => exact fun i x hx hmem => h.apart_pool i x hx (List.mem_cons_of_mem b hmem)
  case chain_descs => exact h.chain_descs
  case pool_descs => exact fun x hx => h.pool_descs x (List.mem_cons_of_mem b hx)
  case held => exact h.held
  case held_page => exact h.held_page
  case descPages => exact h.descPages
  case page =>
    intro i x hx
    rw [hdesc i x hx]
    exact h.page i x hx
  case page_inj =>
    intro i j x x' hx hx' heq
    rw [hdesc i x hx, hdesc j x' hx'] at heq
    exact h.page_inj i j x x' hx hx' heq
  case describes =>
    intro i x hx
    exact (h.describes i x hx).congr (hdesc i x hx) (fun _ _ _ => rfl) rfl fun _ _ => Iff.rfl
  case live =>
    intro o ho
    obtain ⟨i, x, hi, hx, hslot⟩ := h.live o ho
    exact ⟨i, x, hi, hx, by rwa [hdesc i x hx]⟩
  case nodup => exact h.nodup

theorem mem_update_cons :
    x ∈ Function.update c i (b :: c i) j ↔ (j = i ∧ x = b) ∨ x ∈ c j := by
  by_cases hj : j = i
  · subst hj
    simp
  · simp [hj]

/-- A descriptor is put before the others of its chain. -/
def linkDesc (s : Allocator) (word : ℕ → Option ℕ) (i : Bucket) (b : ℕ) (d : BucketDesc) :
    Allocator :=
  { s with
    word := word
    desc := Function.update s.desc b d
    next := Function.update s.next b (s.chain i)
    chain := Function.update s.chain i (some b) }

theorem linkDesc_desc (word : ℕ → Option ℕ) (i : Bucket) (b : ℕ) (d : BucketDesc) :
    (s.linkDesc word i b d).desc b = d := Function.update_self ..

/-- The page of the descriptor has no objects in use. -/
theorem Inv.linkDesc {word : ℕ → Option ℕ} {d : BucketDesc} (h : s.Inv c f) (hb : b ∈ s.descs)
    (hchain : ∀ i, b ∉ c i) (hpool : b ∉ f) (hp : d.page ∈ s.held) (hdescs : d.page ∉ s.descPages)
    (hpage : ∀ i x, x ∈ c i → (s.desc x).page ≠ d.page) (hptr : d.freeptr = some d.page)
    (hrefcnt : d.refcnt = 0) (hseg : Seg word (some d.page) (slots i d.page) none)
    (hword : ∀ a, a ∉ slots i d.page → word a = s.word a) :
    (s.linkDesc word i b d).Inv (Function.update c i (b :: c i)) f := by
  have hdesc : ∀ j x, x ∈ c j → (s.linkDesc word i b d).desc x = s.desc x := fun j x hx =>
    Function.update_of_ne (ne_of_mem_of_not_mem hx (hchain j)) ..
  have hself : (s.linkDesc word i b d).desc b = d := linkDesc_desc word i b d
  have hmod : d.page % PAGE_SIZE = 0 := h.held_page _ hp
  have hlive : ∀ o ∈ s.live, pageOf o.obj ≠ d.page := by
    intro o ho
    obtain ⟨j, x, -, hx, hslot⟩ := h.live o ho
    rw [pageOf_slot (h.page_mod hx) hslot]
    exact hpage j x hx
  constructor
  case chain =>
    intro j
    show Seg _ (Function.update s.chain i (some b) j) (Function.update c i (b :: c i) j) none
    by_cases hj : j = i
    · subst hj
      rw [Function.update_self, Function.update_self]
      exact (h.chain j).push (hchain j)
    · rw [Function.update_of_ne hj, Function.update_of_ne hj]
      exact (h.chain j).update (hchain j) _
  case pool => exact h.pool.update hpool _
  case apart =>
    intro j k x hx hx'
    rcases mem_update_cons.1 hx with ⟨rfl, rfl⟩ | hxj
    · rcases mem_update_cons.1 hx' with ⟨rfl, -⟩ | hx'
      · rfl
      · exact absurd hx' (hchain k)
    · rcases mem_update_cons.1 hx' with ⟨-, rfl⟩ | hx'
      · exact absurd hxj (hchain j)
      · exact h.apart j k x hxj hx'
  case apart_pool =>
    intro j x hx
    rcases mem_update_cons.1 hx with ⟨rfl, rfl⟩ | hx
    · exact hpool
    · exact h.apart_pool j x hx
  case chain_descs =>
    intro j x hx
    rcases mem_update_cons.1 hx with ⟨rfl, rfl⟩ | hx
    · exact hb
    · exact h.chain_descs j x hx
  case pool_descs => exact h.pool_descs
  case held => exact h.held
  case held_page => exact h.held_page
  case descPages => exact h.descPages
  case page =>
    intro j x hx
    rcases mem_update_cons.1 hx with ⟨rfl, rfl⟩ | hx
    · rw [hself]
      exact ⟨hp, hdescs⟩
    · rw [hdesc j x hx]
      exact h.page j x hx
  case page_inj =>
    intro j k x x' hx hx' heq
    rcases mem_update_cons.1 hx with ⟨rfl, rfl⟩ | hxj
    · rcases mem_update_cons.1 hx' with ⟨-, hxx⟩ | hx'
      · exact hxx.symm
      · rw [hself, hdesc k x' hx'] at heq
        exact absurd heq.symm (hpage k x' hx')
    · rcases mem_update_cons.1 hx' with ⟨-, rfl⟩ | hx'
      · rw [hself, hdesc j x hxj] at heq
        exact absurd heq (hpage j x hxj)
      · rw [hdesc j x hxj, hdesc k x' hx'] at heq
        exact h.page_inj j k x x' hxj hx' heq
  case describes =>
    intro j x hx
    rcases mem_update_cons.1 hx with ⟨rfl, rfl⟩ | hx
    · refine describes_of_desc hself ?_ (hptr ▸ hseg) hseg.nodup fun a => ?_
      · rw [hrefcnt]
        exact (List.countP_eq_zero.2 fun o ho => by simpa using hlive o ho).symm
      · refine (and_iff_left_of_imp fun ha hmem => ?_).symm
        obtain ⟨o, ho, rfl⟩ := List.mem_map.1 hmem
        exact hlive o ho (pageOf_slot hmod ha)
    · refine (h.describes j x hx).congr (hdesc j x hx) (fun a ha _ => hword a fun ha' => ?_) rfl
        fun _ _ => Iff.rfl
      refine hpage j x hx ?_
      rw [← pageOf_slot (h.page_mod hx) ha, pageOf_slot hmod ha']
  case live =>
    intro o ho
    obtain ⟨j, x, hj, hx, hslot⟩ := h.live o ho
    exact ⟨j, x, hj, mem_update_cons.2 (Or.inr hx), by rwa [hdesc j x hx]⟩
  case nodup => exact h.nodup

/-- A page not in use becomes one of objects, all of them free. -/
theorem Inv.linkPage {d : BucketDesc} (h : s.Inv c f) (hb : b ∈ s.descs) (hchain : ∀ i, b ∉ c i)
    (hpool : b ∉ f) (hp : s.Fresh p) (hpage : d.page = p) (hptr : d.freeptr = some p)
    (hrefcnt : d.refcnt = 0) :
    let run := linkRun i.size (PAGE_SIZE / i.size - 1) (s.getFreePage p).word p
    ((s.getFreePage p).linkDesc (Function.update run.1 run.2 none) i b d).Inv
      (Function.update c i (b :: c i)) f := by
  intro run
  subst hpage
  obtain ⟨-, -, hdescPages, -, -⟩ := getFreePage_frame s d.page
  have hlen : PAGE_SIZE / i.size - 1 + 1 = PAGE_SIZE / i.size := Nat.sub_add_cancel i.slots_pos
  refine (h.getFreePage hp).linkDesc ?_ hchain hpool ?_ ?_ (fun j x hx => ?_) hptr hrefcnt ?_ ?_
  · rwa [descs, hdescPages, ← descs]
  · rw [getFreePage_held hp]
    exact List.mem_cons_self
  · rw [hdescPages]
    exact fun hmem => hp.2.2 (h.descPages _ hmem)
  · rw [getFreePage_desc (h.desc_notIn hp (h.chain_descs j x hx))]
    exact ne_of_mem_of_not_mem (h.page j x hx).1 hp.2.2
  · have hseg := Seg.of_linkRun i.size_pos (PAGE_SIZE / i.size - 1) (s.getFreePage d.page).word
      d.page none
    rwa [hlen] at hseg
  · intro a ha
    exact update_linkRun_of_notMem (by rwa [hlen])

theorem newBucket_eq (hp : p ≠ 0) :
    s.newBucket i b p =
      let s := { s with freeBucketDesc := s.next b }.setDesc b
        { s.desc b with refcnt := 0, bucketSize := UInt16.ofNat i.size }
      let s := s.getFreePage p
      let run := linkRun i.size (PAGE_SIZE / i.size - 1) s.word p
      .ok (s.linkDesc (Function.update run.1 run.2 none) i b
        { s.desc b with page := p, freeptr := if p = 0 then none else some p }) := if_neg hp

/-- A descriptor of the pool gets a page for objects of one size. -/
theorem Inv.newBucket (h : s.Inv c (b :: f)) (hp : s.Fresh p) :
    ∃ s', s.newBucket i b p = .ok s' ∧ s'.freed = s.freed ∧ s'.live = s.live ∧
      (s'.desc b).freeptr = some p ∧ s'.Inv (Function.update c i (b :: c i)) f := by
  have hpool : b ∉ f := (List.nodup_cons.1 h.pool.nodup).1
  have hchain : ∀ i, b ∉ c i := fun i hb => h.apart_pool i b hb List.mem_cons_self
  have hb : b ∈ s.descs := h.pool_descs b List.mem_cons_self
  let d : BucketDesc := { s.desc b with refcnt := 0, bucketSize := UInt16.ofNat i.size }
  have hdesc : ({ s with freeBucketDesc := s.next b }.setDesc b d).desc b = d :=
    Function.update_self ..
  obtain ⟨-, -, -, hfreed, hlive⟩ :=
    getFreePage_frame ({ s with freeBucketDesc := s.next b }.setDesc b d) p
  refine ⟨_, newBucket_eq hp.2.1, hfreed, hlive, ?_, ?_⟩
  · rw [linkDesc_desc]
    exact if_neg hp.2.1
  · refine (h.pop d).linkPage hb hchain hpool hp rfl (if_neg hp.2.1) ?_
    rw [getFreePage_desc (h.desc_notIn hp hb), hdesc]

end Allocator

end MyJavaExample.Kernel
