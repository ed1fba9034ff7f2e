import Mathlib.Data.List.Basic
import MyJavaExample.Kernel.MallocPages

/-!
# Runs of the allocator

The searches of `malloc` and `free_s` find what the invariant says is there, so
neither reaches a panic, and each leaves the invariant behind.  A page goes back
with the last object in use on it.
-/

namespace MyJavaExample.Kernel

open Lib

namespace Allocator

variable {s : Allocator} {c : Bucket → List ℕ} {f l l₁ l₂ : List ℕ} {i j : Bucket}
  {a b p q x len fuel page size : ℕ} {ptr prev : Option ℕ}

/-! ## `malloc` -/

theorem findFree_spec (h : Seg s.next ptr l none) (hfuel : l.length ≤ fuel) :
    s.findFree fuel ptr = .ok none ∨
      ∃ b ∈ l, s.findFree fuel ptr = .ok (some b) ∧ (s.desc b).freeptr.isSome := by
  induction l generalizing ptr fuel with
  | nil =>
      obtain rfl := h
      left
      rw [findFree]
      rfl
  | cons b l ih =>
      obtain ⟨rfl, h⟩ := h
      cases fuel with
      | zero => exact absurd hfuel (Nat.not_succ_le_zero l.length)
      | succ fuel =>
          rw [findFree]
          by_cases hb : (s.desc b).freeptr.isSome
          · right
            rw [if_pos hb]
            exact ⟨b, List.mem_cons_self, rfl, hb⟩
          · rw [if_neg hb]
            obtain hnone | ⟨x, hx, hfind, hfree⟩ := ih h (Nat.le_of_succ_le_succ hfuel)
            · exact Or.inl hnone
            · exact Or.inr ⟨x, List.mem_cons_of_mem b hx, hfind, hfree⟩

theorem act_malloc {s' : Allocator} (h : s.malloc len p q = .ok (a, s')) :
    s.act (.malloc len p q) = .ok { s' with live := ⟨a, len⟩ :: s'.live } := by
  rw [act, h]
  rfl

theorem full_of_findFree (hi : bucketFor len = some i)
    (h : s.findFree s.descCount (s.chain i) = .ok none) : s.full len = true := by
  rw [full, hi]
  simp only [h]

/-- The pool has a descriptor when `malloc` needs one. -/
theorem Inv.fillPool (h : s.Inv c f) (hq : s.Fresh q)
    (hp : s.freeBucketDesc.isNone → s.Fresh p ∧ p ≠ q) :
    ∃ s' b f', (if s.freeBucketDesc.isNone then s.initBucketDesc p else pure s) = .ok s' ∧
      s'.freeBucketDesc = some b ∧ s'.freed = s.freed ∧ s'.Fresh q ∧ s'.Inv c (b :: f') := by
  cases f with
  | nil =>
      have hnone : s.freeBucketDesc = none := h.pool
      obtain ⟨hfresh, hne⟩ := hp (by rw [hnone]; rfl)
      obtain ⟨s', hs', hheld, hfreed, -, hpool, hinv⟩ := h.initBucketDesc hfresh
      refine ⟨s', p, strided DESC_SIZE 255 (p + DESC_SIZE), ?_, hpool, hfreed, ⟨hq.1, hq.2.1, ?_⟩, ?_⟩
      · rw [if_pos (by rw [hnone]; rfl), hs']
      · rw [hheld, List.mem_cons, not_or]
        exact ⟨hne.symm, hq.2.2⟩
      · exact hinv
  | cons b f =>
      have hsome : s.freeBucketDesc = some b := h.pool.1
      refine ⟨s, b, f, ?_, hsome, rfl, hq, h⟩
      rw [if_neg (by rw [hsome]; exact Bool.false_ne_true)]
      rfl

theorem Inv.malloc (h : s.Inv c f) (hok : s.Allowed (.malloc len p q)) :
    ∃ s' c' f', s.act (.malloc len p q) = .ok s' ∧ s'.freed = s.freed ∧ s'.Inv c' f' := by
  obtain ⟨hlen, hpages⟩ := hok
  obtain ⟨i, hi⟩ := exists_bucketFor hlen
  obtain hnone | ⟨b, hb, hfind, hfree⟩ := findFree_spec (h.chain i) (h.length_chain i)
  · obtain ⟨hq, hp⟩ := hpages (full_of_findFree hi hnone)
    obtain ⟨s₁, b, f', hfill, hpool, hfreed₁, hq₁, h₁⟩ := h.fillPool hq hp
    obtain ⟨s₂, hnew, hfreed₂, -, hptr, h₂⟩ := h₁.newBucket (i := i) hq₁
    have hb : b ∈ Function.update c i (b :: c i) i := mem_update_cons.2 (Or.inl ⟨rfl, rfl⟩)
    obtain ⟨s₃, htake, hfreed₃, h₃⟩ := h₂.takeObject hi hb hptr
    have hmalloc : s.malloc len p q = .ok (q, s₃) := by
      rw [Allocator.malloc, hi]
      by_cases hempty : s.freeBucketDesc.isNone
      · rw [if_pos hempty] at hfill
        simp only [hnone, if_pos hempty, hfill, hpool, hnew, htake, bind, Except.bind]
      · rw [if_neg hempty] at hfill
        cases hfill
        simp only [hnone, hpool, Option.isNone_some, Bool.false_eq_true, if_false, hnew, htake, bind,
          Except.bind, pure, Except.pure]
    exact ⟨_, _, f', act_malloc hmalloc, hfreed₃.trans (hfreed₂.trans hfreed₁), h₃⟩
  · obtain ⟨a, hptr⟩ := Option.isSome_iff_exists.1 hfree
    obtain ⟨s', htake, hfreed, h'⟩ := h.takeObject hi hb hptr
    have hmalloc : s.malloc len p q = .ok (a, s') := by
      rw [Allocator.malloc, hi]
      simp only [hfind, htake, bind, Except.bind]
    exact ⟨_, c, f, act_malloc hmalloc, hfreed, h'⟩

/-! ## `free_s` -/

theorem findPage_none (h : Seg s.next ptr l none) (hfuel : l.length ≤ fuel)
    (hl : ∀ b ∈ l, (s.desc b).page ≠ page) : s.findPage page fuel ptr prev = .ok none := by
  induction l generalizing ptr prev fuel with
  | nil =>
      obtain rfl := h
      rw [findPage]
      rfl
  | cons b l ih =>
      obtain ⟨rfl, h⟩ := h
      cases fuel with
      | zero => exact absurd hfuel (Nat.not_succ_le_zero l.length)
      | succ fuel =>
          rw [findPage, if_neg (hl b List.mem_cons_self)]
          exact ih h (Nat.le_of_succ_le_succ hfuel) fun x hx => hl x (List.mem_cons_of_mem b hx)

/-- The descriptor is found, and with it the last one passed before. -/
theorem findPage_some (h : Seg s.next ptr (l₁ ++ b :: l₂) none) (hfuel : l₁.length < fuel)
    (hl : ∀ x ∈ l₁, (s.desc x).page ≠ page) (hb : (s.desc b).page = page) :
    s.findPage page fuel ptr prev = .ok (some (b, l₁.getLast?.or prev)) := by
  induction l₁ generalizing ptr prev fuel with
  | nil =>
      obtain ⟨rfl, h⟩ := h
      cases fuel with
      | zero => exact absurd hfuel (Nat.not_lt_zero 0)
      | succ fuel =>
          rw [findPage, if_pos hb]
          rfl
  | cons x l₁ ih =>
      obtain ⟨rfl, h⟩ := h
      cases fuel with
      | zero => exact absurd hfuel (Nat.not_lt_zero _)
      | succ fuel =>
          have hl' : ∀ y ∈ l₁, (s.desc y).page ≠ page := fun y hy =>
            hl y (List.mem_cons_of_mem x hy)
          rw [findPage, if_neg (hl x List.mem_cons_self), ih h (Nat.lt_of_succ_lt_succ hfuel) hl',
            List.getLast?_cons]
          cases l₁.getLast? <;> rfl

/-- The search ends at the descriptor of the page, in its chain. -/
theorem Inv.findBucket {is : List Bucket} (h : s.Inv c f) (hc : c i = l₁ ++ b :: l₂)
    (hsize : size ≤ i.size) (hi : i ∈ is) :
    s.findBucket (s.desc b).page size is = .ok (some (i, b, l₁.getLast?)) := by
  have hb : b ∈ c i := by rw [hc]; exact List.mem_append_cons_self
  induction is with
  | nil => cases hi
  | cons j is ih =>
      rw [Allocator.findBucket]
      by_cases hj : j = i
      · subst hj
        have hchain := h.chain j
        have hlen := h.length_chain j
        have hnodup := hchain.nodup
        rw [hc] at hchain hlen hnodup
        have hother : ∀ x ∈ l₁, (s.desc x).page ≠ (s.desc b).page := by
          intro x hx heq
          have hxj : x ∈ c j := by rw [hc]; exact List.mem_append_left _ hx
          obtain rfl := h.page_inj j j x b hxj hb heq
          exact List.disjoint_of_nodup_append hnodup hx List.mem_cons_self
        have hlt : l₁.length < s.descCount := by
          rw [List.length_append, List.length_cons] at hlen
          omega
        rw [if_neg (Nat.not_lt.2 hsize), findPage_some hchain hlt hother rfl, Option.or_none]
        rfl
      · have hmem := (List.mem_cons.1 hi).resolve_left (Ne.symm hj)
        by_cases hlt : j.size < size
        · rw [if_pos hlt]
          exact ih hmem
        · have hother : ∀ x ∈ c j, (s.desc x).page ≠ (s.desc b).page := by
            intro x hx heq
            obtain rfl := h.page_inj j i x b hx hb heq
            exact hj (h.apart j i x hx hb)
          rw [if_neg hlt, findPage_none (h.chain j) (h.length_chain j) hother]
          exact ih hmem

/-- The object that is put back is the only one not counted any more. -/
theorem countP_filter_obj {objs : List Object} {o : Object} {P : Object → Bool}
    (hnodup : (objs.map Object.obj).Nodup) (ho : o ∈ objs) (hP : P o = true) :
    objs.countP P = (objs.filter fun o' => o'.obj ≠ o.obj).countP P + 1 := by
  induction objs with
  | nil => cases ho
  | cons x objs ih =>
      obtain ⟨hx, hnodup⟩ := List.nodup_cons.1 hnodup
      by_cases hxo : x = o
      · subst hxo
        have hrest : objs.filter (fun o' => o'.obj ≠ x.obj) = objs := by
          refine List.filter_eq_self.2 fun o' ho' => decide_eq_true ?_
          intro heq
          exact hx (heq ▸ List.mem_map_of_mem ho')
        rw [List.countP_cons_of_pos hP, List.filter_cons_of_neg (by simp), hrest]
      · have hmem := (List.mem_cons.1 ho).resolve_left (Ne.symm hxo)
        have hne : x.obj ≠ o.obj := fun heq => hx (heq ▸ List.mem_map_of_mem hmem)
        rw [List.filter_cons_of_pos (by simpa using hne), List.countP_cons, List.countP_cons,
          ih hnodup hmem]
        omega

theorem putObject_desc (s : Allocator) (b obj : ℕ) : (s.putObject b obj).desc b =
    { s.desc b with freeptr := some obj, refcnt := (s.desc b).refcnt - 1 } :=
  Function.update_self ..

theorem Inv.putObject {o : Object} (h : s.Inv c f) (ho : o ∈ s.live) (hb : b ∈ c i)
    (hslot : o.obj ∈ slots i (s.desc b).page) :
    { s.putObject b o.obj with live := s.live.filter fun o' => o'.obj ≠ o.obj }.Inv c f ∧
      ((s.putObject b o.obj).desc b).refcnt.toNat =
        (s.live.filter fun o' => o'.obj ≠ o.obj).countP fun o' =>
          pageOf o'.obj = (s.desc b).page := by
  obtain ⟨hcount, l, hseg, hnodup, hmem⟩ := h.describes i b hb
  let d : BucketDesc :=
    { s.desc b with freeptr := some o.obj, refcnt := (s.desc b).refcnt - 1 }
  have hpageOf := pageOf_slot (h.page_mod hb) hslot
  have hone := countP_filter_obj h.nodup ho (P := fun o' => pageOf o'.obj = (s.desc b).page)
    (decide_eq_true hpageOf)
  have hrefcnt : d.refcnt.toNat = (s.live.filter fun o' => o'.obj ≠ o.obj).countP fun o' =>
      pageOf o'.obj = (s.desc b).page := by
    have hle : (1 : UInt16) ≤ (s.desc b).refcnt := by
      rw [UInt16.le_iff_toNat_le, hcount, hone]
      exact Nat.le_add_left 1 _
    rw [UInt16.toNat_sub_of_le _ _ hle, hcount, hone]
    rfl
  have hnotMem : o.obj ∉ l := fun hl => ((hmem o.obj).1 hl).2 (List.mem_map_of_mem ho)
  have hdesc : (s.putObject b o.obj).desc b = d := putObject_desc s b o.obj
  refine ⟨h.of_objects rfl rfl rfl rfl rfl (fun x => ?_) (fun j x hx => ?_) (fun o' ho' => ?_) ?_, ?_⟩
  · show (Function.update s.desc b d x).page = (s.desc x).page
    by_cases hx : x = b
    · rw [hx, Function.update_self]
    · rw [Function.update_of_ne hx]
  · by_cases hxb : x = b
    · subst hxb
      obtain rfl := h.apart i j x hb hx
      refine describes_of_desc hdesc hrefcnt (hseg.push hnotMem)
        (List.nodup_cons.2 ⟨hnotMem, hnodup⟩) fun y => ?_
      rw [List.mem_cons, hmem, mem_filter_obj]
      show _ ↔ y ∈ slots i (s.desc x).page ∧ _
      by_cases hy : y = o.obj
      · subst hy
        simp [hslot]
      · simp [hy]
    · have hx' : Function.update s.desc b d x = s.desc x := Function.update_of_ne hxb ..
      have hne := h.pageOf_ne hb hslot hx hxb
      refine (h.describes j x hx).filter (h.page_mod hx) hx' (fun y hy => ?_) rfl hne
      refine Function.update_of_ne ?_ ..
      rintro rfl
      exact hne (pageOf_slot (h.page_mod hx) hy)
  · exact h.live o' (List.mem_filter.1 ho').1
  · exact h.nodup.sublist (List.filter_sublist.map _)
  · rw [hdesc]
    exact hrefcnt

/-- The descriptor is unlinked from its chain; the one before it is known. -/
theorem Inv.unlinkDesc {objs : List Object} (h : { s with live := objs }.Inv c f)
    (hc : c i = l₁ ++ b :: l₂) :
    s.stale i b l₁.getLast? = false ∧
      ∃ next chain, s.unlinkDesc i b l₁.getLast? = .ok { s with next := next, chain := chain } ∧
        (∀ j, Seg next (chain j) (Function.update c i (l₁ ++ l₂) j) none) ∧
        Seg next s.freeBucketDesc f none := by
  have hchain : Seg s.next (s.chain i) (c i) none := h.chain i
  rw [hc] at hchain
  obtain rfl | ⟨l, x, rfl⟩ := l₁.eq_nil_or_concat'
  · have hfirst : s.chain i = some b := hchain.1
    refine ⟨by simp [stale, hfirst], s.next, Function.update s.chain i (s.next b), ?_, fun j => ?_, h.pool⟩
    · simp [Allocator.unlinkDesc, hfirst, pure, Except.pure]
    · by_cases hj : j = i
      · subst hj
        rw [Function.update_self, Function.update_self]
        exact hchain.2
      · rw [Function.update_of_ne hj, Function.update_of_ne hj]
        exact h.chain j
  · have hx : x ∈ c i := by rw [hc]; simp
    rw [List.append_assoc, List.singleton_append] at hchain
    have hnotMem := (List.nodup_cons.1 (List.nodup_middle.1 hchain.nodup)).1
    rw [List.mem_append, List.mem_cons, not_or, not_or] at hnotMem
    obtain ⟨-, -, -, hnext, -⟩ := Seg.append_iff.1 hchain
    rw [List.getLast?_concat]
    refine ⟨by simp [stale, hnext], Function.update s.next x (s.next b), s.chain, rfl, fun j => ?_,
      h.pool.update (h.apart_pool i x hx) _⟩
    by_cases hj : j = i
    · subst hj
      rw [Function.update_self, List.append_assoc, List.singleton_append]
      exact hchain.remove hnotMem.1 hnotMem.2.2
    · rw [Function.update_of_ne hj]
      exact (h.chain j).update (fun hxj => hj (h.apart j i x hxj hx)) _

/-- The other descriptors stay in their chains. -/
theorem Inv.mem_update_append (h : s.Inv c f) (hc : c i = l₁ ++ b :: l₂) :
    x ∈ Function.update c i (l₁ ++ l₂) j ↔ x ∈ c j ∧ x ≠ b := by
  have hb : b ∈ c i := by rw [hc]; exact List.mem_append_cons_self
  by_cases hj : j = i
  · subst hj
    have hnodup := (h.chain j).nodup
    rw [hc] at hnodup
    have hnotMem := (List.nodup_cons.1 (List.nodup_middle.1 hnodup)).1
    rw [Function.update_self, hc, List.mem_append, List.mem_append, List.mem_cons]
    rw [List.mem_append] at hnotMem
    constructor
    · intro hx
      refine ⟨hx.imp_right Or.inr, ?_⟩
      rintro rfl
      exact hnotMem hx
    · rintro ⟨hx | rfl | hx, hne⟩
      · exact Or.inl hx
      · exact absurd rfl hne
      · exact Or.inr hx
  · rw [Function.update_of_ne hj]
    refine (and_iff_left_of_imp fun hx hxb => ?_).symm
    exact hj (h.apart j i b (hxb ▸ hx) hb)

/-- The page of a descriptor is given back, and the descriptor goes to the pool. -/
def toPool (s : Allocator) (next : ℕ → Option ℕ) (chain : Bucket → Option ℕ) (b : ℕ) : Allocator :=
  { s with
    next := Function.update next b s.freeBucketDesc
    chain := chain
    freeBucketDesc := some b
    held := s.held.erase (s.desc b).page
    freed := s.freed ++ [(s.desc b).page] }

/-- The page has no objects in use. -/
theorem Inv.toPool {next : ℕ → Option ℕ} {chain : Bucket → Option ℕ} (h : s.Inv c f)
    (hc : c i = l₁ ++ b :: l₂)
    (hchain : ∀ j, Seg next (chain j) (Function.update c i (l₁ ++ l₂) j) none)
    (hpool : Seg next s.freeBucketDesc f none)
    (hlive : ∀ o ∈ s.live, pageOf o.obj ≠ (s.desc b).page) :
    (s.toPool next chain b).Inv (Function.update c i (l₁ ++ l₂)) (b :: f) := by
  have hb : b ∈ c i := by rw [hc]; exact List.mem_append_cons_self
  have hmem : ∀ j x, x ∈ Function.update c i (l₁ ++ l₂) j → x ∈ c j ∧ x ≠ b := fun j x =>
    (h.mem_update_append hc).1
  constructor
  case chain => exact fun j => (hchain j).update (fun hbj => (hmem j b hbj).2 rfl) _
  case pool => exact hpool.push (h.apart_pool i b hb)
  case apart => exact fun j k x hx hx' => h.apart j k x (hmem j x hx).1 (hmem k x hx').1
  case apart_pool =>
    intro j x hx
    rw [List.mem_cons, not_or]
    exact ⟨(hmem j x hx).2, h.apart_pool j x (hmem j x hx).1⟩
  case chain_descs => exact fun j x hx => h.chain_descs j x (hmem j x hx).1
  case pool_descs => exact List.forall_mem_cons.2 ⟨h.chain_descs i b hb, h.pool_descs⟩
  case held => exact h.held.erase _
  case held_page => exact fun p hp => h.held_page p (List.mem_of_mem_erase hp)
  case descPages =>
    intro p hp
    exact (List.mem_erase_of_ne (ne_of_mem_of_not_mem hp (h.page i b hb).2)).2 (h.descPages p hp)
  case page =>
    intro j x hx
    obtain ⟨hx, hne⟩ := hmem j x hx
    have hpage : (s.desc x).page ≠ (s.desc b).page := fun heq => hne (h.page_inj j i x b hx hb heq)
    exact ⟨(List.mem_erase_of_ne hpage).2 (h.page j x hx).1, (h.page j x hx).2⟩
  case page_inj =>
    exact fun j k x x' hx hx' => h.page_inj j k x x' (hmem j x hx).1 (hmem k x' hx').1
  case describes => exact fun j x hx => h.describes j x (hmem j x hx).1
  case live =>
    intro o ho
    obtain ⟨j, x, hj, hx, hslot⟩ := h.live o ho
    refine ⟨j, x, hj, (h.mem_update_append hc).2 ⟨hx, ?_⟩, hslot⟩
    rintro rfl
    exact hlive o ho (pageOf_slot (h.page_mod hx) hslot)
  case nodup => exact h.nodup

/-- The part of `free_s` for a page without objects in use, where `objs` are those
of the other pages. -/
theorem Inv.releaseBucket {objs : List Object} (h : { s with live := objs }.Inv c f)
    (hc : c i = l₁ ++ b :: l₂) (hobjs : ∀ o ∈ objs, pageOf o.obj ≠ (s.desc b).page) :
    ∃ s', s.releaseBucket i b l₁.getLast? = .ok s' ∧
      s'.freed = s.freed ++ [(s.desc b).page] ∧ s'.live = s.live ∧
      { s' with live := objs }.Inv (Function.update c i (l₁ ++ l₂)) (b :: f) := by
  obtain ⟨hstale, next, chain, hunlink, hchain, hpool⟩ := h.unlinkDesc hc
  refine ⟨s.toPool next chain b, ?_, rfl, rfl, h.toPool hc hchain hpool hobjs⟩
  rw [Allocator.releaseBucket, hstale]
  simp only [Bool.false_eq_true, if_false, pure_bind, hunlink]
  rfl

theorem refcnt_eq_zero {n : UInt16} {m : ℕ} (h : n.toNat = m) : n = 0 ↔ m = 0 := by
  rw [← h, ← UInt16.toNat_inj]
  rfl

/-- The pages to give back, as the objects left in use say. -/
theorem emptied_free {obj : ℕ} (hpage : pageOf obj = page) :
    s.emptied (.free obj size) =
      if (s.live.filter fun o => o.obj ≠ obj).countP (fun o => pageOf o.obj = page) = 0
        then [page] else [] := by
  subst hpage
  rw [emptied]
  refine if_congr ?_ rfl rfl
  rw [List.countP_eq_zero]
  simp only [List.mem_filter, decide_eq_true_eq]
  constructor
  · exact fun h o ho hpage => ho.2 (h o ho.1 hpage)
  · intro h o ho hpage
    by_contra hne
    exact h o ⟨ho, hne⟩ hpage

theorem act_free {obj : ℕ} {s' : Allocator} (h : s.freeS obj size = .ok s') :
    s.act (.free obj size) = .ok { s' with live := s'.live.filter fun o => o.obj ≠ obj } := by
  rw [act, h]
  rfl

theorem Inv.freeS {obj : ℕ} (h : s.Inv c f) (hok : s.Allowed (.free obj size)) :
    ∃ s' c' f', s.act (.free obj size) = .ok s' ∧
      s'.freed = s.freed ++ s.emptied (.free obj size) ∧ s'.Inv c' f' := by
  obtain ⟨o, ho, rfl, hsize⟩ := hok
  obtain ⟨i, b, hi, hb, hslot⟩ := h.live o ho
  have hle : size ≤ i.size := by
    have := le_size_of_bucketFor hi
    omega
  have hpage := pageOf_slot (h.page_mod hb) hslot
  obtain ⟨l₁, l₂, hc⟩ := List.append_of_mem hb
  have hfind := h.findBucket hc hle (List.mem_finRange i)
  obtain ⟨hput, hrefcnt⟩ := h.putObject ho hb hslot
  rw [emptied_free hpage]
  by_cases hzero : ((s.putObject b o.obj).desc b).refcnt = 0
  · have hcount := (refcnt_eq_zero hrefcnt).1 hzero
    have hsame : ((s.putObject b o.obj).desc b).page = (s.desc b).page := by
      rw [putObject_desc]
    obtain ⟨s', hrelease, hfreed, hlive, hinv⟩ := hput.releaseBucket hc fun o' ho' => by
      rw [hsame]
      simpa using List.countP_eq_zero.1 hcount o' ho'
    have hfree : s.freeS o.obj size = .ok s' := by
      rw [Allocator.freeS, hpage, hfind]
      exact (if_pos hzero).trans hrelease
    rw [if_pos hcount]
    refine ⟨_, Function.update c i (l₁ ++ l₂), b :: f, act_free hfree, ?_, ?_⟩
    · rw [hsame] at hfreed
      exact hfreed
    · rw [hlive]
      exact hinv
  · rw [if_neg fun hcount => hzero ((refcnt_eq_zero hrefcnt).2 hcount), List.append_nil]
    have hfree : s.freeS o.obj size = .ok (s.putObject b o.obj) := by
      rw [Allocator.freeS, hpage, hfind]
      exact if_neg hzero
    exact ⟨_, c, f, act_free hfree, rfl, hput⟩

/-! ## Runs -/

/-- A word of an object in use is not one of a free object. -/
theorem Inv.slot_ne {o : Object} (h : s.Inv c f) (ho : o ∈ s.live) (hle : o.obj ≤ a)
    (hlt : a < o.obj + o.len) (hb : b ∈ c i) (hx : x ∈ slots i (s.desc b).page)
    (hfree : x ∉ s.live.map Object.obj) : x ≠ a := by
  rintro rfl
  obtain ⟨j, y, hj, hy, hslot⟩ := h.live o ho
  have hlen := le_size_of_bucketFor hj
  have hpage := slots_le hslot
  have hpage' := slots_le hx
  by_cases hyb : y = b
  · subst hyb
    obtain rfl := h.apart i j y hb hy
    have hne : o.obj ≠ x := fun heq => hfree (heq ▸ List.mem_map_of_mem ho)
    have := slots_disjoint hslot hx hne
    omega
  · have hne : (s.desc y).page ≠ (s.desc b).page := fun heq => hyb (h.page_inj j i y b hy hb heq)
    have hmod := h.page_mod hb
    have hmod' := h.page_mod hy
    have hlt' := slots_lt hx
    unfold PAGE_SIZE at *
    omega

theorem Inv.write {w : Option ℕ} (h : s.Inv c f) (hok : s.Allowed (.write a w)) :
    { s with word := Function.update s.word a w }.Inv c f := by
  obtain ⟨-, o, ho, hle, hlt⟩ := hok
  refine h.of_objects rfl rfl rfl rfl rfl (fun _ => rfl) (fun i b hb => ?_) h.live h.nodup
  refine (h.describes i b hb).congr rfl (fun x hx hfree => ?_) rfl fun _ _ => Iff.rfl
  exact Function.update_of_ne (h.slot_ne ho hle hlt hb hx hfree) ..

/-- An allowed action does not panic, and keeps the invariant. -/
theorem Inv.act {action : MallocAction} (h : s.Inv c f) (hok : s.Allowed action) :
    ∃ s' c' f', s.act action = .ok s' ∧ s'.freed = s.freed ++ s.emptied action ∧ s'.Inv c' f' := by
  cases action with
  | malloc len p q =>
      obtain ⟨s', c', f', hs', hfreed, h'⟩ := h.malloc hok
      exact ⟨s', c', f', hs', hfreed.trans (List.append_nil s.freed).symm, h'⟩
  | free obj size => exact h.freeS hok
  | write a w => exact ⟨_, c, f, rfl, (List.append_nil s.freed).symm, h.write hok⟩

/-- The users of the allocator keep to their part. -/
def AllowedStep (r : Except String Allocator) (action : MallocAction) : Prop :=
  ∀ s ∈ r.toOption, s.Allowed action

instance : ∀ r action, Decidable (AllowedStep r action)
  | .ok s, action => decidable_of_iff (s.Allowed action) (by simp [AllowedStep, Except.toOption])
  | .error _, _ => isTrue fun _ h => by cases h

/-- No panic, and all is as it is to be. -/
def InOrder (r : Except String Allocator) : Prop := ∃ s, r = .ok s ∧ s.Consistent

/-- The action gives back the pages that it should. -/
def GivesBack (r : Except String Allocator) (action : MallocAction) : Prop :=
  ∀ s ∈ r.toOption, ∀ s' ∈ (step r action).toOption, s'.freed = s.freed ++ s.emptied action

/-- The objects in use are apart from each other, the descriptors are right about
their pages, a page is given back with the last object in use on it, and there is
no panic. -/
theorem malloc_consistent (as : List MallocAction) (h : EachStep step AllowedStep (.ok init) as) :
    Always step InOrder (.ok init) as ∧ EachStep step GivesBack (.ok init) as := by
  let I : Except String Allocator → Prop := fun r => ∃ s c f, r = .ok s ∧ s.Inv c f
  have hinit : I (.ok init) := ⟨init, _, _, rfl, init_inv⟩
  have hstep : ∀ r action, I r → AllowedStep r action → I (step r action) := by
    rintro _ action ⟨s, c, f, rfl, hinv⟩ hok
    obtain ⟨s', c', f', hs', -, h'⟩ := hinv.act (hok s rfl)
    exact ⟨s', c', f', hs', h'⟩
  refine ⟨h.always ?_ hstep hinit, h.of_invariant ?_ hstep hinit⟩
  · rintro _ ⟨s, c, f, rfl, hinv⟩
    exact ⟨s, rfl, hinv.consistent⟩
  · rintro _ action ⟨s, c, f, rfl, hinv⟩ hok s₁ hs₁ s₂ hs₂
    cases hs₁
    obtain ⟨s', -, -, hs', hfreed, -⟩ := hinv.act (hok s rfl)
    have hsome : (s.act action).toOption = some s₂ := hs₂
    rw [hs'] at hsome
    cases hsome
    exact hfreed

/-- Two pages are filled with one object each, and given back. -/
theorem malloc_two_pages :
    let as : List MallocAction := [.malloc 4000 4096 8192, .write 8196 (some 7),
      .malloc 4096 0 12288, .free 8192 0, .free 12288 4096, .malloc 20 0 8192, .malloc 17 0 0]
    EachStep step AllowedStep (.ok init) as ∧
      Always step InOrder (.ok init) as ∧ EachStep step GivesBack (.ok init) as :=
  have h : EachStep step AllowedStep (.ok init) [.malloc 4000 4096 8192, .write 8196 (some 7),
      .malloc 4096 0 12288, .free 8192 0, .free 12288 4096, .malloc 20 0 8192, .malloc 17 0 0] := by
    decide +kernel
  ⟨h, malloc_consistent _ h⟩

end Allocator

end MyJavaExample.Kernel
