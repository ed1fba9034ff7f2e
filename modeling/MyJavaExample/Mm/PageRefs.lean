import MyJavaExample.Lib.RefCount
import MyJavaExample.Mm.Memory

/-!
# References to physical pages

A page is referred to by the entries of the page directory and of the page
tables of the processes, and by the kernel, which holds some pages for itself:
the structures of the tasks, pages that are being filled.  The first four
entries of the directory are the kernel's own identity mapping and do not count.

`Counted` says that the counters count these references.  It is about the
references alone, and there is one lemma for each way in which a reference
appears or goes away.  All the functions of `memory.c` are made of these.
-/

namespace MyJavaExample.Mm

open Lib

/-- An entry of the directory, or an entry of the table of a directory entry. -/
abbrev Place : Type := Fin 1024 ⊕ Fin 1024 × Fin 1024

/-- `count` counts the references to the pages from `start` to `high`, `held`
being the pages the kernel holds. -/
structure Counted (start high : ℕ) (count : ℕ → ℕ) (ref : Place → Option ℕ) (held : List ℕ) :
    Prop where
  low : LOW_MEM ≤ start
  counts : ∀ p, start ≤ p → p < high → count p = refCount ref p + held.count p
  reserved : ∀ p, LOW_MEM ≤ p → p < start ∨ high ≤ p → count p ≠ 0
  refs : ∀ r p, ref r = some p → p < LOW_MEM ∨ start ≤ p ∧ p < high
  /-- A page table is not referred to by anything else. -/
  tables : ∀ d t, ref (.inl d) = some t → LOW_MEM ≤ t ∧ count t = 1
  held : ∀ p ∈ held, start ≤ p ∧ p < high ∧ count p = 1
  /-- All processes map a page at the same address of their segments. -/
  offsets : ∀ d i d' i' p, ref (.inr (d, i)) = some p → ref (.inr (d', i')) = some p →
    LOW_MEM ≤ p → d.val % 16 = d'.val % 16 ∧ i = i'

namespace Counted

variable {start high : ℕ} {count : ℕ → ℕ} {ref : Place → Option ℕ} {held : List ℕ}
variable {r : Place} {d i d' : Fin 1024} {p t : ℕ}

/-! ## What follows from the counts -/

theorem perm {held' : List ℕ} (h : Counted start high count ref held)
    (hperm : held.Perm held') : Counted start high count ref held' :=
  { h with
    counts := fun p hstart hhigh => by rw [h.counts p hstart hhigh, hperm.count_eq]
    held := fun p hp => h.held p (hperm.mem_iff.2 hp) }

/-- A page from `LOW_MEM` on that is referred to is a page of the memory. -/
theorem managed (h : Counted start high count ref held) (hr : ref r = some p)
    (hp : LOW_MEM ≤ p) : start ≤ p ∧ p < high :=
  (h.refs r p hr).resolve_left (Nat.not_lt.2 hp)

/-- The only reference to a page table. -/
theorem table_unique (h : Counted start high count ref held) (hd : ref (.inl d) = some t)
    (hr : ref r = some t) : r = .inl d := by
  obtain ⟨hlow, hone⟩ := h.tables d t hd
  obtain ⟨hstart, hhigh⟩ := h.managed hd hlow
  have hcount := h.counts t hstart hhigh
  exact eq_of_refCount_le_one (by omega) hr hd

/-- A page that is referred to has a count. -/
theorem count_pos (h : Counted start high count ref held) (hr : ref r = some p)
    (hp : LOW_MEM ≤ p) : 0 < count p := by
  obtain ⟨hstart, hhigh⟩ := h.managed hr hp
  have hpos := refCount_pos hr
  have hcount := h.counts p hstart hhigh
  omega

/-- A page the kernel holds is held once and not referred to. -/
theorem held_unreferenced (h : Counted start high count ref held) (hp : p ∈ held) :
    held.count p = 1 ∧ ∀ r, ref r ≠ some p := by
  obtain ⟨hstart, hhigh, hone⟩ := h.held p hp
  have hcount := h.counts p hstart hhigh
  have hpos := List.count_pos_iff.2 hp
  exact ⟨by omega, ne_some_of_refCount_eq_zero (by omega)⟩

/-- A page that is referred to is not held by the kernel. -/
theorem notMem_held (h : Counted start high count ref held) (hr : ref r = some p) : p ∉ held :=
  fun hp => (h.held_unreferenced hp).2 r hr

/-- A free page is not referred to at all. -/
theorem free_unreferenced (h : Counted start high count ref held) (hp : LOW_MEM ≤ p)
    (hfree : count p = 0) : (start ≤ p ∧ p < high) ∧ (∀ r, ref r ≠ some p) ∧ p ∉ held := by
  have hmanaged : start ≤ p ∧ p < high := by
    by_contra hno
    exact h.reserved p hp (by omega) hfree
  have hcount := h.counts p hmanaged.1 hmanaged.2
  refine ⟨hmanaged, ne_some_of_refCount_eq_zero (by omega), fun hmem => ?_⟩
  have hpos := List.count_pos_iff.2 hmem
  omega

/-- At most one entry of each task refers to a page. -/
theorem refCount_le (h : Counted start high count ref held) (hentry : ref (.inr (d, i)) = some p)
    (hp : LOW_MEM ≤ p) : refCount ref p ≤ 64 := by
  have hdir : ∀ d', ref (.inl d') ≠ some p := by
    intro d' hd'
    cases h.table_unique hd' hentry
  have hle := @refCount_le_card Place ℕ _ _ ref p (Fin 64) _
    (fun r => ⟨(r.elim id Prod.fst).val / 16, by have := (r.elim id Prod.fst).isLt; omega⟩)
  rw [Fintype.card_fin] at hle
  refine hle ?_
  rintro (d₁ | ⟨d₁, i₁⟩) (d₂ | ⟨d₂, i₂⟩) h₁ h₂ heq
  · exact absurd h₁ (hdir d₁)
  · exact absurd h₁ (hdir d₁)
  · exact absurd h₂ (hdir d₂)
  · obtain ⟨hmod, rfl⟩ := h.offsets d₁ i₁ d₂ i₂ p h₁ h₂ hp
    have hdiv := congrArg Fin.val heq
    simp only [Sum.elim_inr] at hdiv
    have hval : d₁ = d₂ := by
      apply Fin.ext
      omega
    rw [hval]

theorem count_le (h : Counted start high count ref held) (hentry : ref (.inr (d, i)) = some p)
    (hp : LOW_MEM ≤ p) : count p ≤ 64 := by
  obtain ⟨hstart, hhigh⟩ := h.managed hentry hp
  have hle := h.refCount_le hentry hp
  have hheld := List.count_eq_zero_of_not_mem (h.notMem_held hentry)
  have hcount := h.counts p hstart hhigh
  omega

/-! ## Pages of the kernel -/

/-- A free page is handed out to the kernel. -/
theorem alloc (h : Counted start high count ref held) (hp : LOW_MEM ≤ p) (hfree : count p = 0) :
    Counted start high (Function.update count p 1) ref (p :: held) := by
  obtain ⟨hmanaged, hunref, hheld⟩ := h.free_unreferenced hp hfree
  have hcount : ∀ q, q ≠ p → Function.update count p 1 q = count q := fun q hq =>
    Function.update_of_ne hq 1 count
  refine ⟨h.low, fun q hstart hhigh => ?_, fun q hlow hout => ?_, h.refs, fun d t hd => ?_,
    fun q hq => ?_, h.offsets⟩
  · by_cases hq : q = p
    · subst hq
      rw [Function.update_self, List.count_cons_self, refCount_eq_zero hunref,
        List.count_eq_zero_of_not_mem hheld]
    · rw [hcount q hq, h.counts q hstart hhigh, List.count_cons_of_ne (Ne.symm hq)]
  · rw [hcount q (by omega)]
    exact h.reserved q hlow hout
  · rw [hcount t fun ht => hunref (.inl d) (ht ▸ hd)]
    exact h.tables d t hd
  · rcases List.mem_cons.1 hq with rfl | hq
    · exact ⟨hmanaged.1, hmanaged.2, Function.update_self ..⟩
    · rw [hcount q fun hqp => hheld (hqp ▸ hq)]
      exact h.held q hq

/-- The kernel gives a page back. -/
theorem release (h : Counted start high count ref (p :: held)) :
    Counted start high (Function.update count p (count p - 1)) ref held := by
  obtain ⟨hone, hunref⟩ := h.held_unreferenced List.mem_cons_self
  obtain ⟨hstart, hhigh, hcount⟩ := h.held p List.mem_cons_self
  rw [List.count_cons_self] at hone
  have hheld : p ∉ held := fun hp => by
    have := List.count_pos_iff.2 hp
    omega
  have hother : ∀ q, q ≠ p → Function.update count p (count p - 1) q = count q := fun q hq =>
    Function.update_of_ne hq _ count
  refine ⟨h.low, fun q hq₁ hq₂ => ?_, fun q hlow hout => ?_, h.refs, fun d t hd => ?_,
    fun q hq => ?_, h.offsets⟩
  · by_cases hq : q = p
    · subst hq
      rw [Function.update_self, refCount_eq_zero hunref]
      omega
    · rw [hother q hq, h.counts q hq₁ hq₂, List.count_cons_of_ne (Ne.symm hq)]
  · rw [hother q (by omega)]
    exact h.reserved q hlow hout
  · rw [hother t fun ht => hunref (.inl d) (ht ▸ hd)]
    exact h.tables d t hd
  · rw [hother q fun hqp => hheld (hqp ▸ hq)]
    exact h.held q (List.mem_cons_of_mem p hq)

/-! ## New references -/

/-- A page the kernel holds gets its first reference. -/
theorem map (h : Counted start high count ref (p :: held)) (hnone : ref r = none) :
    Counted start high count (Function.update ref r (some p)) held := by
  obtain ⟨hone, hunref⟩ := h.held_unreferenced List.mem_cons_self
  obtain ⟨hstart, hhigh, hcount⟩ := h.held p List.mem_cons_self
  have hlow := h.low
  -- what refers to a page now referred to it before, or is the new reference
  have hold : ∀ s q, Function.update ref r (some p) s = some q → s = r ∧ q = p ∨ ref s = some q := by
    intro s q hs
    by_cases hsr : s = r
    · subst hsr
      rw [Function.update_self] at hs
      exact .inl ⟨rfl, (Option.some.inj hs).symm⟩
    · rw [Function.update_of_ne hsr] at hs
      exact .inr hs
  refine ⟨h.low, fun q hq₁ hq₂ => ?_, h.reserved, fun s q hs => ?_, fun d t hd => ?_,
    fun q hq => h.held q (List.mem_cons_of_mem p hq), fun d i d' i' q h₁ h₂ hq => ?_⟩
  · have hupdate := refCount_update ref r (some p) q
    have hq := h.counts q hq₁ hq₂
    rw [hnone] at hupdate
    by_cases hqp : q = p
    · subst hqp
      simp only [reduceCtorEq, if_false, if_true, List.count_cons_self] at hupdate hq
      omega
    · rw [List.count_cons_of_ne (Ne.symm hqp)] at hq
      simp only [reduceCtorEq, if_false, Option.some.injEq, Ne.symm hqp] at hupdate
      omega
  · rcases hold s q hs with ⟨-, rfl⟩ | hs
    · exact .inr ⟨hstart, hhigh⟩
    · exact h.refs s q hs
  · rcases hold _ t hd with ⟨-, rfl⟩ | hd
    · exact ⟨by omega, hcount⟩
    · exact h.tables d t hd
  · rcases hold _ q h₁ with ⟨hr₁, rfl⟩ | hs₁
    · rcases hold _ q h₂ with ⟨hr₂, -⟩ | hs₂
      · cases hr₁.trans hr₂.symm
        exact ⟨rfl, rfl⟩
      · exact absurd hs₂ (hunref _)
    · rcases hold _ q h₂ with ⟨-, rfl⟩ | hs₂
      · exact absurd hs₁ (hunref _)
      · exact h.offsets d i d' i' q hs₁ hs₂ hq

/-- A page gets another reference from the same address of another task. -/
theorem share (h : Counted start high count ref held) (hnone : ref (.inr (d, i)) = none)
    (hsource : ref (.inr (d', i)) = some p) (hmod : d.val % 16 = d'.val % 16)
    (hp : LOW_MEM ≤ p) :
    Counted start high (Function.update count p (count p + 1))
      (Function.update ref (.inr (d, i)) (some p)) held := by
  obtain ⟨hstart, hhigh⟩ := h.managed hsource hp
  have hlow := h.low
  have hother : ∀ q, q ≠ p → Function.update count p (count p + 1) q = count q := fun q hq =>
    Function.update_of_ne hq _ count
  have hdir : ∀ d₁, ref (.inl d₁) ≠ some p := by
    intro d₁ hd₁
    cases h.table_unique hd₁ hsource
  have hold : ∀ d₁ i₁ q, Function.update ref (.inr (d, i)) (some p) (.inr (d₁, i₁)) = some q →
      ref (.inr (d₁, i₁)) = some q ∨ q = p ∧ d₁ = d ∧ i₁ = i := by
    intro d₁ i₁ q hq
    by_cases hplace : (d₁, i₁) = (d, i)
    · cases hplace
      rw [Function.update_self] at hq
      exact .inr ⟨(Option.some.inj hq).symm, rfl, rfl⟩
    · rw [Function.update_of_ne (by simpa using hplace)] at hq
      exact .inl hq
  refine ⟨h.low, fun q hq₁ hq₂ => ?_, fun q hq hout => ?_, fun s q hs => ?_, fun d₁ t hd₁ => ?_,
    fun q hq => ?_, fun d₁ i₁ d₂ i₂ q h₁ h₂ hq => ?_⟩
  · have hupdate := refCount_update ref (.inr (d, i)) (some p) q
    have hq := h.counts q hq₁ hq₂
    rw [hnone] at hupdate
    by_cases hqp : q = p
    · subst hqp
      simp only [reduceCtorEq, if_false, if_true] at hupdate
      rw [Function.update_self]
      omega
    · simp only [reduceCtorEq, if_false, Option.some.injEq, Ne.symm hqp] at hupdate
      rw [hother q hqp]
      omega
  · rw [hother q (by omega)]
    exact h.reserved q hq hout
  · rcases s with d₁ | ⟨d₁, i₁⟩
    · rw [Function.update_of_ne (by simp)] at hs
      exact h.refs _ q hs
    · rcases hold d₁ i₁ q hs with hs | ⟨rfl, -, -⟩
      · exact h.refs _ q hs
      · exact .inr ⟨hstart, hhigh⟩
  · rw [Function.update_of_ne (by simp)] at hd₁
    rw [hother t fun ht => hdir d₁ (ht ▸ hd₁)]
    exact h.tables d₁ t hd₁
  · rw [hother q fun hqp => h.notMem_held hsource (hqp ▸ hq)]
    exact h.held q hq
  · rcases hold d₁ i₁ q h₁ with hs₁ | ⟨rfl, rfl, rfl⟩
    · rcases hold d₂ i₂ q h₂ with hs₂ | ⟨rfl, rfl, rfl⟩
      · exact h.offsets d₁ i₁ d₂ i₂ q hs₁ hs₂ hq
      · obtain ⟨hm, hi⟩ := h.offsets d₁ i₁ d' _ q hs₁ hsource hq
        exact ⟨hm.trans hmod.symm, hi⟩
    · rcases hold d₂ i₂ q h₂ with hs₂ | ⟨-, rfl, rfl⟩
      · obtain ⟨hm, hi⟩ := h.offsets d' _ d₂ i₂ q hsource hs₂ hq
        exact ⟨hmod.trans hm, hi⟩
      · exact ⟨rfl, rfl⟩

/-- An entry comes to refer to a page below `LOW_MEM`, or to none, or no longer
does.  Such pages have no count. -/
theorem updateLow (h : Counted start high count ref held) {v : Option ℕ}
    (hold : ∀ q, ref (.inr (d, i)) = some q → q < LOW_MEM) (hv : ∀ q, v = some q → q < LOW_MEM) :
    Counted start high count (Function.update ref (.inr (d, i)) v) held := by
  have hlow := h.low
  have hplace : ∀ s q, Function.update ref (.inr (d, i)) v s = some q →
      ref s = some q ∨ q < LOW_MEM := by
    intro s q hs
    by_cases hsr : s = .inr (d, i)
    · subst hsr
      rw [Function.update_self] at hs
      exact .inr (hv q hs)
    · rw [Function.update_of_ne hsr] at hs
      exact .inl hs
  refine ⟨h.low, fun q hq₁ hq₂ => ?_, h.reserved, fun s q hs => ?_, fun d₁ t hd₁ => ?_, h.held,
    fun d₁ i₁ d₂ i₂ q h₁ h₂ hq => ?_⟩
  · have hupdate := refCount_update ref (.inr (d, i)) v q
    rw [if_neg fun hq => absurd (hold q hq) (by omega),
      if_neg fun hq => absurd (hv q hq) (by omega)] at hupdate
    rw [h.counts q hq₁ hq₂]
    omega
  · exact (hplace s q hs).elim (h.refs s q) .inl
  · rw [Function.update_of_ne (by simp)] at hd₁
    exact h.tables d₁ t hd₁
  · rcases hplace _ q h₁ with h₁ | hlt
    · rcases hplace _ q h₂ with h₂ | hlt
      · exact h.offsets d₁ i₁ d₂ i₂ q h₁ h₂ hq
      · omega
    · omega

/-! ## References that go away -/

theorem unref (h : Counted start high count ref held) (hr : ref r = some p) (hp : LOW_MEM ≤ p) :
    Counted start high (Function.update count p (count p - 1)) (Function.update ref r none) held := by
  obtain ⟨hstart, hhigh⟩ := h.managed hr hp
  have hlow := h.low
  have hpos := h.count_pos hr hp
  have hother : ∀ q, q ≠ p → Function.update count p (count p - 1) q = count q := fun q hq =>
    Function.update_of_ne hq _ count
  have hold : ∀ s q, Function.update ref r none s = some q → s ≠ r ∧ ref s = some q := by
    intro s q hs
    by_cases hsr : s = r
    · subst hsr
      rw [Function.update_self] at hs
      cases hs
    · rw [Function.update_of_ne hsr] at hs
      exact ⟨hsr, hs⟩
  refine ⟨h.low, fun q hq₁ hq₂ => ?_, fun q hq hout => ?_, fun s q hs => ?_, fun d₁ t hd₁ => ?_,
    fun q hq => ?_, fun d₁ i₁ d₂ i₂ q h₁ h₂ hq => ?_⟩
  · have hupdate := refCount_update ref r none q
    have hq := h.counts q hq₁ hq₂
    rw [hr] at hupdate
    by_cases hqp : q = p
    · subst hqp
      simp only [reduceCtorEq, if_false, if_true] at hupdate
      rw [Function.update_self]
      omega
    · simp only [reduceCtorEq, if_false, Option.some.injEq, Ne.symm hqp] at hupdate
      rw [hother q hqp]
      omega
  · rw [hother q (by omega)]
    exact h.reserved q hq hout
  · exact h.refs s q (hold s q hs).2
  · obtain ⟨hne, hd₁⟩ := hold _ t hd₁
    have htp : t ≠ p := fun htp => hne (h.table_unique hd₁ (htp ▸ hr)).symm
    rw [hother t htp]
    exact h.tables d₁ t hd₁
  · rw [hother q fun hqp => h.notMem_held hr (hqp ▸ hq)]
    exact h.held q hq
  · exact h.offsets d₁ i₁ d₂ i₂ q (hold _ q h₁).2 (hold _ q h₂).2 hq

/-- The only reference to a page is overwritten and its count stays. -/
theorem lose (h : Counted start high count ref held) (hr : ref r = some p) (hp : LOW_MEM ≤ p)
    (hone : count p = 1) : Counted start high count (Function.update ref r none) (p :: held) := by
  obtain ⟨hstart, hhigh⟩ := h.managed hr hp
  have hheld := List.count_eq_zero_of_not_mem (h.notMem_held hr)
  have hold : ∀ s q, Function.update ref r none s = some q → ref s = some q := by
    intro s q hs
    by_cases hsr : s = r
    · subst hsr
      rw [Function.update_self] at hs
      cases hs
    · rw [Function.update_of_ne hsr] at hs
      exact hs
  refine ⟨h.low, fun q hq₁ hq₂ => ?_, h.reserved, fun s q hs => h.refs s q (hold s q hs),
    fun d t hd => h.tables d t (hold _ t hd), fun q hq => ?_,
    fun d i d' i' q h₁ h₂ hq => h.offsets d i d' i' q (hold _ q h₁) (hold _ q h₂) hq⟩
  · have hupdate := refCount_update ref r none q
    have hq := h.counts q hq₁ hq₂
    rw [hr] at hupdate
    by_cases hqp : q = p
    · subst hqp
      simp only [reduceCtorEq, if_false, if_true] at hupdate
      rw [List.count_cons_self]
      omega
    · simp only [reduceCtorEq, if_false, Option.some.injEq, Ne.symm hqp] at hupdate
      rw [List.count_cons_of_ne (Ne.symm hqp)]
      omega
  · rcases List.mem_cons.1 hq with rfl | hq
    · exact ⟨hstart, hhigh, hone⟩
    · exact h.held q hq

end Counted

end MyJavaExample.Mm
