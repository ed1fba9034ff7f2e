import MyJavaExample.Mm.Consistency

/-!
# The functions of `memory.c` keep a memory consistent

One lemma for each function: it does not panic, what it leaves is consistent,
and what it does to the directory and to the entries.
-/

namespace MyJavaExample.Mm

open Lib

section Free

variable {bounds : Bounds} {m : Memory} {held : List ℕ} {d i : Fin 1024} {t : ℕ}

/-! ## `free_page_tables` -/

theorem freeEntry_spec (h : Consistent bounds m held) (hd : dirRef m d = some t) :
    ∃ m', freeEntry t i m = .ok m' ∧ Consistent bounds m' held ∧ dirRef m' = dirRef m ∧
      entryAt m' = Function.update (entryAt m) (d, i) none := by
  have hentry : entryAt (m.setEntry t i .zero) = Function.update (entryAt m) (d, i) none :=
    entryAt_setEntry h hd .zero
  unfold freeEntry
  by_cases hpresent : (m.table t i).present
  · have he : entryAt m (d, i) = some (m.table t i) := by
      rw [entryAt_of_dirRef hd, Entry.get?, if_pos hpresent]
    rw [if_pos hpresent]
    by_cases hlow : LOW_MEM ≤ (m.table t i).frame
    · obtain ⟨hfree, hcons⟩ := h.unmap hd he hlow
      rw [hfree]
      exact ⟨_, rfl, hcons, rfl, hentry⟩
    · rw [freePage, if_pos (Nat.not_le.1 hlow)]
      refine ⟨_, rfl, h.updateLow hd ?_ ?_, rfl, hentry⟩
      · intro e₀ he₀
        cases he.symm.trans he₀
        exact Nat.not_le.1 hlow
      · intro hno
        cases hno
  · rw [if_neg hpresent]
    refine ⟨_, rfl, h.updateLow hd ?_ ?_, rfl, hentry⟩
    · intro e₀ he₀
      rw [entryAt_of_dirRef hd, Entry.get?, if_neg hpresent] at he₀
      cases he₀
    · intro hno
      cases hno

theorem freeEntries_spec {n : ℕ} : ∀ {m : Memory} {i : ℕ}, Consistent bounds m held →
    dirRef m d = some t → i + n ≤ 1024 →
    ∃ m', freeEntries t n i m = .ok m' ∧ Consistent bounds m' held ∧ dirRef m' = dirRef m ∧
      ∀ y, entryAt m' y =
        if y.1 = d ∧ i ≤ y.2.val ∧ y.2.val < i + n then none else entryAt m y := by
  induction n with
  | zero =>
      intro m i h hd hn
      refine ⟨m, rfl, h, rfl, fun y => ?_⟩
      rw [if_neg (by omega)]
  | succ n ih =>
      intro m i h hd hn
      obtain ⟨m₁, hfree, h₁, hdir₁, hentry₁⟩ := freeEntry_spec (i := ⟨i, by omega⟩) h hd
      obtain ⟨m', hrest, h', hdir', hentry'⟩ := @ih m₁ (i + 1) h₁ (by rw [hdir₁, hd]) (by omega)
      refine ⟨m', ?_, h', hdir'.trans hdir₁, fun y => ?_⟩
      · rw [freeEntries, hfree]
        exact hrest
      · rw [hentry' y, hentry₁]
        by_cases hy : y = (d, ⟨i, by omega⟩)
        · subst hy
          simp
        · rw [Function.update_of_ne hy]
          have hne : y.1 = d → y.2.val ≠ i := fun hyd hyi => hy (Prod.ext hyd (Fin.ext hyi))
          by_cases hyd : y.1 = d
          · have := hne hyd
            simp only [hyd, true_and]
            congr 1
            exact propext ⟨fun _ => by omega, fun _ => by omega⟩
          · simp [hyd]

theorem freeDir_spec (h : Consistent bounds m held) (hd : 4 ≤ d.val) :
    ∃ m', freeDir d m = .ok m' ∧ Consistent bounds m' held ∧
      dirRef m' = Function.update (dirRef m) d none ∧
      ∀ y, entryAt m' y = if y.1 = d then none else entryAt m y := by
  unfold freeDir
  by_cases hpresent : (m.pgDir d).present
  · have ht : dirRef m d = some (m.pgDir d).frame := dirRef_eq_some.2 ⟨hd, hpresent, rfl⟩
    obtain ⟨m₁, hfree, h₁, hdir₁, hentry₁⟩ :=
      @freeEntries_spec bounds held d (m.pgDir d).frame 1024 m 0 h ht (by omega)
    have hall : ∀ y, entryAt m₁ y = if y.1 = d then none else entryAt m y := by
      intro y
      have hlt := y.2.isLt
      rw [hentry₁ y]
      congr 1
      exact propext ⟨fun hy => hy.1, fun hy => ⟨hy, by omega, by omega⟩⟩
    obtain ⟨hpage, h₂, hdir₂, hentry₂⟩ := h₁.unlink (d := d) (hdir₁ ▸ ht) fun i => by
      rw [hall, if_pos rfl]
    refine ⟨(m₁.decCount (m.pgDir d).frame).setDir d .zero, ?_, h₂, ?_, ?_⟩
    · rw [if_pos hpresent]
      simp only [hfree, hpage, bind, Except.bind, pure, Except.pure]
    · rw [hdir₂, hdir₁]
    · intro y
      rw [hentry₂, hall]
  · rw [if_neg hpresent]
    have hnone : dirRef m d = none := by
      rw [dirRef, if_neg fun hno => hpresent hno.2]
    refine ⟨m, rfl, h, ?_, fun y => ?_⟩
    · exact (Function.update_eq_self_iff.2 hnone.symm).symm
    · split
      next hy =>
        obtain ⟨y₁, y₂⟩ := y
        cases hy
        exact entryAt_of_dirRef_none hnone
      next => rfl

theorem freeDirs_spec {n : ℕ} : ∀ {m : Memory} {d : ℕ}, Consistent bounds m held →
    4 ≤ d → d + n ≤ 1024 →
    ∃ m', freeDirs n d m = .ok m' ∧ Consistent bounds m' held ∧
      (∀ y : Fin 1024, dirRef m' y = if d ≤ y.val ∧ y.val < d + n then none else dirRef m y) ∧
      ∀ y, entryAt m' y = if d ≤ y.1.val ∧ y.1.val < d + n then none else entryAt m y := by
  induction n with
  | zero =>
      intro m d h hd hn
      refine ⟨m, rfl, h, fun y => ?_, fun y => ?_⟩
      · rw [if_neg (by omega)]
      · rw [if_neg (by omega)]
  | succ n ih =>
      intro m d h hd hn
      obtain ⟨m₁, hfree, h₁, hdir₁, hentry₁⟩ := freeDir_spec (d := ⟨d, by omega⟩) h hd
      obtain ⟨m', hrest, h', hdir', hentry'⟩ := @ih m₁ (d + 1) h₁ (by omega) (by omega)
      have hsplit : ∀ y : Fin 1024, (d ≤ y.val ∧ y.val < d + (n + 1)) ↔
          (d + 1 ≤ y.val ∧ y.val < d + 1 + n) ∨ y = ⟨d, by omega⟩ := by
        intro y
        rw [Fin.ext_iff]
        constructor
        · intro hy
          dsimp only
          omega
        · intro hy
          dsimp only at hy
          omega
      refine ⟨m', ?_, h', fun y => ?_, fun y => ?_⟩
      · rw [freeDirs, hfree]
        exact hrest
      · rw [hdir' y, hdir₁]
        by_cases hy : y = ⟨d, by omega⟩
        · simp [hy]
        · rw [Function.update_of_ne hy]
          simp only [hsplit y, hy, or_false]
      · rw [hentry' y, hentry₁ y]
        by_cases hy : y.1 = ⟨d, by omega⟩
        · simp [hy]
        · simp only [hsplit y.1, hy, or_false, if_false]

end Free

/-! ## `copy_page_tables` -/

section Copy

variable {bounds : Bounds} {m : Memory} {held : List ℕ} {d d' i : Fin 1024} {s t : ℕ}

theorem setEntry_comm (m : Memory) {t t' : ℕ} (h : t ≠ t') (i i' : ℕ) (e e' : Entry) :
    (m.setEntry t i e).setEntry t' i' e' = (m.setEntry t' i' e').setEntry t i e := by
  simp only [Memory.setEntry, Function.update_of_ne h, Function.update_of_ne h.symm]
  rw [Function.update_comm h]

/-- The entries refer to the same pages as before, except at `x`. -/
def SameFrames (m m' : Memory) (x : Fin 1024 × Fin 1024) : Prop :=
  ∀ y, y ≠ x → (entryAt m' y).map Entry.frame = (entryAt m y).map Entry.frame

theorem SameFrames.none {m' : Memory} {x y : Fin 1024 × Fin 1024} (h : SameFrames m m' x)
    (hy : y ≠ x) (hnone : entryAt m y = none) : entryAt m' y = none := by
  have := h y hy
  rw [hnone, Option.map_none, Option.map_eq_none_iff] at this
  exact this

/-- An entry of a process is copied to the same index of another table. -/
theorem copyEntry_spec (h : Consistent bounds m held) (hd : dirRef m d = some s)
    (hd' : dirRef m d' = some t) (hne : d ≠ d') (hmod : d'.val % 16 = d.val % 16)
    (hnone : entryAt m (d', i) = none) :
    Consistent bounds (copyEntry s t i m) held ∧ dirRef (copyEntry s t i m) = dirRef m ∧
      SameFrames m (copyEntry s t i m) (d', i) := by
  unfold copyEntry
  by_cases hpresent : (m.table s i).present
  · have he : entryAt m (d, i) = some (m.table s i) := by
      rw [entryAt_of_dirRef hd, Entry.get?, if_pos hpresent]
    have hst : s ≠ t := by
      rintro rfl
      exact hne (h.dir_unique hd' hd)
    have hplace : (d', i) ≠ (d, i) := fun heq => hne (Prod.mk.inj heq).1.symm
    simp only [if_pos hpresent]
    by_cases hlow : LOW_MEM ≤ (m.table s i).frame
    · rw [if_pos (show (m.table s i).protect.frame ≥ LOW_MEM from hlow),
        setEntry_comm m hst.symm]
      have h₁ : Consistent bounds (m.setEntry s i (m.table s i).protect) held :=
        h.reflag hd he hpresent rfl fun hw => by cases hw
      have hentry₁ : entryAt (m.setEntry s i (m.table s i).protect) =
          Function.update (entryAt m) (d, i) (some (m.table s i).protect) := by
        rw [entryAt_setEntry h hd, Entry.get?, if_pos (show (m.table s i).protect.present from hpresent)]
      have hsource : entryAt (m.setEntry s i (m.table s i).protect) (d, i) =
          some (m.table s i).protect := by
        rw [hentry₁, Function.update_self]
      have htarget : entryAt (m.setEntry s i (m.table s i).protect) (d', i) = none := by
        rw [hentry₁, Function.update_of_ne hplace, hnone]
      refine ⟨h₁.share hd' htarget hsource rfl hmod hlow, rfl, ?_⟩
      intro y hy
      change (entryAt ((m.setEntry s i (m.table s i).protect).setEntry t i (m.table s i).protect)
        y).map Entry.frame = _
      rw [entryAt_setEntry h₁ hd', Function.update_of_ne hy, hentry₁]
      by_cases hyd : y = (d, i)
      · subst hyd
        rw [Function.update_self, he]
        rfl
      · rw [Function.update_of_ne hyd]
    · rw [if_neg (show ¬(m.table s i).protect.frame ≥ LOW_MEM from hlow)]
      refine ⟨h.updateLow hd' ?_ fun _ => ⟨rfl, Nat.not_le.1 hlow⟩, rfl, ?_⟩
      · intro e₀ he₀
        cases hnone.symm.trans he₀
      · intro y hy
        rw [entryAt_setEntry h hd', Function.update_of_ne hy]
  · simp only [if_neg hpresent]
    exact ⟨h, trivial, fun y _ => rfl⟩

/-- An entry of the kernel's own table is copied. -/
theorem copyEntry_kernel (h : Consistent bounds m held) (hd' : dirRef m d' = some t)
    (hi : i.val < 0xA0) (hnone : entryAt m (d', i) = none) :
    Consistent bounds (copyEntry (m.pgDir 0).frame t i m) held ∧
      dirRef (copyEntry (m.pgDir 0).frame t i m) = dirRef m ∧
      (copyEntry (m.pgDir 0).frame t i m).pgDir 0 = m.pgDir 0 ∧
      SameFrames m (copyEntry (m.pgDir 0).frame t i m) (d', i) := by
  have hlow := h.kernel.2 i hi
  unfold copyEntry
  by_cases hpresent : (m.table (m.pgDir 0).frame i).present
  · simp only [if_pos hpresent]
    rw [if_neg (show ¬(m.table (m.pgDir 0).frame i).protect.frame ≥ LOW_MEM from Nat.not_le.2 hlow)]
    refine ⟨h.updateLow hd' ?_ fun _ => ⟨rfl, hlow⟩, rfl, rfl, ?_⟩
    · intro e₀ he₀
      cases hnone.symm.trans he₀
    · intro y hy
      rw [entryAt_setEntry h hd', Function.update_of_ne hy]
  · simp only [if_neg hpresent]
    exact ⟨h, trivial, trivial, fun y _ => rfl⟩

theorem copyEntries_spec {n : ℕ} : ∀ {m : Memory} {i : ℕ}, Consistent bounds m held →
    dirRef m d = some s → dirRef m d' = some t → d ≠ d' → d'.val % 16 = d.val % 16 →
    i + n ≤ 1024 → (∀ j : Fin 1024, i ≤ j.val → entryAt m (d', j) = none) →
    Consistent bounds (copyEntries s t n i m) held ∧ dirRef (copyEntries s t n i m) = dirRef m := by
  induction n with
  | zero =>
      intro m i h _ _ _ _ _ _
      exact ⟨h, rfl⟩
  | succ n ih =>
      intro m i h hd hd' hne hmod hn hnone
      obtain ⟨h₁, hdir₁, hframes⟩ := copyEntry_spec (i := ⟨i, by omega⟩) h hd hd' hne hmod
        (hnone _ le_rfl)
      obtain ⟨h', hdir'⟩ := @ih (copyEntry s t i m) (i + 1) h₁ (by rw [hdir₁, hd])
        (by rw [hdir₁, hd']) hne hmod (by omega) fun j hj => by
          refine hframes.none (fun heq => ?_) (hnone j (by omega))
          have := congrArg Fin.val (Prod.mk.inj heq).2
          dsimp only at this
          omega
      exact ⟨h', hdir'.trans hdir₁⟩

theorem copyEntries_kernel {n : ℕ} : ∀ {m : Memory} {i : ℕ}, Consistent bounds m held →
    (m.pgDir 0).frame = s → dirRef m d' = some t → i + n ≤ 0xA0 →
    (∀ j : Fin 1024, i ≤ j.val → entryAt m (d', j) = none) →
    Consistent bounds (copyEntries s t n i m) held ∧ dirRef (copyEntries s t n i m) = dirRef m := by
  induction n with
  | zero =>
      intro m i h _ _ _ _
      exact ⟨h, rfl⟩
  | succ n ih =>
      intro m i h hs hd' hn hnone
      subst hs
      obtain ⟨h₁, hdir₁, hpg, hframes⟩ := copyEntry_kernel (i := ⟨i, by omega⟩) h hd' (by dsimp only; omega)
        (hnone _ le_rfl)
      obtain ⟨h', hdir'⟩ := @ih (copyEntry (m.pgDir 0).frame t i m) (i + 1) h₁
        (congrArg Entry.frame hpg) (by rw [hdir₁, hd']) (by omega) fun j hj => by
          refine hframes.none (fun heq => ?_) (hnone j (by omega))
          have := congrArg Fin.val (Prod.mk.inj heq).2
          dsimp only at this
          omega
      exact ⟨h', hdir'.trans hdir₁⟩

/-- A new table, zeroed, is entered into the directory. -/
theorem Consistent.linkHanded (h : Consistent bounds m held) {m' : Memory} (hp : Handed m m' t)
    (hd : 4 ≤ d.val) (hnone : dirRef m d = none) :
    Consistent bounds (m'.setDir d (.user t)) held ∧
      dirRef (m'.setDir d (.user t)) = Function.update (dirRef m) d (some t) ∧
      entryAt (m'.setDir d (.user t)) = entryAt m := by
  obtain ⟨hcons, hdir, hentry⟩ := (h.alloc hp).link hd (by rw [hp.dirRef, hnone]) hp.table_self
  exact ⟨hcons, by rw [hdir, hp.dirRef], by rw [hentry, hp.entryAt]⟩

theorem not_present_of_dirRef_none (hd : 4 ≤ d.val) (h : dirRef m d = none) :
    (m.pgDir d).present = false := by
  by_contra hno
  rw [dirRef, if_pos ⟨hd, by simpa using hno⟩] at h
  cases h

/-- Copying the tables of a process, to directory entries that are free. -/
theorem copyDirs_spec {n : ℕ} : ∀ {m : Memory} {d d' : ℕ}, Consistent bounds m held →
    4 ≤ d → 4 ≤ d' → d + n ≤ 1024 → d' + n ≤ 1024 → d' % 16 = d % 16 →
    (d + n ≤ d' ∨ d' + n ≤ d) →
    (∀ y : Fin 1024, d' ≤ y.val → y.val < d' + n → dirRef m y = none) →
    ∃ ok m', copyDirs 1024 n d d' m = .ok (ok, m') ∧ Consistent bounds m' held ∧
      ∀ y : Fin 1024, ¬(d' ≤ y.val ∧ y.val < d' + n) → dirRef m' y = dirRef m y := by
  induction n with
  | zero =>
      intro m d d' h _ _ _ _ _ _ _
      exact ⟨true, m, rfl, h, fun y _ => rfl⟩
  | succ n ih =>
      intro m d d' h hd hd' hn hn' hmod hdisj hnone
      have hfree := hnone ⟨d', by omega⟩ le_rfl (by dsimp only; omega)
      have habsent := not_present_of_dirRef_none (d := ⟨d', by omega⟩) hd' hfree
      rw [copyDirs]
      simp only [show (m.pgDir d').present = false from habsent, Bool.false_eq_true, if_false]
      by_cases hpresent : (m.pgDir d).present
      · rw [if_neg (not_not.2 hpresent)]
        cases hget : getFreePage m with
        | none => exact ⟨false, m, rfl, h, fun y _ => rfl⟩
        | some handed =>
            obtain ⟨t, m₁⟩ := handed
            have hp := h.handed hget
            obtain ⟨h₂, hdir₂, hentry₂⟩ := h.linkHanded (d := ⟨d', by omega⟩) hp hd' hfree
            dsimp only at h₂ hdir₂ hentry₂ ⊢
            have hsource : dirRef m ⟨d, by omega⟩ = some (m.pgDir d).frame :=
              dirRef_eq_some.2 ⟨hd, hpresent, rfl⟩
            have hne : (⟨d, by omega⟩ : Fin 1024) ≠ ⟨d', by omega⟩ := by
              intro heq
              have := congrArg Fin.val heq
              dsimp only at this
              omega
            have hframe : ((m₁.setDir d' (.user t)).pgDir d).frame = (m.pgDir d).frame := by
              have hdd : d ≠ d' := by omega
              simp only [Memory.setDir, Function.update_of_ne hdd, hp.pgDir]
            rw [hframe]
            have hsource₂ : dirRef (m₁.setDir d' (.user t)) ⟨d, by omega⟩ =
                some (m.pgDir d).frame := by
              rw [hdir₂, Function.update_of_ne hne, hsource]
            obtain ⟨h₃, hdir₃⟩ := @copyEntries_spec bounds held ⟨d, by omega⟩ ⟨d', by omega⟩
              (m.pgDir d).frame t 1024 _ 0 h₂ hsource₂ (by rw [hdir₂, Function.update_self]) hne
              hmod (by omega) fun j _ => by
                rw [hentry₂]
                exact entryAt_of_dirRef_none hfree
            have hother : ∀ y : Fin 1024, y.val ≠ d' →
                dirRef (copyEntries (m.pgDir d).frame t 1024 0 (m₁.setDir d' (.user t))) y =
                  dirRef m y := by
              intro y hy
              rw [hdir₃, hdir₂, Function.update_of_ne fun heq => hy (congrArg Fin.val heq)]
            obtain ⟨ok, m', hcopy, h', hdir'⟩ := @ih _ (d + 1) (d' + 1) h₃ (by omega)
              (by omega) (by omega) (by omega) (by omega) (by omega) fun y hy₁ hy₂ => by
                rw [hother y (by omega)]
                exact hnone y (by omega) (by omega)
            refine ⟨ok, m', hcopy, h', fun y hy => ?_⟩
            rw [hdir' y (by omega), hother y (by omega)]
      · rw [if_pos hpresent]
        obtain ⟨ok, m', hcopy, h', hdir'⟩ := @ih _ (d + 1) (d' + 1) h (by omega)
          (by omega) (by omega) (by omega) (by omega) (by omega)
          fun y hy₁ hy₂ => hnone y (by omega) (by omega)
        exact ⟨ok, m', hcopy, h', fun y hy => hdir' y (by omega)⟩

/-- Copying the first part of the kernel's own table. -/
theorem copyDirs_kernel (h : Consistent bounds m held) (hd : 4 ≤ d'.val) (hnone : dirRef m d' = none) :
    ∃ ok m', copyDirs 0xA0 1 0 d' m = .ok (ok, m') ∧ Consistent bounds m' held ∧
      ∀ y : Fin 1024, y ≠ d' → dirRef m' y = dirRef m y := by
  have habsent := not_present_of_dirRef_none hd hnone
  rw [copyDirs]
  simp only [habsent, Bool.false_eq_true, if_false]
  by_cases hpresent : (m.pgDir 0).present
  · rw [if_neg (not_not.2 hpresent)]
    cases hget : getFreePage m with
    | none => exact ⟨false, m, rfl, h, fun y _ => rfl⟩
    | some handed =>
        obtain ⟨t, m₁⟩ := handed
        have hp := h.handed hget
        obtain ⟨h₂, hdir₂, hentry₂⟩ := h.linkHanded hp hd hnone
        obtain ⟨h₃, hdir₃⟩ := @copyEntries_kernel bounds held d'
          ((m₁.setDir d' (.user t)).pgDir 0).frame t 0xA0 (m₁.setDir d' (.user t)) 0 h₂ rfl
          (by rw [hdir₂, Function.update_self]) (by omega) fun j _ => by
            rw [hentry₂]
            exact entryAt_of_dirRef_none hnone
        refine ⟨true, _, rfl, h₃, fun y hy => ?_⟩
        rw [hdir₃, hdir₂, Function.update_of_ne hy]
  · rw [if_pos hpresent]
    exact ⟨true, m, rfl, h, fun y _ => rfl⟩

end Copy

/-! ## Mapping one page -/

section Map

variable {bounds : Bounds} {m : Memory} {held : List ℕ} {d i : Fin 1024} {t p address : ℕ}

/-- The bytes of the pages that are in use stay as they are. -/
def KeepsUsed (m m' : Memory) : Prop :=
  ∀ q, q < LOW_MEM ∨ m.memMap q ≠ 0 → m'.bytes q = m.bytes q

theorem Handed.ne_of_used {m' : Memory} (h : Handed m m' p) {q : ℕ}
    (hq : q < LOW_MEM ∨ m.memMap q ≠ 0) : q ≠ p := by
  rintro rfl
  rcases hq with hlow | hused
  · exact absurd h.low (Nat.not_le.2 hlow)
  · exact hused h.free

theorem Handed.used {m' : Memory} (h : Handed m m' p) {q : ℕ}
    (hq : q < LOW_MEM ∨ m.memMap q ≠ 0) : q < LOW_MEM ∨ m'.memMap q ≠ 0 := by
  rw [h.memMap, Function.update_of_ne (h.ne_of_used hq)]
  exact hq

theorem Handed.keepsUsed {m' : Memory} (h : Handed m m' p) : KeepsUsed m m' :=
  fun _ hq => h.bytes_ne (h.ne_of_used hq)

/-- The page of an entry is in use. -/
theorem Consistent.entry_used (h : Consistent bounds m held) {x : Fin 1024 × Fin 1024} {e : Entry}
    (hx : entryAt m x = some e) : e.frame < LOW_MEM ∨ m.memMap e.frame ≠ 0 := by
  rcases Nat.lt_or_ge e.frame LOW_MEM with hlow | hlow
  · exact .inl hlow
  · exact .inr (h.counted.count_pos (refOf_entry hx) hlow).ne'

/-- `put_page` of a page the kernel holds, at an address without an entry. -/
theorem putPage_spec (h : Consistent bounds m (p :: held)) (hd : dirIndex address = d.val)
    (hi : tableIndex address = i.val) (hd4 : 4 ≤ d.val) (hnone : entryAt m (d, i) = none)
    {m' : Memory} (hput : putPage p address m = some m') :
    Consistent bounds m' held ∧ (∀ y, y ≠ d → dirRef m' y = dirRef m y) ∧
      entryAt m' = Function.update (entryAt m) (d, i) (some (.user p)) ∧ KeepsUsed m m' := by
  unfold putPage at hput
  rw [hd, hi] at hput
  by_cases hpresent : (m.pgDir d).present
  · rw [if_pos hpresent] at hput
    cases hput
    have ht : dirRef m d = some (m.pgDir d).frame := dirRef_eq_some.2 ⟨hd4, hpresent, rfl⟩
    exact ⟨h.map ht hnone, fun y _ => rfl, entryAt_setEntry h ht (.user p), fun q _ => rfl⟩
  · rw [if_neg hpresent] at hput
    obtain ⟨⟨t, m₁⟩, hget, rfl⟩ := Option.map_eq_some_iff.1 hput
    have hdir : dirRef m d = none := by
      rw [dirRef, if_neg fun hno => hpresent hno.2]
    have hp := h.handed hget
    obtain ⟨h₂, hdir₂, hentry₂⟩ := h.linkHanded hp hd4 hdir
    have ht : dirRef (m₁.setDir d (.user t)) d = some t := by
      rw [hdir₂, Function.update_self]
    refine ⟨h₂.map ht (by rw [hentry₂, hnone]), fun y hy => ?_, ?_, hp.keepsUsed⟩
    · rw [dirRef_setEntry, hdir₂, Function.update_of_ne hy]
    · rw [entryAt_setEntry h₂ ht, hentry₂]
      rfl

theorem setEntry_setEntry (m : Memory) (t i : ℕ) (e e' : Entry) :
    (m.setEntry t i e).setEntry t i e' = m.setEntry t i e' := by
  simp [Memory.setEntry]

/-- Copying a page to one that is not a table. -/
theorem Consistent.copyPage (h : Consistent bounds m held) (old : ℕ) {new : ℕ} (hlow : LOW_MEM ≤ new)
    (hnew : ∀ d, dirRef m d ≠ some new) :
    Consistent bounds (m.copyPage old new) held ∧ entryAt (m.copyPage old new) = entryAt m := by
  have htable : ∀ t, t ≠ new → (m.copyPage old new).table t = m.table t := fun t ht =>
    Function.update_of_ne ht ..
  have hentry : entryAt (m.copyPage old new) = entryAt m := by
    funext ⟨d, i⟩
    cases hd : dirRef m d with
    | none =>
        rw [entryAt_of_dirRef_none hd]
        exact entryAt_of_dirRef_none (m := m.copyPage old new) hd
    | some t =>
        rw [entryAt_of_dirRef hd, entryAt_of_dirRef (m := m.copyPage old new) hd,
          htable t fun ht => hnew d (ht ▸ hd)]
  refine ⟨h.of_eq rfl rfl rfl hentry rfl (htable _ ?_), hentry⟩
  have hkernel := h.kernel.1
  omega

/-- `un_wp_page` makes the entry writable, on its page or on a copy. -/
theorem unWpPage_spec (h : Consistent bounds m held) (hd : dirRef m d = some t) {e : Entry}
    (he : entryAt m (d, i) = some e) {m' : Memory} (hwp : unWpPage t i m = some m') :
    Consistent bounds m' held ∧ dirRef m' = dirRef m ∧
      ∃ e', e'.writable ∧ entryAt m' = Function.update (entryAt m) (d, i) (some e') ∧
        (e'.frame = e.frame ∧ m'.bytes = m.bytes ∨
          (∀ y e₁, entryAt m y = some e₁ → e₁.frame ≠ e'.frame) ∧
            m'.bytes = Function.update m.bytes e'.frame (m.bytes e.frame)) := by
  obtain ⟨t', ht', hpresent, rfl⟩ := entryAt_eq_some.1 he
  cases hd.symm.trans ht'
  dsimp only at hpresent he
  unfold unWpPage at hwp
  dsimp only at hwp
  by_cases hone : (m.table t i).frame ≥ LOW_MEM ∧ m.memMap (m.table t i).frame = 1
  · rw [if_pos hone] at hwp
    cases hwp
    refine ⟨h.reflag hd he hpresent rfl fun _ => hone, rfl,
      { m.table t i with writable := true }, rfl, ?_, .inl ⟨rfl, rfl⟩⟩
    rw [entryAt_setEntry h hd]
    congr 1
    exact if_pos hpresent
  · rw [if_neg hone] at hwp
    obtain ⟨⟨new, m₁⟩, hget, rfl⟩ := Option.map_eq_some_iff.1 hwp
    have hp := h.handed hget
    obtain ⟨hnewdir, hnewentry, -⟩ := h.free_ne hp.low hp.free
    have h₁ := h.alloc hp
    have he₁ : entryAt m₁ (d, i) = some (m.table t i) := by
      rw [hp.entryAt, he]
    have hd₁ : dirRef m₁ d = some t := by
      rw [hp.dirRef, hd]
    dsimp only
    generalize hm₂ : (if (m.table t i).frame ≥ LOW_MEM then m₁.decCount (m.table t i).frame
      else m₁) = m₂
    -- the old page loses the reference, whether it has a count or not
    have h₂ : Consistent bounds (m₂.setEntry t i .zero) (new :: held) := by
      by_cases hlow : (m.table t i).frame ≥ LOW_MEM
      · rw [if_pos hlow] at hm₂
        subst hm₂
        exact (h₁.unmap hd₁ he₁ hlow).2
      · rw [if_neg hlow] at hm₂
        subst hm₂
        refine h₁.updateLow hd₁ ?_ fun hno => by cases hno
        intro e₀ he₀
        cases he₁.symm.trans he₀
        exact Nat.not_le.1 hlow
    have hdir₂ : dirRef m₂ = dirRef m := by
      rw [← hm₂, ← hp.dirRef]
      split <;> rfl
    have hbytes₂ : m₂.bytes = m₁.bytes := by
      rw [← hm₂]
      split <;> rfl
    have hentry₂ : entryAt (m₂.setEntry t i .zero) = Function.update (entryAt m) (d, i) none := by
      have hzero : entryAt (m₁.setEntry t i .zero) = Function.update (entryAt m) (d, i) none := by
        rw [entryAt_setEntry h₁ hd₁, hp.entryAt]
        rfl
      rw [← hzero, ← hm₂]
      split <;> rfl
    have hd₂ : dirRef (m₂.setEntry t i .zero) d = some t := by
      rw [dirRef_setEntry, hdir₂, hd]
    have h₃ : Consistent bounds (m₂.setEntry t i (.user new)) held := by
      rw [← setEntry_setEntry m₂ t i .zero]
      exact h₂.map hd₂ (by rw [hentry₂, Function.update_self])
    have hentry₃ : entryAt (m₂.setEntry t i (.user new)) =
        Function.update (entryAt m) (d, i) (some (.user new)) := by
      rw [← setEntry_setEntry m₂ t i .zero, entryAt_setEntry h₂ hd₂, hentry₂,
        Function.update_idem]
      rfl
    obtain ⟨h₄, hentry₄⟩ := h₃.copyPage (m.table t i).frame hp.low fun d' => by
      rw [dirRef_setEntry, hdir₂]
      exact hnewdir d'
    refine ⟨h₄, hdir₂, .user new, rfl, hentry₄.trans hentry₃, .inr ⟨hnewentry, ?_⟩⟩
    change Function.update m₂.bytes new (m₂.bytes (m.table t i).frame) =
      Function.update m.bytes new (m.bytes (m.table t i).frame)
    rw [hbytes₂, hp.bytes_ne (hnewentry _ _ he)]
    funext q
    by_cases hq : q = new
    · subst hq
      rw [Function.update_self, Function.update_self]
    · rw [Function.update_of_ne hq, Function.update_of_ne hq, hp.bytes_ne hq]

/-- A page that could not be put is given back. -/
theorem freeAndOom_spec (h : Consistent bounds m (p :: held)) :
    ∃ m', freeAndOom p m = .oom m' ∧ Consistent bounds m' held ∧ dirRef m' = dirRef m := by
  obtain ⟨hfree, h'⟩ := h.release
  refine ⟨m.decCount p, ?_, h', rfl⟩
  rw [freeAndOom, hfree]

/-- What mapping a page at an address without an entry leaves. -/
def Mapped (bounds : Bounds) (held : List ℕ) (m : Memory) (d i : Fin 1024) : Outcome → Prop
  | .done m' => Consistent bounds m' held ∧ (∀ y, y ≠ d → dirRef m' y = dirRef m y) ∧
      SameFrames m m' (d, i) ∧ entryAt m' (d, i) ≠ none ∧ KeepsUsed m m'
  | .oom m' => Consistent bounds m' held ∧ dirRef m' = dirRef m
  | .panic _ => False

/-- A page that was handed out, and filled, is put at an address without an
entry. -/
theorem put_spec (h : Consistent bounds m held) {m₁ : Memory} (hp : Handed m m₁ p)
    (content : ℕ → UInt8) (hd : dirIndex address = d.val) (hi : tableIndex address = i.val)
    (hd4 : 4 ≤ d.val) (hnone : entryAt m (d, i) = none) :
    Mapped bounds held m d i
      (match putPage p address { m₁ with bytes := Function.update m₁.bytes p content } with
        | some m' => .done m'
        | none => freeAndOom p { m₁ with bytes := Function.update m₁.bytes p content }) := by
  have h₁ : Consistent bounds { m₁ with bytes := Function.update m₁.bytes p content } (p :: held) :=
    (h.alloc hp).of_eq rfl rfl rfl rfl rfl rfl
  have hentry₁ : entryAt { m₁ with bytes := Function.update m₁.bytes p content } = entryAt m :=
    hp.entryAt
  cases hput : putPage p address { m₁ with bytes := Function.update m₁.bytes p content } with
  | none =>
      obtain ⟨m', hoom, h', hdir⟩ := freeAndOom_spec h₁
      dsimp only
      rw [hoom]
      exact ⟨h', hdir.trans hp.dirRef⟩
  | some m' =>
      obtain ⟨h', hdir, hentry, hkeeps⟩ := putPage_spec h₁ hd hi hd4 (by rw [hentry₁, hnone]) hput
      rw [hentry₁] at hentry
      refine ⟨h', fun y hy => (hdir y hy).trans (congrFun hp.dirRef y), fun y hy => ?_, ?_, ?_⟩
      · rw [hentry, Function.update_of_ne hy]
      · rw [hentry, Function.update_self]
        simp
      · intro q hq
        rw [hkeeps q (hp.used hq)]
        change Function.update m₁.bytes p content q = _
        rw [Function.update_of_ne (hp.ne_of_used hq), hp.keepsUsed q hq]

theorem getEmptyPage_spec (h : Consistent bounds m held) (hd : dirIndex address = d.val)
    (hi : tableIndex address = i.val) (hd4 : 4 ≤ d.val) (hnone : entryAt m (d, i) = none) :
    Mapped bounds held m d i (getEmptyPage address m) := by
  unfold getEmptyPage
  cases hget : getFreePage m with
  | none => exact ⟨h, rfl⟩
  | some handed =>
      obtain ⟨tmp, m₁⟩ := handed
      have hput := put_spec h (h.handed hget) (m₁.bytes tmp) hd hi hd4 hnone
      rw [Function.update_eq_self] at hput
      exact hput

end Map

/-! ## Sharing -/

section Share

variable {bounds : Bounds} {m : Memory} {held : List ℕ} {d d' i : Fin 1024} {s t : ℕ}

/-- What `try_to_share` leaves. -/
def Shares (bounds : Bounds) (held : List ℕ) (m : Memory) (d i : Fin 1024) : Sharing → Prop
  | .shared m' => Consistent bounds m' held ∧ (∀ y, y ≠ d → dirRef m' y = dirRef m y) ∧
      SameFrames m m' (d, i) ∧ entryAt m' (d, i) ≠ none ∧ KeepsUsed m m'
  | .notShared => True
  | .oom => True
  | .panic _ => False

theorem shareEntry_spec (h : Consistent bounds m held) (hd : dirRef m d = some s)
    (hd' : dirRef m d' = some t) (hne : d ≠ d') (hmod : d'.val % 16 = d.val % 16)
    (hnone : entryAt m (d', i) = none) {e : Entry} (he : entryAt m (d, i) = some e)
    (hlow : LOW_MEM ≤ e.frame) : Shares bounds held m d' i (shareEntry s t i m) := by
  obtain ⟨s', hs', hpresent, rfl⟩ := entryAt_eq_some.1 he
  cases hd.symm.trans hs'
  dsimp only at hpresent he hlow
  have hst : s ≠ t := by
    rintro rfl
    exact hne (h.dir_unique hd' hd)
  have habsent : (m.table t i).present = false := by
    by_contra hno
    rw [entryAt_of_dirRef hd', Entry.get?, if_pos (by simpa using hno)] at hnone
    cases hnone
  have h₁ : Consistent bounds (m.setEntry s i (m.table s i).protect) held :=
    h.reflag hd he hpresent rfl fun hw => by cases hw
  have hentry₁ : entryAt (m.setEntry s i (m.table s i).protect) =
      Function.update (entryAt m) (d, i) (some (m.table s i).protect) := by
    rw [entryAt_setEntry h hd, Entry.get?, if_pos (show (m.table s i).protect.present from hpresent)]
  have hplace : (d', i) ≠ (d, i) := fun heq => hne (Prod.mk.inj heq).1.symm
  have hsource : (m.setEntry s i (m.table s i).protect).table s i = (m.table s i).protect := by
    rw [setEntry_table_self, Function.update_self]
  have hsource' : ((m.setEntry s i (m.table s i).protect).setEntry t i
      (m.table s i).protect).table s i = (m.table s i).protect := by
    rw [setEntry_table_ne _ hst, hsource]
  unfold shareEntry
  simp only [habsent, Bool.false_eq_true, if_false, hsource, hsource']
  have hshare := h₁.share hd' (by rw [hentry₁, Function.update_of_ne hplace, hnone])
    (by rw [hentry₁, Function.update_self]) rfl hmod
    (show LOW_MEM ≤ (m.table s i).protect.frame from hlow)
  have hentry₂ : entryAt ((m.setEntry s i (m.table s i).protect).setEntry t i
      (m.table s i).protect) = Function.update (entryAt (m.setEntry s i (m.table s i).protect))
        (d', i) (some (m.table s i).protect) := by
    rw [entryAt_setEntry h₁ hd', Entry.get?,
      if_pos (show (m.table s i).protect.present from hpresent)]
  refine ⟨hshare, fun y _ => rfl, fun y hy => ?_, ?_, fun q _ => rfl⟩
  · change (entryAt ((m.setEntry s i (m.table s i).protect).setEntry t i
      (m.table s i).protect) y).map Entry.frame = _
    rw [hentry₂, Function.update_of_ne hy, hentry₁]
    by_cases hyd : y = (d, i)
    · subst hyd
      rw [Function.update_self, he]
      rfl
    · rw [Function.update_of_ne hyd]
  · change entryAt ((m.setEntry s i (m.table s i).protect).setEntry t i
      (m.table s i).protect) (d', i) ≠ none
    rw [hentry₂, Function.update_self]
    simp

theorem tryToShare_spec {address source target : ℕ} (h : Consistent bounds m held)
    (hd : dirIndex address + dirIndex source = d.val)
    (hd' : dirIndex address + dirIndex target = d'.val) (hi : tableIndex address = i.val)
    (hd4 : 4 ≤ d.val) (hd4' : 4 ≤ d'.val) (hne : d ≠ d') (hmod : d'.val % 16 = d.val % 16)
    (hnone : entryAt m (d', i) = none) :
    Shares bounds held m d' i (tryToShare address source target m) := by
  unfold tryToShare
  simp only [hd, hd', hi]
  by_cases hpresent : (m.pgDir d).present
  swap
  · rw [if_pos hpresent]
    trivial
  rw [if_neg (not_not.2 hpresent)]
  have hs : dirRef m d = some (m.pgDir d).frame := dirRef_eq_some.2 ⟨hd4, hpresent, rfl⟩
  by_cases hclean : (m.table (m.pgDir d).frame i).present ∧ ¬(m.table (m.pgDir d).frame i).dirty
  swap
  · rw [if_pos hclean]
    trivial
  rw [if_neg (not_not.2 hclean)]
  by_cases hrange : (m.table (m.pgDir d).frame i).frame ≥ m.highMemory ∨
      (m.table (m.pgDir d).frame i).frame < LOW_MEM
  · rw [if_pos hrange]
    trivial
  rw [if_neg hrange]
  have hlow : LOW_MEM ≤ (m.table (m.pgDir d).frame i).frame := by omega
  have he : entryAt m (d, i) = some (m.table (m.pgDir d).frame i) := by
    rw [entryAt_of_dirRef hs, Entry.get?, if_pos hclean.1]
  by_cases htarget : (m.pgDir d').present
  · rw [if_pos htarget]
    exact shareEntry_spec h hs (dirRef_eq_some.2 ⟨hd4', htarget, rfl⟩) hne hmod hnone he hlow
  · rw [if_neg htarget]
    cases hget : getFreePage m with
    | none => trivial
    | some handed =>
        obtain ⟨t, m₁⟩ := handed
        have hp := h.handed hget
        have hdnone : dirRef m d' = none := by
          rw [dirRef, if_neg fun hno => htarget hno.2]
        obtain ⟨h₂, hdir₂, hentry₂⟩ := h.linkHanded hp hd4' hdnone
        have hs₂ : dirRef (m₁.setDir d' (.user t)) d = some (m.pgDir d).frame := by
          rw [hdir₂, Function.update_of_ne hne, hs]
        have hshares := shareEntry_spec h₂ hs₂ (by rw [hdir₂, Function.update_self]) hne hmod
          (by rw [hentry₂, hnone]) (by rw [hentry₂, he]) hlow
        dsimp only
        rw [hp.pgDir]
        revert hshares
        cases shareEntry (m.pgDir d).frame t i (m₁.setDir d' (.user t)) with
        | shared m' =>
            rintro ⟨h', hdir', hframes, hsome, hkeeps⟩
            refine ⟨h', fun y hy => ?_, fun y hy => ?_, hsome, fun q hq => ?_⟩
            · rw [hdir' y hy, hdir₂, Function.update_of_ne hy]
            · rw [hframes y hy, hentry₂]
            · rw [hkeeps q (hp.used hq)]
              exact hp.keepsUsed q hq
        | notShared => exact id
        | oom => exact id
        | panic message => exact id

end Share

end MyJavaExample.Mm
