import MyJavaExample.Lib.Outcome
import MyJavaExample.Mm.Isolation

/-!
# The bytes of a copied address space

The pages from `LOW_MEM` on belong to the tasks.  `free_page_tables` changes no
byte of them outside the segment that is freed.  `copy_page_tables` copies
entries and no pages: each page of the copy reads as the page it was copied
from, and all others as before.  A child of the first task gets pages of the
kernel and none of its own.
-/

namespace MyJavaExample.Mm

open Lib

section Frames

variable {bounds : Bounds} {m m' : Memory} {held : List ℕ} {p : ℕ} {y y' : Fin 1024 × Fin 1024}

/-- The byte at an offset of the page of an entry, if it is a page from
`LOW_MEM` on.  The pages below belong to the kernel, which writes to them by
itself. -/
def ownByteAt (m : Memory) (y : Fin 1024 × Fin 1024) (o : ℕ) : Option UInt8 :=
  (entryAt m y).bind fun e => if LOW_MEM ≤ e.frame then some (m.bytes e.frame o) else none

theorem ownByteAt_of_none (h : entryAt m y = none) : ownByteAt m y = fun _ => none := by
  funext o
  rw [ownByteAt, h, Option.bind_none]

theorem ownByteAt_of_low {e : Entry} (h : entryAt m y = some e) (hlow : e.frame < LOW_MEM) :
    ownByteAt m y = fun _ => none := by
  funext o
  rw [ownByteAt, h, Option.bind_some, if_neg (Nat.not_le.2 hlow)]

theorem ownByteAt_eq_some {o : ℕ} {v : UInt8} :
    ownByteAt m y o = some v ↔
      ∃ e, entryAt m y = some e ∧ LOW_MEM ≤ e.frame ∧ m.bytes e.frame o = v := by
  rw [ownByteAt, Option.bind_eq_some_iff]
  refine exists_congr fun _ => and_congr_right fun _ => ?_
  split
  next hlow => simp [hlow]
  next hlow => simp [hlow]

/-- What an entry reads depends on its page and not on its bits. -/
theorem ownByteAt_of_frame
    (hframe : (entryAt m' y').map Entry.frame = (entryAt m y).map Entry.frame)
    (hbytes : ∀ e, entryAt m y = some e → m'.bytes e.frame = m.bytes e.frame) :
    ownByteAt m' y' = ownByteAt m y := by
  cases he : entryAt m y with
  | none =>
      rw [he, Option.map_none, Option.map_eq_none_iff] at hframe
      rw [ownByteAt_of_none hframe, ownByteAt_of_none he]
  | some e =>
      rw [he, Option.map_some] at hframe
      obtain ⟨e', he', hframe'⟩ := Option.map_eq_some_iff.1 hframe
      funext o
      rw [ownByteAt, ownByteAt, he, he', Option.bind_some, Option.bind_some, hframe', hbytes e he]

theorem ownByteAt_of_entry (hentry : entryAt m' y = entryAt m y) (hbytes : m'.bytes = m.bytes) :
    ownByteAt m' y = ownByteAt m y :=
  ownByteAt_of_frame (by rw [hentry]) fun e _ => by rw [hbytes]

/-- Mapping a page changes no byte of another page. -/
theorem Consistent.ownByteAt_mapped (hc : Consistent bounds m held)
    (hframes : SameFrames m m' y) (hkeeps : KeepsUsed m m') (hy : y' ≠ y) :
    ownByteAt m' y' = ownByteAt m y' :=
  ownByteAt_of_frame (hframes y' hy) fun _ he => hkeeps _ (hc.entry_used he)

/-- The page that is handed out was not read through any entry. -/
theorem Consistent.ownByteAt_handed (h : Consistent bounds m held) (hp : Handed m m' p) :
    ownByteAt m' = ownByteAt m := by
  funext y
  exact ownByteAt_of_frame (by rw [hp.entryAt]) fun e he => hp.keepsUsed _ (h.entry_used he)

end Frames

/-! ## `free_page_tables` -/

section Free

variable {bounds : Bounds} {m m' : Memory} {held : List ℕ} {nr : ℕ} {current : Task}

theorem freePage_eq {p : ℕ} (h : freePage p m = .ok m') : m' = m ∨ m' = m.decCount p := by
  unfold freePage at h
  split at h
  next =>
    cases h
    exact .inl rfl
  next =>
    split at h
    next => cases h
    next =>
      split at h
      next =>
        cases h
        exact .inr rfl
      next => cases h

theorem freePage_bytes {p : ℕ} (h : freePage p m = .ok m') : m'.bytes = m.bytes := by
  rcases freePage_eq h with rfl | rfl <;> rfl

/-- A page that is given back is not cleared. -/
theorem freePage_own {p : ℕ} (h : freePage p m = .ok m') : ownByteAt m' = ownByteAt m := by
  rcases freePage_eq h with rfl | rfl <;> rfl

theorem freeEntry_bytes {t i : ℕ} (h : freeEntry t i m = .ok m') : m'.bytes = m.bytes := by
  rw [freeEntry] at h
  split at h
  next =>
    obtain ⟨m₁, hfree, hset⟩ := bind_eq_ok h
    cases hset
    exact (freePage_bytes hfree : m₁.bytes = m.bytes)
  next => cases h; rfl

theorem freeEntries_bytes {t n : ℕ} : ∀ {m : Memory} {i : ℕ}, freeEntries t n i m = .ok m' →
    m'.bytes = m.bytes := by
  induction n with
  | zero =>
      intro m i h
      cases h
      rfl
  | succ n ih =>
      intro m i h
      obtain ⟨m₁, hfree, hrest⟩ := bind_eq_ok h
      exact (ih hrest).trans (freeEntry_bytes hfree)

theorem freeDir_bytes {d : ℕ} (h : freeDir d m = .ok m') : m'.bytes = m.bytes := by
  rw [freeDir] at h
  split at h
  next =>
    obtain ⟨m₁, hfree, hrest⟩ := bind_eq_ok h
    obtain ⟨m₂, hpage, hset⟩ := bind_eq_ok hrest
    cases hset
    exact (freePage_bytes hpage).trans (freeEntries_bytes hfree)
  next => cases h; rfl

theorem freeDirs_bytes {n : ℕ} : ∀ {m : Memory} {d : ℕ}, freeDirs n d m = .ok m' →
    m'.bytes = m.bytes := by
  induction n with
  | zero =>
      intro m d h
      cases h
      rfl
  | succ n ih =>
      intro m d h
      obtain ⟨m₁, hfree, hrest⟩ := bind_eq_ok h
      exact (ih hrest).trans (freeDir_bytes hfree)

/-- The pages outside the segment read as before. -/
theorem freePageTables_own (hc : Consistent bounds m held) (hpos : 1 ≤ nr) (hnr : nr < 64)
    {size : ℕ} (hsize : size ≤ 2 ^ 26) (hfree : freePageTables (nr * TASK_SIZE) size m = .ok m') :
    Consistent bounds m' held ∧ ∀ y, y.1.val / 16 ≠ nr → ownByteAt m' y = ownByteAt m y := by
  have hle := dirCount_le hsize
  rw [freePageTables_eq hpos] at hfree
  obtain ⟨m₁, hfree₁, hc₁, -, hentry⟩ := @freeDirs_spec bounds held (dirCount size) m (16 * nr) hc
    (by omega) (by omega)
  cases hfree.symm.trans hfree₁
  refine ⟨hc₁, fun y hy => ownByteAt_of_entry ?_ (freeDirs_bytes hfree)⟩
  rw [hentry, if_neg (by omega)]

theorem freeSegments_own (hc : Consistent bounds m held) (hpos : 1 ≤ nr)
    (hok : TaskOk nr current) (hfree : freeSegments current m = .ok m') {y : Fin 1024 × Fin 1024}
    (hy : y.1.val / 16 ≠ nr) : ownByteAt m' y = ownByteAt m y := by
  rw [freeSegments, hok.startCode] at hfree
  obtain ⟨m₁, hcode, hdata⟩ := bind_eq_ok hfree
  obtain ⟨hc₁, hsame₁⟩ := freePageTables_own hc hpos hok.lt (hok.codeLimit.trans hok.dataLimit)
    hcode
  obtain ⟨-, hsame⟩ := freePageTables_own hc₁ hpos hok.lt hok.dataLimit hdata
  rw [hsame y hy, hsame₁ y hy]

end Free

/-! ## `copy_page_tables` -/

section Copy

variable {bounds : Bounds} {m : Memory} {held : List ℕ} {d d' i : Fin 1024} {s t : ℕ}

theorem copyEntry_bytes (s t i : ℕ) (m : Memory) : (copyEntry s t i m).bytes = m.bytes := by
  unfold copyEntry
  dsimp only
  split
  next => split <;> rfl
  next => rfl

/-- The copy refers to the page of the original. -/
theorem copyEntry_frame (h : Consistent bounds m held) (hd : dirRef m d = some s)
    (hd' : dirRef m d' = some t) (hne : d ≠ d') (hnone : entryAt m (d', i) = none) :
    (entryAt (copyEntry s t i m) (d', i)).map Entry.frame = (entryAt m (d, i)).map Entry.frame := by
  have hst : s ≠ t := by
    rintro rfl
    exact hne (h.dir_unique hd' hd)
  unfold copyEntry
  by_cases hpresent : (m.table s i).present
  · have he : entryAt m (d, i) = some (m.table s i) := by
      rw [entryAt_of_dirRef hd, Entry.get?, if_pos hpresent]
    have htarget : entryAt (m.setEntry t i (m.table s i).protect) (d', i) =
        some (m.table s i).protect := by
      rw [entryAt_setEntry h hd', Function.update_self, Entry.get?,
        if_pos (show (m.table s i).protect.present from hpresent)]
    simp only [if_pos hpresent]
    rw [he]
    split
    next =>
      have hback : entryAt ((m.setEntry t i (m.table s i).protect).setEntry s i
          (m.table s i).protect) (d', i) = some (m.table s i).protect := by
        rw [entryAt_of_dirRef (t := t) (by rw [dirRef_setEntry, dirRef_setEntry, hd']),
          setEntry_table_ne _ hst.symm, ← entryAt_of_dirRef (d := d')
            (by rw [dirRef_setEntry, hd']), htarget]
      exact (congrArg (Option.map Entry.frame) hback).trans rfl
    next => exact (congrArg (Option.map Entry.frame) htarget).trans rfl
  · simp only [if_neg hpresent]
    rw [hnone, entryAt_of_dirRef hd, Entry.get?, if_neg hpresent]

/-- A run of entries is copied from one table to another. -/
theorem copyEntries_own {n : ℕ} : ∀ {m : Memory} {i : ℕ}, Consistent bounds m held →
    dirRef m d = some s → dirRef m d' = some t → d ≠ d' → d'.val % 16 = d.val % 16 →
    i + n ≤ 1024 → (∀ j : Fin 1024, i ≤ j.val → entryAt m (d', j) = none) →
    ∀ y, ownByteAt (copyEntries s t n i m) y =
      if y.1 = d' ∧ i ≤ y.2.val ∧ y.2.val < i + n then ownByteAt m (d, y.2) else ownByteAt m y := by
  induction n with
  | zero =>
      intro m i h _ _ _ _ _ _ y
      rw [if_neg (by omega)]
      rfl
  | succ n ih =>
      intro m i h hd hd' hne hmod hn hnone y
      have hi := hnone ⟨i, by omega⟩ le_rfl
      obtain ⟨h₁, hdir₁, hframes⟩ := copyEntry_spec (i := ⟨i, by omega⟩) h hd hd' hne hmod hi
      have hbytes := copyEntry_bytes s t i m
      have hsame : ∀ y, y ≠ (d', ⟨i, by omega⟩) → ownByteAt (copyEntry s t i m) y = ownByteAt m y :=
        fun y hy => ownByteAt_of_frame (hframes y hy) fun e _ => by rw [hbytes]
      have hcopied : ownByteAt (copyEntry s t i m) (d', ⟨i, by omega⟩) =
          ownByteAt m (d, ⟨i, by omega⟩) :=
        ownByteAt_of_frame (copyEntry_frame h hd hd' hne hi) fun e _ => by rw [hbytes]
      have hrest := @ih (copyEntry s t i m) (i + 1) h₁ (by rw [hdir₁, hd])
        (by rw [hdir₁, hd']) hne hmod (by omega) (fun j hj => by
          refine hframes.none (fun heq => ?_) (hnone j (by omega))
          have := congrArg Fin.val (Prod.mk.inj heq).2
          dsimp only at this
          omega) y
      have hsource : ∀ j : Fin 1024, ownByteAt (copyEntry s t i m) (d, j) = ownByteAt m (d, j) :=
        fun j => hsame _ fun heq => hne (Prod.mk.inj heq).1
      rw [copyEntries, hrest, hsource]
      by_cases hy : y = (d', ⟨i, by omega⟩)
      · subst hy
        rw [if_neg (by dsimp only; omega), if_pos ⟨rfl, le_rfl, by dsimp only; omega⟩, hcopied]
      · rw [hsame y hy]
        have hval : y.1 = d' → y.2.val ≠ i := fun hyd hyi => hy (Prod.ext hyd (Fin.ext hyi))
        refine if_congr ?_ rfl rfl
        constructor
        · rintro ⟨hyd, hlo, hhi⟩
          exact ⟨hyd, by omega, by omega⟩
        · rintro ⟨hyd, hlo, hhi⟩
          have := hval hyd
          exact ⟨hyd, by omega, by omega⟩

/-- The tables of a segment are copied to one without tables. -/
theorem copyDirs_own {n : ℕ} : ∀ {m m' : Memory} {d d' : ℕ} {ok : Bool},
    Consistent bounds m held → 4 ≤ d → 4 ≤ d' → d + n ≤ 1024 → d' + n ≤ 1024 →
    d' % 16 = d % 16 → (d + n ≤ d' ∨ d' + n ≤ d) →
    (∀ y : Fin 1024, d' ≤ y.val → y.val < d' + n → dirRef m y = none) →
    copyDirs 1024 n d d' m = .ok (ok, m') →
    (∀ y, ¬(d' ≤ y.1.val ∧ y.1.val < d' + n) → ownByteAt m' y = ownByteAt m y) ∧
      (ok = true → ∀ y z : Fin 1024, d' ≤ y.val → y.val < d' + n → z.val + d' = y.val + d →
        ∀ i, ownByteAt m' (y, i) = ownByteAt m (z, i)) := by
  induction n with
  | zero =>
      intro m m' d d' ok h _ _ _ _ _ _ _ hcopy
      cases hcopy
      exact ⟨fun y _ => rfl, fun _ y z _ _ => by omega⟩
  | succ n ih =>
      intro m m' d d' ok h hd hd' hn hn' hmod hdisj hnone hcopy
      have hfree := hnone ⟨d', by omega⟩ le_rfl (by dsimp only; omega)
      have habsent := not_present_of_dirRef_none (d := ⟨d', by omega⟩) hd' hfree
      rw [copyDirs] at hcopy
      simp only [show (m.pgDir d').present = false from habsent, Bool.false_eq_true, if_false] at hcopy
      by_cases hpresent : (m.pgDir d).present
      · rw [if_neg (not_not.2 hpresent)] at hcopy
        cases hget : getFreePage m with
        | none =>
            rw [hget] at hcopy
            cases hcopy
            exact ⟨fun y _ => rfl, fun hok => by cases hok⟩
        | some handed =>
            obtain ⟨t, m₁⟩ := handed
            rw [hget] at hcopy
            have hp := h.handed hget
            obtain ⟨h₂, hdir₂, hentry₂⟩ := h.linkHanded (d := ⟨d', by omega⟩) hp hd' hfree
            dsimp only at h₂ hdir₂ hentry₂ hcopy
            have hsource : dirRef m ⟨d, by omega⟩ = some (m.pgDir d).frame :=
              dirRef_eq_some.2 ⟨hd, hpresent, rfl⟩
            have hne : (⟨d, by omega⟩ : Fin 1024) ≠ ⟨d', by omega⟩ := by
              intro heq
              have := congrArg Fin.val heq
              dsimp only at this
              omega
            have hframe : ((m₁.setDir d' (.user t)).pgDir d).frame = (m.pgDir d).frame := by
              have hdd : d ≠ d' := by omega
              simp only [Memory.setDir, Function.update_of_ne hdd, hp.pgDir]
            rw [hframe] at hcopy
            have hsource₂ : dirRef (m₁.setDir d' (.user t)) ⟨d, by omega⟩ =
                some (m.pgDir d).frame := by
              rw [hdir₂, Function.update_of_ne hne, hsource]
            have htarget₂ : dirRef (m₁.setDir d' (.user t)) ⟨d', by omega⟩ = some t := by
              rw [hdir₂, Function.update_self]
            have hempty : ∀ j : Fin 1024, 0 ≤ j.val →
                entryAt (m₁.setDir d' (.user t)) (⟨d', by omega⟩, j) = none := fun j _ => by
              rw [hentry₂]
              exact entryAt_of_dirRef_none hfree
            obtain ⟨h₃, hdir₃⟩ := @copyEntries_spec bounds held ⟨d, by omega⟩ ⟨d', by omega⟩
              (m.pgDir d).frame t 1024 _ 0 h₂ hsource₂ htarget₂ hne hmod (by omega) hempty
            have hbyte₂ : ownByteAt (m₁.setDir d' (.user t)) = ownByteAt m := by
              rw [← h.ownByteAt_handed hp]
              funext y
              exact ownByteAt_of_entry (by rw [hentry₂, hp.entryAt]) rfl
            have hbyte₃ : ∀ y, ownByteAt (copyEntries (m.pgDir d).frame t 1024 0
                (m₁.setDir d' (.user t))) y =
                  if y.1 = ⟨d', by omega⟩ then ownByteAt m (⟨d, by omega⟩, y.2)
                  else ownByteAt m y := by
              intro y
              have hlt := y.2.isLt
              rw [copyEntries_own h₂ hsource₂ htarget₂ hne hmod (by omega) hempty, hbyte₂]
              exact if_congr ⟨fun hy => hy.1, fun hy => ⟨hy, by omega, by omega⟩⟩ rfl rfl
            obtain ⟨hother, hcopied⟩ := @ih _ m' (d + 1) (d' + 1) ok h₃ (by omega) (by omega)
              (by omega) (by omega) (by omega) (by omega) (fun y hy₁ hy₂ => by
                rw [hdir₃, hdir₂, Function.update_of_ne]
                · exact hnone y (by omega) (by omega)
                · exact fun heq => by rw [heq] at hy₁; dsimp only at hy₁; omega) hcopy
            have hout : ∀ y : Fin 1024 × Fin 1024, y.1.val ≠ d' →
                ownByteAt (copyEntries (m.pgDir d).frame t 1024 0 (m₁.setDir d' (.user t))) y =
                  ownByteAt m y := by
              intro y hy
              rw [hbyte₃, if_neg fun heq => hy (congrArg Fin.val heq)]
            refine ⟨fun y hy => ?_, fun hok y z hy₁ hy₂ hyz i => ?_⟩
            · rw [hother y (by omega), hout y (by omega)]
            · by_cases hyd : y.val = d'
              · have hz : z = ⟨d, by omega⟩ := Fin.ext (by dsimp only; omega)
                rw [hother _ (by dsimp only; omega), hbyte₃, if_pos (Fin.ext hyd), hz]
              · rw [hcopied hok y z (by omega) (by omega) (by omega) i,
                  hout _ (by dsimp only; omega)]
      · rw [if_pos hpresent] at hcopy
        obtain ⟨hother, hcopied⟩ := @ih m m' (d + 1) (d' + 1) ok h (by omega) (by omega)
          (by omega) (by omega) (by omega) (by omega)
          (fun y hy₁ hy₂ => hnone y (by omega) (by omega)) hcopy
        refine ⟨fun y hy => hother y (by omega), fun hok y z hy₁ hy₂ hyz i => ?_⟩
        by_cases hyd : y.val = d'
        · -- there is no table on either side
          have hznone : dirRef m z = none := by
            have hz : z.val = d := by omega
            rw [dirRef, hz, if_neg fun hno => hpresent hno.2]
          have hynone := hnone y (by omega) (by omega)
          rw [hother _ (by dsimp only; omega)]
          rw [ownByteAt_of_none (entryAt_of_dirRef_none hznone),
            ownByteAt_of_none (entryAt_of_dirRef_none hynone)]
        · exact hcopied hok y z (by omega) (by omega) (by omega) i

/-- A copied entry of the kernel's own table refers to no page of the tasks. -/
theorem copyEntry_kernel_own (h : Consistent bounds m held) (hd' : dirRef m d' = some t)
    (hi : i.val < 0xA0) (hnone : entryAt m (d', i) = none) :
    ownByteAt (copyEntry (m.pgDir 0).frame t i m) = ownByteAt m := by
  obtain ⟨-, -, -, hframes⟩ := copyEntry_kernel h hd' hi hnone
  have hlow := h.kernel.2 i hi
  funext y
  by_cases hy : y = (d', i)
  · subst hy
    rw [ownByteAt_of_none hnone]
    unfold copyEntry
    by_cases hpresent : (m.table (m.pgDir 0).frame i).present
    · simp only [if_pos hpresent]
      refine ownByteAt_of_low (e := (m.table (m.pgDir 0).frame i).protect) ?_ hlow
      rw [if_neg (show ¬(m.table (m.pgDir 0).frame i).protect.frame ≥ LOW_MEM from
        Nat.not_le.2 hlow), entryAt_setEntry h hd', Function.update_self, Entry.get?,
        if_pos (show (m.table (m.pgDir 0).frame i).protect.present from hpresent)]
    · simp only [if_neg hpresent]
      exact ownByteAt_of_none hnone
  · exact ownByteAt_of_frame (hframes y hy) fun e _ => by rw [copyEntry_bytes]

theorem copyEntries_kernel_own {n : ℕ} : ∀ {m : Memory} {i : ℕ}, Consistent bounds m held →
    (m.pgDir 0).frame = s → dirRef m d' = some t → i + n ≤ 0xA0 →
    (∀ j : Fin 1024, i ≤ j.val → entryAt m (d', j) = none) →
    ownByteAt (copyEntries s t n i m) = ownByteAt m := by
  induction n with
  | zero =>
      intro m i _ _ _ _ _
      rfl
  | succ n ih =>
      intro m i h hs hd' hn hnone
      subst hs
      have hi : (⟨i, by omega⟩ : Fin 1024).val < 0xA0 := by
        dsimp only
        omega
      obtain ⟨h₁, hdir₁, hpg, hframes⟩ := copyEntry_kernel h hd' hi (hnone _ le_rfl)
      rw [copyEntries, @ih (copyEntry (m.pgDir 0).frame t i m) (i + 1) h₁
        (congrArg Entry.frame hpg) (by rw [hdir₁, hd']) (by omega) fun j hj => by
          refine hframes.none (fun heq => ?_) (hnone j (by omega))
          have := congrArg Fin.val (Prod.mk.inj heq).2
          dsimp only at this
          omega]
      exact copyEntry_kernel_own h hd' hi (hnone _ le_rfl)

theorem copyDirs_kernel_own (h : Consistent bounds m held) (hd : 4 ≤ d'.val)
    (hnone : dirRef m d' = none) {ok : Bool} {m' : Memory}
    (hcopy : copyDirs 0xA0 1 0 d' m = .ok (ok, m')) : ownByteAt m' = ownByteAt m := by
  have habsent := not_present_of_dirRef_none hd hnone
  rw [copyDirs] at hcopy
  simp only [habsent, Bool.false_eq_true, if_false] at hcopy
  by_cases hpresent : (m.pgDir 0).present
  · rw [if_neg (not_not.2 hpresent)] at hcopy
    cases hget : getFreePage m with
    | none =>
        rw [hget] at hcopy
        cases hcopy
        rfl
    | some handed =>
        obtain ⟨t, m₁⟩ := handed
        rw [hget] at hcopy
        have hp := h.handed hget
        obtain ⟨h₂, hdir₂, hentry₂⟩ := h.linkHanded hp hd hnone
        have hlinked : ownByteAt (m₁.setDir d' (.user t)) = ownByteAt m := by
          rw [← h.ownByteAt_handed hp]
          funext y
          exact ownByteAt_of_entry (by rw [hentry₂, hp.entryAt]) rfl
        cases hcopy
        rw [← hlinked]
        exact copyEntries_kernel_own h₂ rfl (by rw [hdir₂, Function.update_self]) (by omega)
          fun j _ => by
            rw [hentry₂]
            exact entryAt_of_dirRef_none hnone
  · rw [if_pos hpresent] at hcopy
    cases hcopy
    rfl

end Copy

end MyJavaExample.Mm
