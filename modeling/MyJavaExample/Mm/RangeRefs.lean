import MyJavaExample.Mm.ShmFailures

/-!
# What a range of the page directory refers to

`copy_page_tables` adds the references of a range to the counts, and
`free_page_tables` takes away those of a range.  Both are said here of any memory:
nothing is known of the references from elsewhere, and a count is what it was
before and the references of the range.
-/

namespace MyJavaExample.Mm

/-- The page an entry maps. -/
def Entry.page (e : Entry) : Option ℕ := if e.present then some e.frame else none

/-- What an entry adds to the count of a page. -/
def Entry.refs (e : Entry) (p : ℕ) : ℕ := if LOW_MEM ≤ p ∧ e.page = some p then 1 else 0

/-- `n` entries of a table from `i` on. -/
def entryRefs (table : ℕ → Entry) (p : ℕ) : ℕ → ℕ → ℕ
  | 0, _ => 0
  | n + 1, i => (table i).refs p + entryRefs table p n (i + 1)

namespace Memory

variable (m : Memory)

/-- `nr` entries of each of the tables of `n` entries of the directory from `d` on. -/
def mapRefs (nr p : ℕ) : ℕ → ℕ → ℕ
  | 0, _ => 0
  | n + 1, d =>
      (if (m.pgDir d).present then entryRefs (m.table (m.pgDir d).frame) p nr 0 else 0) +
        mapRefs nr p n (d + 1)

/-- The tables themselves. -/
def tableRefs (p : ℕ) : ℕ → ℕ → ℕ
  | 0, _ => 0
  | n + 1, d => (m.pgDir d).refs p + tableRefs p n (d + 1)

/-- The same memory with other counts. -/
def withCounts (count : ℕ → ℕ) : Memory := { m with memMap := count }

end Memory

section Refs

variable {m m' : Memory} {table table' : ℕ → Entry} {e : Entry} {a b n nr i d p t : ℕ}

theorem Entry.page_eq_some : e.page = some p ↔ e.present ∧ e.frame = p := by
  rw [Entry.page]
  split
  next h => simp [h]
  next h => simp [h]

theorem Entry.page_eq_none : e.page = none ↔ e.present = false := by
  rw [Entry.page]
  split
  next h => simp [h]
  next h => simpa using h

theorem entryRefs_congr (h : ∀ k, i ≤ k → k < i + n → (table' k).page = (table k).page) :
    entryRefs table' p n i = entryRefs table p n i := by
  induction n generalizing i with
  | zero => rfl
  | succ n ih =>
      have hrest := ih (i := i + 1) fun k hk hlt => h k (by omega) (by omega)
      rw [entryRefs, entryRefs, hrest, Entry.refs, Entry.refs, h i (Nat.le_refl i) (by omega)]

theorem entryRefs_append : entryRefs table p (a + b) i =
    entryRefs table p a i + entryRefs table p b (i + a) := by
  induction a generalizing i with
  | zero => simp [entryRefs]
  | succ a ih =>
      rw [Nat.add_right_comm, entryRefs, entryRefs, ih, Nat.add_assoc i 1 a, Nat.add_comm 1 a,
        Nat.add_assoc]

theorem exists_of_entryRefs_pos (h : 0 < entryRefs table p n i) :
    LOW_MEM ≤ p ∧ ∃ k, i ≤ k ∧ k < i + n ∧ (table k).page = some p := by
  induction n generalizing i with
  | zero => cases h
  | succ n ih =>
      rw [entryRefs, Entry.refs] at h
      by_cases hfirst : LOW_MEM ≤ p ∧ (table i).page = some p
      · exact ⟨hfirst.1, i, Nat.le_refl i, by omega, hfirst.2⟩
      · rw [if_neg hfirst, Nat.zero_add] at h
        obtain ⟨hlow, k, hk, hlt, hp⟩ := ih h
        exact ⟨hlow, k, by omega, by omega, hp⟩

theorem entryRefs_eq_zero (h : ∀ k, i ≤ k → k < i + n → (table k).page ≠ some p) :
    entryRefs table p n i = 0 := by
  by_contra hne
  obtain ⟨-, k, hk, hlt, hp⟩ := exists_of_entryRefs_pos (Nat.pos_of_ne_zero hne)
  exact h k hk hlt hp

/-- A page that one entry maps at most. -/
theorem entryRefs_le_one (h : ∀ k l, i ≤ k → k < l → l < i + n → (table k).page = some p →
    (table l).page ≠ some p) : entryRefs table p n i ≤ 1 := by
  induction n generalizing i with
  | zero => exact Nat.zero_le 1
  | succ n ih =>
      have hrest := ih (i := i + 1) fun k l hk hkl hlt => h k l (by omega) hkl (by omega)
      rw [entryRefs, Entry.refs]
      by_cases hfirst : LOW_MEM ≤ p ∧ (table i).page = some p
      · have hzero : entryRefs table p n (i + 1) = 0 := entryRefs_eq_zero fun l hl hlt =>
          h i l (Nat.le_refl i) hl (by omega) hfirst.2
        rw [if_pos hfirst, hzero]
      · rw [if_neg hfirst, Nat.zero_add]
        exact hrest

theorem entryRefs_pos {k : ℕ} (hk : i ≤ k) (hlt : k < i + n) (hlow : LOW_MEM ≤ p)
    (hp : (table k).page = some p) : 0 < entryRefs table p n i := by
  induction n generalizing i with
  | zero => omega
  | succ n ih =>
      rw [entryRefs]
      by_cases hki : k = i
      · subst hki
        rw [Entry.refs, if_pos ⟨hlow, hp⟩]
        omega
      · have := ih (i := i + 1) (by omega) (by omega)
        omega

theorem mapRefs_congr (h : ∀ k, d ≤ k → k < d + n → m'.pgDir k = m.pgDir k ∧
    ((m.pgDir k).present → ∀ i < nr, (m'.table (m.pgDir k).frame i).page =
      (m.table (m.pgDir k).frame i).page)) :
    m'.mapRefs nr p n d = m.mapRefs nr p n d := by
  induction n generalizing d with
  | zero => rfl
  | succ n ih =>
      obtain ⟨hdir, htable⟩ := h d (Nat.le_refl d) (by omega)
      rw [Memory.mapRefs, Memory.mapRefs, hdir, ih fun k hk hlt => h k (by omega) (by omega)]
      by_cases hpresent : (m.pgDir d).present
      · rw [if_pos hpresent, if_pos hpresent,
          entryRefs_congr fun k _ hlt => htable hpresent k (by omega)]
      · rw [if_neg hpresent, if_neg hpresent]

theorem exists_of_mapRefs_pos (h : 0 < m.mapRefs nr p n d) :
    LOW_MEM ≤ p ∧ ∃ k, d ≤ k ∧ k < d + n ∧ (m.pgDir k).present ∧ ∃ i < nr,
      (m.table (m.pgDir k).frame i).page = some p := by
  induction n generalizing d with
  | zero => cases h
  | succ n ih =>
      rw [Memory.mapRefs] at h
      by_cases hrest : 0 < m.mapRefs nr p n (d + 1)
      · obtain ⟨hlow, k, hk, hlt, hex⟩ := ih hrest
        exact ⟨hlow, k, by omega, by omega, hex⟩
      · split at h
        next hpresent =>
          obtain ⟨hlow, i, -, hlt, hp⟩ := exists_of_entryRefs_pos
            (by omega : 0 < entryRefs (m.table (m.pgDir d).frame) p nr 0)
          exact ⟨hlow, d, Nat.le_refl d, by omega, hpresent, i, by omega, hp⟩
        next => omega

theorem mapRefs_eq_zero (h : ∀ k, d ≤ k → k < d + n → (m.pgDir k).present → ∀ i < nr,
    (m.table (m.pgDir k).frame i).page ≠ some p) : m.mapRefs nr p n d = 0 := by
  by_contra hne
  obtain ⟨-, k, hk, hlt, hpresent, i, hi, hp⟩ := exists_of_mapRefs_pos (Nat.pos_of_ne_zero hne)
  exact h k hk hlt hpresent i hi hp

theorem mapRefs_le_one (h : ∀ k l i j, d ≤ k → k < d + n → d ≤ l → l < d + n → i < nr → j < nr →
    (m.pgDir k).present → (m.pgDir l).present → (m.table (m.pgDir k).frame i).page = some p →
    (m.table (m.pgDir l).frame j).page = some p → k = l ∧ i = j) : m.mapRefs nr p n d ≤ 1 := by
  induction n generalizing d with
  | zero => exact Nat.zero_le 1
  | succ n ih =>
      have hrest := ih (d := d + 1) fun k l i j hk hk' hl hl' =>
        h k l i j (by omega) (by omega) (by omega) (by omega)
      rw [Memory.mapRefs]
      split
      next hpresent =>
        have hfirst : entryRefs (m.table (m.pgDir d).frame) p nr 0 ≤ 1 :=
          entryRefs_le_one fun k l hk hkl hlt hp hp' => by
            have := (h d d k l (Nat.le_refl d) (by omega) (Nat.le_refl d) (by omega) (by omega)
              (by omega) hpresent hpresent hp hp').2
            omega
        by_cases hpos : 0 < entryRefs (m.table (m.pgDir d).frame) p nr 0
        · obtain ⟨-, i, -, hi, hp⟩ := exists_of_entryRefs_pos hpos
          have hzero : m.mapRefs nr p n (d + 1) = 0 :=
            mapRefs_eq_zero fun l hl hlt hpresent' j hj hp' => by
              have := (h d l i j (Nat.le_refl d) (by omega) (by omega) (by omega) (by omega) hj
                hpresent hpresent' hp hp').1
              omega
          omega
        · omega
      next => omega

theorem tableRefs_congr (h : ∀ k, d ≤ k → k < d + n → m'.pgDir k = m.pgDir k) :
    m'.tableRefs p n d = m.tableRefs p n d := by
  induction n generalizing d with
  | zero => rfl
  | succ n ih =>
      rw [Memory.tableRefs, Memory.tableRefs, h d (Nat.le_refl d) (by omega),
        ih fun k hk hlt => h k (by omega) (by omega)]

theorem tableRefs_eq_zero (h : ∀ k, d ≤ k → k < d + n → (m.pgDir k).page ≠ some p) :
    m.tableRefs p n d = 0 := by
  induction n generalizing d with
  | zero => rfl
  | succ n ih =>
      rw [Memory.tableRefs, ih fun k hk hlt => h k (by omega) (by omega), Entry.refs,
        if_neg fun hp => h d (Nat.le_refl d) (by omega) hp.2]

end Refs

/-! ## Freeing a range -/

section Free

variable {m m' : Memory} {base : ℕ → ℕ} {n i d p t : ℕ}

/-- A count goes down to what it is without the entry. -/
theorem freePage_undo {e : Entry} (hpage : e.page = some t)
    (hcount : ∀ p, m.memMap p = base p + e.refs p)
    (hhigh : LOW_MEM ≤ t → t < m.highMemory ∧ m.memMap t ≤ 255) :
    freePage t m = .ok (m.withCounts base) := by
  by_cases hlow : LOW_MEM ≤ t
  · obtain ⟨hlt, hle⟩ := hhigh hlow
    have ht : m.memMap t = base t + 1 := by
      rw [hcount t, Entry.refs, if_pos ⟨hlow, hpage⟩]
    rw [freePage_eq_decCount hlow hlt (by omega)]
    have hmap : (m.decCount t).memMap = base := by
      rw [decCount_memMap m (by omega) (by omega)]
      funext p
      by_cases hp : p = t
      · subst hp
        rw [Function.update_self]
        omega
      · have hne : e.page ≠ some p := fun h => hp (Option.some.inj (h.symm.trans hpage))
        rw [Function.update_of_ne hp, hcount p, Entry.refs, if_neg fun h => hne h.2, Nat.add_zero]
    rw [Memory.withCounts, ← hmap]
    rfl
  · have hmap : m.memMap = base := by
      funext p
      rw [hcount p, Entry.refs, if_neg, Nat.add_zero]
      rintro ⟨hp, heq⟩
      cases hpage.symm.trans heq
      exact hlow hp
    rw [freePage, if_pos (Nat.not_le.mp hlow), Memory.withCounts, ← hmap]

theorem freeEntry_undo (hcount : ∀ p, m.memMap p = base p + (m.table t i).refs p)
    (hhigh : ∀ p, (m.table t i).page = some p → LOW_MEM ≤ p →
      p < m.highMemory ∧ m.memMap p ≤ 255) :
    freeEntry t i m = .ok ((m.withCounts base).setEntry t i .zero) := by
  rw [freeEntry]
  by_cases hpresent : (m.table t i).present
  · have hpage : (m.table t i).page = some (m.table t i).frame := by
      rw [Entry.page, if_pos hpresent]
    rw [if_pos hpresent, freePage_undo hpage hcount (hhigh _ hpage)]
    rfl
  · have hpage : (m.table t i).page = none := by
      rw [Entry.page, if_neg hpresent]
    have hmap : m.memMap = base := by
      funext p
      rw [hcount p, Entry.refs, hpage]
      simp
    rw [if_neg hpresent, Memory.withCounts, ← hmap]
    rfl

/-- Only the counts and the table `t` differ. -/
structure OnlyTable (t : ℕ) (m m' : Memory) : Prop where
  highMemory : m'.highMemory = m.highMemory
  pgDir : m'.pgDir = m.pgDir
  bytes : m'.bytes = m.bytes
  table : ∀ u, u ≠ t → m'.table u = m.table u

theorem freeEntries_undo (hcount : ∀ p, m.memMap p = base p + entryRefs (m.table t) p n i)
    (hhigh : ∀ k, i ≤ k → k < i + n → ∀ p, (m.table t k).page = some p → LOW_MEM ≤ p →
      p < m.highMemory ∧ m.memMap p ≤ 255) :
    ∃ m', freeEntries t n i m = .ok m' ∧ m'.memMap = base ∧ OnlyTable t m m' := by
  induction n generalizing i m with
  | zero => exact ⟨m, rfl, funext hcount, rfl, rfl, rfl, fun _ _ => rfl⟩
  | succ n ih =>
      let base₁ : ℕ → ℕ := fun p => base p + entryRefs (m.table t) p n (i + 1)
      have hfirst : freeEntry t i m = .ok ((m.withCounts base₁).setEntry t i .zero) :=
        freeEntry_undo (fun p => by
          rw [hcount p, entryRefs]
          dsimp only [base₁]
          omega) (hhigh i (Nat.le_refl i) (by omega))
      have htable : ∀ k, i + 1 ≤ k →
          ((m.withCounts base₁).setEntry t i .zero).table t k = m.table t k := by
        intro k hk
        rw [setEntry_table_self, Function.update_of_ne (by omega)]
        rfl
      obtain ⟨m', hrest, hmap, honly⟩ := @ih ((m.withCounts base₁).setEntry t i .zero) (i + 1)
        (fun p => by
          rw [entryRefs_congr fun k hk _ => congrArg Entry.page (htable k hk)]
          rfl)
        (fun k hk hlt p hp hlow => by
          rw [htable k hk] at hp
          obtain ⟨hmem, hle⟩ := hhigh k (by omega) (by omega) p hp hlow
          refine ⟨hmem, Nat.le_trans ?_ hle⟩
          rw [hcount p, entryRefs]
          change base p + entryRefs (m.table t) p n (i + 1) ≤ _
          omega)
      refine ⟨m', ?_, hmap, honly.highMemory, honly.pgDir, honly.bytes, fun u hu => ?_⟩
      · rw [freeEntries, hfirst]
        exact hrest
      · rw [honly.table u hu, setEntry_table_ne _ hu]
        rfl

theorem freeDir_undo (ht : (m.pgDir d).page = some t)
    (hcount : ∀ p, m.memMap p = base p + entryRefs (m.table t) p 1024 0 + (m.pgDir d).refs p)
    (hentries : ∀ i < 1024, ∀ p, (m.table t i).page = some p → LOW_MEM ≤ p →
      p < m.highMemory ∧ m.memMap p ≤ 255)
    (htable : t < m.highMemory ∧ m.memMap t ≤ 255) :
    ∃ m', freeDir d m = .ok (m'.setDir d .zero) ∧ m'.memMap = base ∧ OnlyTable t m m' := by
  obtain ⟨hpresent, hframe⟩ := Entry.page_eq_some.mp ht
  obtain ⟨m₁, hfree, hmap, honly⟩ :=
    @freeEntries_undo m (fun p => base p + (m.pgDir d).refs p) 1024 0 t
      (fun p => by rw [hcount p]; omega) fun k _ hlt => hentries k (by omega)
  have hpage : freePage t m₁ = .ok (m₁.withCounts base) :=
    freePage_undo ht (fun p => by rw [hmap]) fun _ => by
      rw [honly.highMemory, hmap]
      refine ⟨htable.1, ?_⟩
      have hle := hcount t
      change base t + (m.pgDir d).refs t ≤ 255
      omega
  refine ⟨m₁.withCounts base, ?_, rfl, honly.highMemory, honly.pgDir, honly.bytes, honly.table⟩
  rw [freeDir, if_pos hpresent, hframe]
  simp only [hfree, hpage, bind, Except.bind, pure, Except.pure]

/-- The counts are those of `base` and the references of the range, and the entries
of the range are such that they can be freed. -/
structure Freeable (base : ℕ → ℕ) (m : Memory) (n d : ℕ) : Prop where
  counts : ∀ p, m.memMap p = base p + m.mapRefs 1024 p n d + m.tableRefs p n d
  entries : ∀ k, d ≤ k → k < d + n → (m.pgDir k).present → ∀ i < 1024, ∀ p,
    (m.table (m.pgDir k).frame i).page = some p → LOW_MEM ≤ p →
    p < m.highMemory ∧ m.memMap p ≤ 255
  tables : ∀ k, d ≤ k → k < d + n → ∀ t, (m.pgDir k).page = some t →
    t < m.highMemory ∧ m.memMap t ≤ 255
  distinct : ∀ k l, d ≤ k → k < l → l < d + n → ∀ t, (m.pgDir k).page = some t →
    (m.pgDir l).page ≠ some t

/-- What `free_page_tables` leaves of a range. -/
structure FreedRange (base : ℕ → ℕ) (m m' : Memory) (n d : ℕ) : Prop where
  counts : m'.memMap = base
  highMemory : m'.highMemory = m.highMemory
  bytes : m'.bytes = m.bytes
  absent : ∀ k, d ≤ k → k < d + n → (m'.pgDir k).present = false
  outside : ∀ k, k < d ∨ d + n ≤ k → m'.pgDir k = m.pgDir k
  table : ∀ u, (∀ k, d ≤ k → k < d + n → (m.pgDir k).page ≠ some u) → m'.table u = m.table u

theorem Freeable.tail (h : Freeable base m (n + 1) d) (hdir : ∀ k, d < k → m'.pgDir k = m.pgDir k)
    (hhigh : m'.highMemory = m.highMemory)
    (htable : ∀ k, d < k → k < d + (n + 1) → (m.pgDir k).present →
      m'.table (m.pgDir k).frame = m.table (m.pgDir k).frame)
    (hmap : ∀ p, m'.memMap p = base p + m.mapRefs 1024 p n (d + 1) + m.tableRefs p n (d + 1)) :
    Freeable base m' n (d + 1) := by
  have hle : ∀ p, m'.memMap p ≤ m.memMap p := by
    intro p
    rw [hmap p, h.counts p, Memory.mapRefs, Memory.tableRefs]
    omega
  refine ⟨fun p => ?_, fun k hk hlt hpresent i hi p hp hlow => ?_, fun k hk hlt t ht => ?_,
    fun k l hk hkl hlt t ht => ?_⟩
  · rw [hmap p, tableRefs_congr fun k hk _ => hdir k hk,
      mapRefs_congr fun k hk hlt => ⟨hdir k hk, fun hpresent i _ => by
        rw [htable k hk (by omega) hpresent]⟩]
  · rw [hdir k hk] at hpresent hp
    rw [htable k hk (by omega) hpresent] at hp
    obtain ⟨hmem, h255⟩ := h.entries k (by omega) (by omega) hpresent i hi p hp hlow
    exact ⟨hhigh ▸ hmem, (hle p).trans h255⟩
  · rw [hdir k hk] at ht
    obtain ⟨hmem, h255⟩ := h.tables k (by omega) (by omega) t ht
    exact ⟨hhigh ▸ hmem, (hle t).trans h255⟩
  · rw [hdir k hk] at ht
    rw [hdir l (by omega)]
    exact h.distinct k l (by omega) hkl (by omega) t ht

/-- Freeing takes away the references of the range and no others. -/
theorem freeDirs_undo (h : Freeable base m n d) :
    ∃ m', freeDirs n d m = .ok m' ∧ FreedRange base m m' n d := by
  induction n generalizing d m with
  | zero => exact ⟨m, rfl, funext h.counts, rfl, rfl, fun k hk hlt => by omega, fun _ _ => rfl,
      fun _ _ => rfl⟩
  | succ n ih =>
      by_cases hpresent : (m.pgDir d).present
      · have ht : (m.pgDir d).page = some (m.pgDir d).frame := Entry.page_eq_some.mpr ⟨hpresent, rfl⟩
        generalize (m.pgDir d).frame = t at ht
        have hframe := (Entry.page_eq_some.mp ht).2
        obtain ⟨m₁, hfree, hmap, honly⟩ := @freeDir_undo m
          (fun p => base p + m.mapRefs 1024 p n (d + 1) + m.tableRefs p n (d + 1)) d t ht
          (fun p => by
            rw [h.counts p, Memory.mapRefs, Memory.tableRefs, if_pos hpresent, hframe]
            omega)
          (fun i hi p hp => h.entries d (Nat.le_refl d) (by omega) hpresent i hi p (hframe ▸ hp))
          (h.tables d (Nat.le_refl d) (by omega) t ht)
        have hdir : ∀ k, k ≠ d → (m₁.setDir d .zero).pgDir k = m.pgDir k := fun k hk =>
          (Function.update_of_ne hk ..).trans (congrFun honly.pgDir k)
        have hother : ∀ k, d < k → k < d + (n + 1) → (m.pgDir k).page ≠ some t := fun k hk hlt =>
          h.distinct d k (Nat.le_refl d) hk hlt t ht
        obtain ⟨m', hrest, hfreed⟩ := ih (m := m₁.setDir d .zero) (h.tail
          (fun k hk => hdir k (by omega)) honly.highMemory
          (fun k hk hlt hp => honly.table _ fun heq =>
            hother k hk hlt (Entry.page_eq_some.mpr ⟨hp, heq⟩))
          fun p => congrFun hmap p)
        refine ⟨m', ?_, hfreed.counts, hfreed.highMemory.trans honly.highMemory,
          hfreed.bytes.trans honly.bytes, fun k hk hlt => ?_, fun k hk => ?_, fun u hu => ?_⟩
        · rw [freeDirs, hfree]
          exact hrest
        · by_cases hkd : k = d
          · subst hkd
            rw [hfreed.outside k (by omega)]
            have hzero : (m₁.setDir k .zero).pgDir k = .zero := Function.update_self ..
            rw [hzero]
            rfl
          · exact hfreed.absent k (by omega) (by omega)
        · rw [hfreed.outside k (by omega), hdir k (by omega)]
        · have hut : u ≠ t := fun heq => hu d (Nat.le_refl d) (by omega) (heq ▸ ht)
          refine (hfreed.table u fun k hk hlt => ?_).trans (honly.table u hut)
          rw [hdir k (by omega)]
          exact hu k (by omega) (by omega)
      · have hnone : (m.pgDir d).page = none := Entry.page_eq_none.mpr (by simpa using hpresent)
        obtain ⟨m', hrest, hfreed⟩ := ih (h.tail (fun _ _ => rfl) rfl (fun _ _ _ _ => rfl) fun p => by
          rw [h.counts p, Memory.mapRefs, Memory.tableRefs, if_neg hpresent, Entry.refs, hnone]
          simp)
        refine ⟨m', ?_, hfreed.counts, hfreed.highMemory, hfreed.bytes, fun k hk hlt => ?_,
          fun k hk => hfreed.outside k (by omega), fun u hu => hfreed.table u fun k hk hlt =>
            hu k (by omega) (by omega)⟩
        · rw [freeDirs, freeDir, if_neg hpresent]
          exact hrest
        · by_cases hkd : k = d
          · subst hkd
            rw [hfreed.outside k (by omega)]
            simpa using hpresent
          · exact hfreed.absent k (by omega) (by omega)

end Free

/-! ## Copying a range -/

section Copy

variable {m m' : Memory} {s t i k n p : ℕ}

@[simp]
theorem Entry.page_protect (e : Entry) : e.protect.page = e.page := rfl

/-- What copying entries of the table `s` to the table `t` changes besides `t`. -/
structure OnlyCounts (s t : ℕ) (m m' : Memory) : Prop where
  highMemory : m'.highMemory = m.highMemory
  pgDir : m'.pgDir = m.pgDir
  bytes : m'.bytes = m.bytes
  table : ∀ u, u ≠ s → u ≠ t → m'.table u = m.table u
  source : ∀ k, (m'.table s k).page = (m.table s k).page

theorem OnlyCounts.refl (m : Memory) : OnlyCounts s t m m :=
  ⟨rfl, rfl, rfl, fun _ _ _ => rfl, fun _ => rfl⟩

theorem incCount_memMap {e : Entry} {q : ℕ} (hlow : LOW_MEM ≤ q) (hq : e.page = some q)
    (hroom : m.memMap q + 1 ≤ 255) (p : ℕ) :
    (m.incCount q).memMap p = m.memMap p + e.refs p := by
  have hmod : (m.memMap q + 1) % 256 = m.memMap q + 1 := by omega
  change Function.update m.memMap q ((m.memMap q + 1) % 256) p = _
  rw [hmod]
  by_cases hp : p = q
  · subst hp
    rw [Function.update_self, Entry.refs, if_pos ⟨hlow, hq⟩]
  · rw [Function.update_of_ne hp, Entry.refs, if_neg, Nat.add_zero]
    rintro ⟨-, heq⟩
    exact hp (Option.some.inj (heq.symm.trans hq))

theorem page_setEntry (m : Memory) (t i : ℕ) (e : Entry) (k : ℕ) :
    ((m.setEntry t i e).table t k).page = if k = i then e.page else (m.table t k).page := by
  rw [setEntry_table_self]
  by_cases hk : k = i
  · rw [if_pos hk, hk, Function.update_self]
  · rw [if_neg hk, Function.update_of_ne hk]

theorem copyEntry_refs (hst : s ≠ t)
    (hroom : ∀ p, (m.table s i).page = some p → LOW_MEM ≤ p → m.memMap p + 1 ≤ 255)
    (hnone : (m.table t i).page = none) :
    OnlyCounts s t m (copyEntry s t i m) ∧
      (∀ p, (copyEntry s t i m).memMap p = m.memMap p + (m.table s i).refs p) ∧
      ∀ k, ((copyEntry s t i m).table t k).page =
        if k = i then (m.table s i).page else (m.table t k).page := by
  rw [copyEntry]
  by_cases hpresent : (m.table s i).present
  · have hpage : (m.table s i).page = some (m.table s i).frame :=
      Entry.page_eq_some.mpr ⟨hpresent, rfl⟩
    generalize he : m.table s i = e at *
    have hsource : (m.setEntry t i e.protect).table s = m.table s := setEntry_table_ne m hst _ _
    simp only [if_pos hpresent]
    by_cases hlow : LOW_MEM ≤ e.protect.frame
    · rw [if_pos hlow]
      refine ⟨⟨rfl, rfl, rfl, fun u hs ht => ?_, fun k => ?_⟩, fun p => ?_, fun k => ?_⟩
      · exact (setEntry_table_ne _ hs _ _).trans (setEntry_table_ne m ht _ _)
      · refine (page_setEntry _ s i e.protect k).trans ?_
        rw [hsource, Entry.page_protect]
        by_cases hk : k = i
        · rw [if_pos hk, hk, he]
        · rw [if_neg hk]
      · exact incCount_memMap hlow hpage (hroom _ hpage hlow) p
      · refine (congrArg (fun table => (table k).page) (setEntry_table_ne _ hst.symm _ _)).trans ?_
        exact page_setEntry m t i e.protect k
    · rw [if_neg hlow]
      refine ⟨⟨rfl, rfl, rfl, fun u _ ht => setEntry_table_ne m ht _ _, fun k => ?_⟩, fun p => ?_,
        fun k => page_setEntry m t i e.protect k⟩
      · rw [hsource]
      · rw [Entry.refs, if_neg, Nat.add_zero]
        · rfl
        · rintro ⟨hp, heq⟩
          cases hpage.symm.trans heq
          exact hlow hp
  · have hpage : (m.table s i).page = none := Entry.page_eq_none.mpr (by simpa using hpresent)
    simp only [if_neg hpresent]
    refine ⟨.refl m, fun p => ?_, fun k => ?_⟩
    · rw [Entry.refs, hpage]
      simp
    · by_cases hk : k = i
      · rw [if_pos hk, hk, hnone, hpage]
      · rw [if_neg hk]

theorem copyEntries_refs (hst : s ≠ t)
    (hroom : ∀ p, 0 < entryRefs (m.table s) p n i → m.memMap p + entryRefs (m.table s) p n i ≤ 255)
    (hnone : ∀ k, i ≤ k → k < i + n → (m.table t k).page = none) :
    OnlyCounts s t m (copyEntries s t n i m) ∧
      (∀ p, (copyEntries s t n i m).memMap p = m.memMap p + entryRefs (m.table s) p n i) ∧
      ∀ k, ((copyEntries s t n i m).table t k).page =
        if i ≤ k ∧ k < i + n then (m.table s k).page else (m.table t k).page := by
  induction n generalizing i m with
  | zero =>
      refine ⟨.refl m, fun _ => rfl, fun k => ?_⟩
      rw [if_neg (by omega)]
      rfl
  | succ n ih =>
      obtain ⟨honly, hmap, htarget⟩ := @copyEntry_refs m s t i hst
        (fun p hp hlow => by
          have hfirst : (m.table s i).refs p = 1 := if_pos ⟨hlow, hp⟩
          have hle := hroom p (by rw [entryRefs]; omega)
          rw [entryRefs] at hle
          omega)
        (hnone i (Nat.le_refl i) (by omega))
      have hrefs : ∀ p, entryRefs ((copyEntry s t i m).table s) p n (i + 1) =
          entryRefs (m.table s) p n (i + 1) := fun p =>
        entryRefs_congr fun k _ _ => honly.source k
      obtain ⟨honly', hmap', htarget'⟩ := @ih (copyEntry s t i m) (i + 1)
        (fun p hp => by
          rw [hrefs] at hp ⊢
          have hle := hroom p (by rw [entryRefs]; omega)
          rw [entryRefs] at hle
          rw [hmap p]
          omega)
        (fun k hk hlt => by
          rw [htarget k, if_neg (by omega)]
          exact hnone k (by omega) (by omega))
      rw [copyEntries]
      refine ⟨⟨honly'.highMemory.trans honly.highMemory, honly'.pgDir.trans honly.pgDir,
        honly'.bytes.trans honly.bytes, fun u hs ht => ?_, fun k => ?_⟩, fun p => ?_, fun k => ?_⟩
      · exact (honly'.table u hs ht).trans (honly.table u hs ht)
      · exact (honly'.source k).trans (honly.source k)
      · rw [hmap' p, hmap p, hrefs p, entryRefs]
        omega
      · rw [htarget' k, htarget k, honly.source k]
        by_cases hk : k = i
        · subst hk
          rw [if_neg (by omega), if_pos rfl, if_pos (by omega)]
        · by_cases hin : i + 1 ≤ k ∧ k < i + 1 + n
          · rw [if_pos hin, if_pos (by omega)]
          · rw [if_neg hin, if_neg hk, if_neg (by omega)]

/-- A range can be copied: the pages that are read are in use and in the memory, and
no count gets too large. -/
structure Copyable (nr : ℕ) (m : Memory) (n d d' : ℕ) : Prop where
  empty : ∀ k, d' ≤ k → k < d' + n → (m.pgDir k).present = false
  apart : d + n ≤ d' ∨ d' + n ≤ d
  tables : ∀ k, d ≤ k → k < d + n → ∀ t, (m.pgDir k).page = some t → ¬m.Free t
  pages : ∀ k, d ≤ k → k < d + n → ∀ t, (m.pgDir k).page = some t → ∀ i < nr, ∀ p,
    (m.table t i).page = some p → ¬m.Free p
  high : ∀ k, d ≤ k → k < d + n → ∀ t, (m.pgDir k).page = some t → ∀ i < nr, ∀ p,
    (m.table t i).page = some p → LOW_MEM ≤ p → p < m.highMemory
  room : ∀ p, 0 < m.mapRefs nr p n d → m.memMap p + m.mapRefs nr p n d ≤ 255
  free : ∀ p, m.Free p → p < m.highMemory

/-- What `copy_page_tables` leaves of the ranges, however far it has come. -/
structure CopiedRange (nr : ℕ) (m m' : Memory) (n d d' : ℕ) : Prop where
  freeable : Freeable m.memMap m' n d'
  le : ∀ p, m'.mapRefs 1024 p n d' ≤ m.mapRefs nr p n d
  fresh : ∀ k, d' ≤ k → k < d' + n → ∀ t, (m'.pgDir k).page = some t → m.Free t
  highMemory : m'.highMemory = m.highMemory
  outside : ∀ k, k < d' ∨ d' + n ≤ k → m'.pgDir k = m.pgDir k
  page : ∀ u, ¬m.Free u → ∀ i, (m'.table u i).page = (m.table u i).page
  bytes : ∀ p, ¬m.Free p → m'.bytes p = m.bytes p

/-- One table has been copied. -/
structure TableCopied (nr s t d' : ℕ) (m m' : Memory) : Prop where
  counts : ∀ p, m'.memMap p = (if p = t then 1 else m.memMap p) + entryRefs (m.table s) p nr 0
  highMemory : m'.highMemory = m.highMemory
  dir : (m'.pgDir d').page = some t
  outside : ∀ k, k ≠ d' → m'.pgDir k = m.pgDir k
  bytes : ∀ p, p ≠ t → m'.bytes p = m.bytes p
  table : ∀ u, u ≠ s → u ≠ t → m'.table u = m.table u
  source : ∀ k, (m'.table s k).page = (m.table s k).page
  target : ∀ k, (m'.table t k).page = if k < nr then (m.table s k).page else none

variable {nr d d' : ℕ} {m₁ : Memory}

theorem getFreePage_table_self (hget : getFreePage m = some (t, m₁)) (k : ℕ) :
    m₁.table t k = .zero := by
  obtain ⟨-, -, rfl⟩ := getFreePage_some hget
  exact congrFun (Function.update_self (β := fun _ => ℕ → Entry) t _ m.table) k

theorem getFreePage_table_ne (hget : getFreePage m = some (t, m₁)) {u : ℕ} (hu : u ≠ t) :
    m₁.table u = m.table u := by
  obtain ⟨-, -, rfl⟩ := getFreePage_some hget
  exact Function.update_of_ne hu ..

theorem getFreePage_bytes_ne (hget : getFreePage m = some (t, m₁)) {u : ℕ} (hu : u ≠ t) :
    m₁.bytes u = m.bytes u := by
  obtain ⟨-, -, rfl⟩ := getFreePage_some hget
  exact Function.update_of_ne hu ..

theorem memMap_of_getFreePage (hget : getFreePage m = some (t, m₁)) :
    m₁.memMap = Function.update m.memMap t 1 := by
  obtain ⟨-, -, rfl⟩ := getFreePage_some hget
  rfl

theorem getFreePage_pgDir (hget : getFreePage m = some (t, m₁)) :
    m₁.pgDir = m.pgDir ∧ m₁.highMemory = m.highMemory := by
  obtain ⟨-, -, rfl⟩ := getFreePage_some hget
  exact ⟨rfl, rfl⟩

theorem tableCopied (hget : getFreePage m = some (t, m₁)) (hst : s ≠ t)
    (hunmapped : ∀ k < nr, (m.table s k).page ≠ some t)
    (hroom : ∀ p, 0 < entryRefs (m.table s) p nr 0 →
      m.memMap p + entryRefs (m.table s) p nr 0 ≤ 255) :
    TableCopied nr s t d' m (copyEntries s t nr 0 (m₁.setDir d' (.user t))) := by
  obtain ⟨hpgDir, hhigh⟩ := getFreePage_pgDir hget
  have hsource : (m₁.setDir d' (.user t)).table s = m.table s := getFreePage_table_ne hget hst
  have htarget : ∀ k, ((m₁.setDir d' (.user t)).table t k).page = none := by
    intro k
    rw [show (m₁.setDir d' (.user t)).table t k = .zero from getFreePage_table_self hget k]
    rfl
  have hmap : (m₁.setDir d' (.user t)).memMap = Function.update m.memMap t 1 := by
    rw [← memMap_of_getFreePage hget]
    rfl
  obtain ⟨honly, hcounts, hcopied⟩ := @copyEntries_refs (m₁.setDir d' (.user t)) s t 0 nr hst
    (fun p hp => by
      rw [hsource] at hp ⊢
      have hpt : p ≠ t := by
        rintro rfl
        have hzero : entryRefs (m.table s) p nr 0 = 0 :=
          entryRefs_eq_zero fun k _ hlt => hunmapped k (by omega)
        omega
      rw [hmap, Function.update_of_ne hpt]
      exact hroom p hp)
    (fun k _ _ => htarget k)
  refine ⟨fun p => ?_, honly.highMemory.trans hhigh, ?_, fun k hk => ?_, fun p hp => ?_,
    fun u hs ht => ?_, fun k => ?_, fun k => ?_⟩
  · rw [hcounts p, hsource, hmap, Function.update_apply]
  · rw [honly.pgDir, show (m₁.setDir d' (.user t)).pgDir d' = .user t from Function.update_self ..]
    rfl
  · rw [honly.pgDir, ← hpgDir]
    exact Function.update_of_ne hk ..
  · rw [honly.bytes]
    exact getFreePage_bytes_ne hget hp
  · rw [honly.table u hs ht]
    exact getFreePage_table_ne hget ht
  · rw [honly.source k, hsource]
  · rw [hcopied k, htarget k, hsource]
    by_cases hk : k < nr
    · rw [if_pos (by omega), if_pos hk]
    · rw [if_neg (by omega), if_neg hk]

theorem mapRefs_of_page (hs : (m.pgDir d).page = some s) (p : ℕ) :
    m.mapRefs nr p (n + 1) d = entryRefs (m.table s) p nr 0 + m.mapRefs nr p n (d + 1) := by
  obtain ⟨hpresent, rfl⟩ := Entry.page_eq_some.mp hs
  rw [Memory.mapRefs, if_pos hpresent]

theorem mapRefs_of_absent (habsent : (m.pgDir d).present = false) (p : ℕ) :
    m.mapRefs nr p (n + 1) d = m.mapRefs nr p n (d + 1) := by
  rw [Memory.mapRefs, if_neg (by simp [habsent]), Nat.zero_add]

theorem tableRefs_of_absent (habsent : (m.pgDir d).present = false) (p : ℕ) :
    m.tableRefs p (n + 1) d = m.tableRefs p n (d + 1) := by
  rw [Memory.tableRefs, Entry.refs, Entry.page_eq_none.mpr habsent, if_neg (by simp), Nat.zero_add]

namespace Copyable

/-- A free page is not mapped in the range. -/
theorem mapRefs_free (h : Copyable nr m n d d') (hp : m.Free p) :
    m.mapRefs nr p n d = 0 :=
  mapRefs_eq_zero fun k hk hlt hpresent i hi heq =>
    h.pages k hk hlt _ (Entry.page_eq_some.mpr ⟨hpresent, rfl⟩) i hi p heq hp

/-- The rest of the range when the first entry of the directory is absent. -/
theorem skip (h : Copyable nr m (n + 1) d d') (habsent : (m.pgDir d).present = false) :
    Copyable nr m n (d + 1) (d' + 1) where
  empty k hk hlt := h.empty k (by omega) (by omega)
  apart := by
    have := h.apart
    omega
  tables k hk hlt := h.tables k (by omega) (by omega)
  pages k hk hlt := h.pages k (by omega) (by omega)
  high k hk hlt := h.high k (by omega) (by omega)
  room p hp := by
    rw [← mapRefs_of_absent habsent] at hp ⊢
    exact h.room p hp
  free := h.free

end Copyable

namespace TableCopied

variable (hc : TableCopied nr s t d' m m')
include hc

theorem le_memMap (ht : m.Free t) (p : ℕ) : m.memMap p ≤ m'.memMap p := by
  rw [hc.counts p]
  by_cases hp : p = t
  · subst hp
    rw [ht.2.2]
    exact Nat.zero_le _
  · rw [if_neg hp]
    exact Nat.le_add_right _ _

/-- A page that is free now was free before and is another one than the table. -/
theorem free (ht : m.Free t) (hp : m'.Free p) : m.Free p ∧ p ≠ t := by
  have hle := hc.le_memMap ht p
  obtain ⟨hlow, hlt, hzero⟩ := hp
  refine ⟨⟨hlow, hlt, by omega⟩, ?_⟩
  rintro rfl
  have hcount := hc.counts p
  rw [if_pos rfl] at hcount
  omega

/-- The entries of a table in use map the same pages as before. -/
theorem page (ht : m.Free t) {u : ℕ} (hu : ¬m.Free u) (i : ℕ) :
    (m'.table u i).page = (m.table u i).page := by
  by_cases hus : u = s
  · subst hus
    exact hc.source i
  · have hut : u ≠ t := by
      rintro rfl
      exact hu ht
    rw [hc.table u hus hut]

theorem mapRefs (h : Copyable nr m (n + 1) d d') (ht : m.Free t) (p : ℕ) :
    m'.mapRefs nr p n (d + 1) = m.mapRefs nr p n (d + 1) := by
  have hapart := h.apart
  refine mapRefs_congr fun k hk hlt => ⟨hc.outside k (by omega), fun hpresent i hi => ?_⟩
  exact hc.page ht (h.tables k (by omega) (by omega) _ (Entry.page_eq_some.mpr ⟨hpresent, rfl⟩)) i

/-- The rest of the range can be copied. -/
theorem copyable (h : Copyable nr m (n + 1) d d') (ht : m.Free t)
    (hs : (m.pgDir d).page = some s) : Copyable nr m' n (d + 1) (d' + 1) := by
  have hapart := h.apart
  have hdir : ∀ k, d + 1 ≤ k → k < d + 1 + n → m'.pgDir k = m.pgDir k := fun k hk hlt =>
    hc.outside k (by omega)
  refine ⟨fun k hk hlt => ?_, by omega, fun k hk hlt u hu => ?_, fun k hk hlt u hu i hi p hp => ?_,
    fun k hk hlt u hu i hi p hp => ?_, fun p hp => ?_, fun p hp => ?_⟩
  · rw [hc.outside k (by omega)]
    exact h.empty k (by omega) (by omega)
  · rw [hdir k hk hlt] at hu
    exact fun hfree => h.tables k (by omega) (by omega) u hu (hc.free ht hfree).1
  · rw [hdir k hk hlt] at hu
    rw [hc.page ht (h.tables k (by omega) (by omega) u hu)] at hp
    exact fun hfree => h.pages k (by omega) (by omega) u hu i hi p hp (hc.free ht hfree).1
  · rw [hdir k hk hlt] at hu
    rw [hc.page ht (h.tables k (by omega) (by omega) u hu)] at hp
    rw [hc.highMemory]
    exact h.high k (by omega) (by omega) u hu i hi p hp
  · have hrefs := @mapRefs_of_page m _ n nr d hs p
    have hpt : p ≠ t := by
      rintro rfl
      have hzero := h.mapRefs_free ht
      rw [hc.mapRefs h ht] at hp
      omega
    rw [hc.mapRefs h ht] at hp ⊢
    have hroom := h.room p (by omega)
    rw [hc.counts p, if_neg hpt]
    omega
  · rw [hc.highMemory]
    exact h.free p (hc.free ht hp).1

end TableCopied

namespace CopiedRange

/-- Nothing has been copied. -/
theorem of_empty (hempty : ∀ k, d' ≤ k → k < d' + n → (m.pgDir k).present = false) :
    CopiedRange nr m m n d d' := by
  have hnone : ∀ k, d' ≤ k → k < d' + n → ∀ t, (m.pgDir k).page ≠ some t := by
    intro k hk hlt t
    rw [Entry.page_eq_none.mpr (hempty k hk hlt)]
    simp
  have hmap : ∀ p, m.mapRefs 1024 p n d' = 0 := fun p =>
    mapRefs_eq_zero fun k hk hlt hpresent => by
      rw [hempty k hk hlt] at hpresent
      cases hpresent
  refine ⟨⟨fun p => ?_, fun k hk hlt hpresent => ?_, fun k hk hlt t ht => absurd ht (hnone k hk hlt t),
    fun k l hk hkl hlt t ht => absurd ht (hnone k hk (by omega) t)⟩, fun p => ?_,
    fun k hk hlt t ht => absurd ht (hnone k hk hlt t), rfl, fun _ _ => rfl, fun _ _ _ => rfl,
    fun _ _ => rfl⟩
  · rw [hmap p, tableRefs_eq_zero fun k hk hlt => hnone k hk hlt p]
    rfl
  · rw [hempty k hk hlt] at hpresent
    cases hpresent
  · rw [hmap p]
    exact Nat.zero_le _

/-- An entry of the directory that was absent in both ranges. -/
theorem skip (h : CopiedRange nr m m' n (d + 1) (d' + 1)) (habsent : (m.pgDir d).present = false)
    (hempty : (m.pgDir d').present = false) : CopiedRange nr m m' (n + 1) d d' := by
  have hfirst : (m'.pgDir d').present = false := by
    rw [h.outside d' (by omega), hempty]
  have hnone : ∀ t, (m'.pgDir d').page ≠ some t := by
    intro t
    rw [Entry.page_eq_none.mpr hfirst]
    simp
  refine ⟨⟨fun p => ?_, fun k hk hlt hpresent => ?_, fun k hk hlt t ht => ?_,
    fun k l hk hkl hlt t ht => ?_⟩, fun p => ?_, fun k hk hlt t ht => ?_, h.highMemory,
    fun k hk => h.outside k (by omega), h.page, h.bytes⟩
  · rw [mapRefs_of_absent hfirst, tableRefs_of_absent hfirst]
    exact h.freeable.counts p
  · by_cases hkd : k = d'
    · rw [hkd, hfirst] at hpresent
      cases hpresent
    · exact h.freeable.entries k (by omega) (by omega) hpresent
  · by_cases hkd : k = d'
    · exact absurd (hkd ▸ ht) (hnone t)
    · exact h.freeable.tables k (by omega) (by omega) t ht
  · by_cases hkd : k = d'
    · exact absurd (hkd ▸ ht) (hnone t)
    · exact h.freeable.distinct k l (by omega) hkl (by omega) t ht
  · rw [mapRefs_of_absent hfirst, mapRefs_of_absent habsent]
    exact h.le p
  · by_cases hkd : k = d'
    · exact absurd (hkd ▸ ht) (hnone t)
    · exact h.fresh k (by omega) (by omega) t ht

/-- A table has been copied, and then the rest of the range. -/
theorem cons (hc : TableCopied nr s t d' m m₁) (hrest : CopiedRange nr m₁ m' n (d + 1) (d' + 1))
    (h : Copyable nr m (n + 1) d d') (hnr : nr ≤ 1024) (ht : m.Free t)
    (hs : (m.pgDir d).page = some s) : CopiedRange nr m m' (n + 1) d d' := by
  have hused : ¬m₁.Free t := fun hfree => (hc.free ht hfree).2 rfl
  have hfirst : (m'.pgDir d').page = some t := by
    rw [hrest.outside d' (by omega), hc.dir]
  have hfirst_refs : ∀ p, (m'.pgDir d').refs p = if p = t then 1 else 0 := by
    intro p
    rw [Entry.refs, hfirst]
    by_cases hp : p = t
    · subst hp
      rw [if_pos ⟨ht.1, rfl⟩, if_pos rfl]
    · rw [if_neg fun heq => hp (Option.some.inj heq.2).symm, if_neg hp]
  have htarget : ∀ i, (m'.table t i).page = if i < nr then (m.table s i).page else none := fun i =>
    (hrest.page t hused i).trans (hc.target i)
  have hentries : ∀ p, entryRefs (m'.table t) p 1024 0 = entryRefs (m.table s) p nr 0 := by
    intro p
    have hsplit : 1024 = nr + (1024 - nr) := by omega
    rw [hsplit, entryRefs_append, @entryRefs_congr (m.table s) (m'.table t) nr 0 p
      fun k _ hlt => by rw [htarget k, if_pos (by omega)], entryRefs_eq_zero (i := 0 + nr)
      fun k hk _ => by rw [htarget k, if_neg (by omega)]; simp, Nat.add_zero]
  -- the tables of the rest are others than those in use after the first
  have hlater : ∀ p, ¬m₁.Free p → m'.tableRefs p n (d' + 1) = 0 := fun p hp =>
    tableRefs_eq_zero fun k hk hlt heq => hp (hrest.fresh k hk hlt p heq)
  have hrefs : ∀ p, m'.mapRefs 1024 p (n + 1) d' =
      entryRefs (m.table s) p nr 0 + m'.mapRefs 1024 p n (d' + 1) := fun p => by
    rw [mapRefs_of_page hfirst, hentries p]
  have hle : ∀ p, m'.mapRefs 1024 p n (d' + 1) ≤ m.mapRefs nr p n (d + 1) := fun p => by
    rw [← hc.mapRefs h ht]
    exact hrest.le p
  refine ⟨⟨fun p => ?_, fun k hk hlt hpresent i hi p hp hlow => ?_, fun k hk hlt u hu => ?_,
    fun k l hk hkl hlt u hu => ?_⟩, fun p => ?_, fun k hk hlt u hu => ?_,
    hrest.highMemory.trans hc.highMemory, fun k hk => ?_, fun u hu i => ?_, fun p hp => ?_⟩
  · rw [hrest.freeable.counts p, hc.counts p, hrefs p, Memory.tableRefs, hfirst_refs p]
    by_cases hp : p = t
    · subst hp
      rw [if_pos rfl, if_pos rfl, ht.2.2]
      omega
    · rw [if_neg hp, if_neg hp]
      omega
  · by_cases hkd : k = d'
    · subst hkd
      rw [(Entry.page_eq_some.mp hfirst).2, htarget i] at hp
      have hinr : i < nr := by
        by_contra hno
        rw [if_neg hno] at hp
        cases hp
      rw [if_pos hinr] at hp
      have hnotfree := h.pages d (Nat.le_refl d) (by omega) s hs i hinr p hp
      have hpos := entryRefs_pos (i := 0) (n := nr) (k := i) (Nat.zero_le i) (by omega) hlow hp
      have hall := @mapRefs_of_page m _ n nr d hs p
      have hroom := h.room p (by omega)
      have hcount := hrest.freeable.counts p
      rw [hlater p fun hfree => hnotfree (hc.free ht hfree).1, hc.counts p,
        if_neg fun heq : p = t => hnotfree (heq ▸ ht)] at hcount
      have hrestle := hle p
      rw [hrest.highMemory, hc.highMemory]
      exact ⟨h.high d (Nat.le_refl d) (by omega) s hs i hinr p hp hlow, by omega⟩
    · exact hrest.freeable.entries k (by omega) (by omega) hpresent i hi p hp hlow
  · by_cases hkd : k = d'
    · subst hkd
      cases hfirst.symm.trans hu
      have hcount := hrest.freeable.counts t
      have hzero := h.mapRefs_free ht
      have hall := @mapRefs_of_page m _ n nr d hs t
      have hrestle := hle t
      rw [hlater t hused, hc.counts t, if_pos rfl] at hcount
      rw [hrest.highMemory, hc.highMemory]
      exact ⟨h.free t ht, by omega⟩
    · exact hrest.freeable.tables k (by omega) (by omega) u hu
  · by_cases hkd : k = d'
    · subst hkd
      cases hfirst.symm.trans hu
      exact fun heq => hused (hrest.fresh l (by omega) (by omega) t heq)
    · exact hrest.freeable.distinct k l (by omega) hkl (by omega) u hu
  · rw [hrefs p, mapRefs_of_page hs]
    have hrestle := hle p
    omega
  · by_cases hkd : k = d'
    · subst hkd
      cases hfirst.symm.trans hu
      exact ht
    · exact (hc.free ht (hrest.fresh k (by omega) (by omega) u hu)).1
  · rw [hrest.outside k (by omega), hc.outside k (by omega)]
  · rw [hrest.page u (fun hfree => hu (hc.free ht hfree).1) i, hc.page ht hu]
  · rw [hrest.bytes p fun hfree => hp (hc.free ht hfree).1,
      hc.bytes p fun heq => hp (heq ▸ ht)]

end CopiedRange

/-- The references that copying has added when it ends, early or not, are those of
the target. -/
theorem copyDirs_refs (h : Copyable nr m n d d') (hnr : nr ≤ 1024) :
    ∃ ok m', copyDirs nr n d d' m = .ok (ok, m') ∧ CopiedRange nr m m' n d d' := by
  induction n generalizing m d d' with
  | zero => exact ⟨true, m, rfl, .of_empty h.empty⟩
  | succ n ih =>
      have hempty := h.empty d' (Nat.le_refl d') (by omega)
      rw [copyDirs, if_neg (by simp [hempty])]
      by_cases hpresent : (m.pgDir d).present
      · rw [if_neg (not_not.mpr hpresent)]
        cases hget : getFreePage m with
        | none => exact ⟨false, m, rfl, .of_empty h.empty⟩
        | some handed =>
            obtain ⟨t, m₁⟩ := handed
            have hs : (m.pgDir d).page = some (m.pgDir d).frame := Entry.page_eq_some.mpr ⟨hpresent, rfl⟩
            have ht := getFreePage_free hget
            have hdd : d ≠ d' := by
              have := h.apart
              omega
            have hframe : ((m₁.setDir d' (.user t)).pgDir d).frame = (m.pgDir d).frame := by
              rw [← (getFreePage_pgDir hget).1]
              exact congrArg Entry.frame (Function.update_of_ne hdd ..)
            have hc := @tableCopied m (m.pgDir d).frame t nr d' m₁ hget
              (fun heq => h.tables d (Nat.le_refl d) (by omega) _ hs (heq ▸ ht))
              (fun k hk heq => h.pages d (Nat.le_refl d) (by omega) _ hs k hk t heq ht)
              (fun p hp => by
                have hall := @mapRefs_of_page m _ n nr d hs p
                have hroom := h.room p (by omega)
                omega)
            obtain ⟨ok, m', hrest, hcopied⟩ := ih (hc.copyable h ht hs)
            refine ⟨ok, m', ?_, .cons hc hcopied h hnr ht hs⟩
            dsimp only
            rw [hframe]
            exact hrest
      · have habsent : (m.pgDir d).present = false := by simpa using hpresent
        rw [if_pos hpresent]
        obtain ⟨ok, m', hrest, hcopied⟩ := ih (h.skip habsent)
        exact ⟨ok, m', hrest, hcopied.skip habsent hempty⟩

end Copy

end MyJavaExample.Mm
