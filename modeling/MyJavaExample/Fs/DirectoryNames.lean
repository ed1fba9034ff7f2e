import MyJavaExample.Fs.Directory

/-!
# Names in directories

While a call is on its way to `add_entry`, the name is not in the part of the
directory that it has looked at.  This holds as long as no other call adds the
name there.  The invariant says so for every call, and is kept when a task moves
on, an entry is written or an inode number is taken.
-/

namespace MyJavaExample.Fs

/-! ## Entries -/

variable {dir : List DirEntry} {name : List UInt8} {de : DirEntry} {entries block i j : ℕ}

theorem getElem?_padName (name : List UInt8) (h : i < NAME_LEN) :
    (padName name)[i]? = some (name.getD i 0) := by
  rw [padName, List.getElem?_map, List.getElem?_range h]
  rfl

/-- An entry that `add_entry` has written is found by its name. -/
theorem matches_padName (hlive : de.inode ≠ 0) (hname : de.name = padName name) :
    de.matches (name.take NAME_LEN) = true := by
  have hlen : (name.take NAME_LEN).length = min NAME_LEN name.length := List.length_take
  have htake : (padName name).take (name.take NAME_LEN).length = name.take NAME_LEN := by
    refine List.ext_getElem? fun k => ?_
    rw [List.getElem?_take, List.getElem?_take, hlen]
    by_cases hk : k < NAME_LEN
    · rw [if_pos hk, getElem?_padName name hk]
      by_cases hk' : k < name.length
      · rw [if_pos (by omega), List.getD_eq_getElem?_getD, List.getElem?_eq_getElem hk']
        rfl
      · rw [if_neg (by omega), List.getElem?_eq_none (by omega)]
    · rw [if_neg hk, if_neg (by omega)]
  have hzero : (name.take NAME_LEN).length < NAME_LEN →
      (padName name).getD (name.take NAME_LEN).length 0 = 0 := by
    intro hlt
    have hshort : (name.take NAME_LEN).length = name.length := by omega
    rw [List.getD_eq_getElem?_getD, getElem?_padName name hlt, hshort, List.getD_eq_getElem?_getD,
      List.getElem?_eq_none (Nat.le_refl _)]
    rfl
  have hle : (name.take NAME_LEN).length ≤ NAME_LEN := by omega
  unfold DirEntry.matches
  rw [hname, htake]
  simp only [Bool.and_eq_true, decide_eq_true_eq, Bool.not_eq_true', Bool.and_eq_false_iff,
    decide_eq_false_iff_not, not_not, and_true]
  exact ⟨⟨hlive, hle⟩, or_iff_not_imp_left.2 fun hlt => hzero (not_not.1 hlt)⟩

theorem mem_blockEntries : i ∈ blockEntries block ↔
    DIR_ENTRIES_PER_BLOCK * block ≤ i ∧ i < DIR_ENTRIES_PER_BLOCK * (block + 1) := by
  rw [blockEntries, List.mem_range'_1, Nat.mul_succ]

theorem findInBlock_eq_none (h : findInBlock dir name entries block = none)
    (hi : DIR_ENTRIES_PER_BLOCK * block ≤ i) (hlt : i < DIR_ENTRIES_PER_BLOCK * (block + 1))
    (hentries : i < entries) (hde : dir[i]? = some de) : de.matches name = false := by
  have hnone := List.findSome?_eq_none_iff.1 h i (mem_blockEntries.2 ⟨hi, hlt⟩)
  rw [if_pos hentries, hde] at hnone
  simpa [Option.filter] using hnone

/-- The entry taken is free, or the one after the last. -/
theorem freeInBlock_eq_some (h : freeInBlock dir block = some i)
    (hlen : DIR_ENTRIES_PER_BLOCK * block ≤ dir.length) :
    i ≤ dir.length ∧ ∀ de, dir[i]? = some de → de.inode = 0 := by
  obtain ⟨hfree, hmem, hbefore⟩ := List.find?_range'_eq_some.1 h
  refine ⟨?_, fun de hde => by simpa [hde] using hfree⟩
  by_contra hlt
  have := hbefore dir.length hlen (by omega)
  rw [List.getElem?_eq_none (Nat.le_refl _)] at this
  cases this

theorem freeInBlock_eq_none (h : freeInBlock dir block = none) :
    DIR_ENTRIES_PER_BLOCK * (block + 1) ≤ dir.length := by
  have hlast : DIR_ENTRIES_PER_BLOCK * (block + 1) - 1 ∈ blockEntries block := by
    rw [mem_blockEntries]
    unfold DIR_ENTRIES_PER_BLOCK
    omega
  have hnot := List.find?_eq_none.1 h _ hlast
  by_contra hlt
  rw [List.getElem?_eq_none (by omega)] at hnot
  exact hnot rfl

theorem getElem?_setEntry (hi : i ≤ dir.length) (de : DirEntry) (j : ℕ) :
    (setEntry dir i de)[j]? = if j = i then some de else dir[j]? := by
  unfold setEntry
  by_cases hlt : i < dir.length
  · rw [if_pos hlt, List.getElem?_set]
    by_cases hj : i = j
    · rw [if_pos hj, if_pos (hj ▸ hlt), if_pos hj.symm]
    · rw [if_neg hj, if_neg (Ne.symm hj)]
  · obtain rfl : i = dir.length := by omega
    rw [if_neg hlt, List.getElem?_append]
    by_cases hj : j < dir.length
    · rw [if_pos hj, if_neg (by omega)]
    · rw [if_neg hj]
      by_cases hj' : j = dir.length
      · subst hj'
        simp
      · rw [if_neg hj', List.getElem?_eq_none (l := dir) (by omega)]
        exact List.getElem?_eq_none (by simp; omega)

/-- An entry in use has the name. -/
def HasName (dir : List DirEntry) (name : List UInt8) : Prop :=
  ∃ (i : ℕ) (de : DirEntry), dir[i]? = some de ∧ de.inode ≠ 0 ∧ de.name = name

theorem HasName.ne_nil (h : HasName dir name) : dir ≠ [] := by
  rintro rfl
  obtain ⟨i, de, hde, -⟩ := h
  cases hde

theorem uniqueNames_iff : Names.UniqueNames dir ↔
    ∀ (i j : ℕ) (de de' : DirEntry), dir[i]? = some de → dir[j]? = some de' → de.inode ≠ 0 → de'.inode ≠ 0 →
      de.name = de'.name → i = j := by
  unfold Names.UniqueNames
  rw [List.pairwise_iff_getElem]
  constructor
  · intro h i j de de' hde hde' hlive hlive' hname
    obtain ⟨hi, rfl⟩ := List.getElem?_eq_some_iff.1 hde
    obtain ⟨hj, rfl⟩ := List.getElem?_eq_some_iff.1 hde'
    rcases Nat.lt_trichotomy i j with hij | hij | hij
    · exact absurd hname (h i j hi hj hij hlive hlive')
    · exact hij
    · exact absurd hname.symm (h j i hj hi hij hlive' hlive)
  · intro h i j hi hj hij hlive hlive' hname
    have := h i j _ _ (List.getElem?_eq_getElem hi) (List.getElem?_eq_getElem hj) hlive hlive' hname
    omega

theorem HasName.setEntry (h : HasName dir name) (hi : i ≤ dir.length)
    (hfree : ∀ de, dir[i]? = some de → de.inode = 0) (de : DirEntry) :
    HasName (setEntry dir i de) name := by
  obtain ⟨j, de', hde', hlive, hname⟩ := h
  refine ⟨j, de', ?_, hlive, hname⟩
  rw [getElem?_setEntry hi, if_neg, hde']
  rintro rfl
  exact hlive (hfree de' hde')

theorem hasName_of_setEntry (h : HasName (setEntry dir i de) name) (hi : i ≤ dir.length) :
    name = de.name ∨ HasName dir name := by
  obtain ⟨j, de', hde', hlive, hname⟩ := h
  rw [getElem?_setEntry hi] at hde'
  split at hde'
  next =>
    cases hde'
    exact Or.inl hname.symm
  next => exact Or.inr ⟨j, de', hde', hlive, hname⟩

theorem hasName_setEntry_self (hi : i ≤ dir.length) (hlive : de.inode ≠ 0) :
    HasName (setEntry dir i de) de.name := by
  refine ⟨i, de, ?_, hlive, rfl⟩
  rw [getElem?_setEntry hi, if_pos rfl]

/-- A name that is not there can be added. -/
theorem uniqueNames_setEntry (h : Names.UniqueNames dir) (hi : i ≤ dir.length)
    (hnew : ¬HasName dir de.name) : Names.UniqueNames (setEntry dir i de) := by
  rw [uniqueNames_iff] at h ⊢
  intro j k x y hx hy hlive hlive' hname
  rw [getElem?_setEntry hi] at hx hy
  by_cases hj : j = i
  · by_cases hk : k = i
    · exact hj.trans hk.symm
    · rw [if_pos hj] at hx
      rw [if_neg hk] at hy
      cases hx
      exact absurd ⟨k, y, hy, hlive', hname.symm⟩ hnew
  · rw [if_neg hj] at hx
    by_cases hk : k = i
    · rw [if_pos hk] at hy
      cases hy
      exact absurd ⟨j, x, hx, hlive, hname⟩ hnew
    · rw [if_neg hk] at hy
      exact h j k x y hx hy hlive hlive' hname

theorem length_setEntry (dir : List DirEntry) (i : ℕ) (de : DirEntry) :
    dir.length ≤ (setEntry dir i de).length := by
  unfold setEntry
  split
  · exact Nat.le_of_eq List.length_set.symm
  · rw [List.length_append]
    exact Nat.le_add_right _ _

theorem setEntry_ne_nil (h : dir ≠ []) : setEntry dir i de ≠ [] := by
  intro hnil
  have hlen := length_setEntry dir i de
  rw [hnil] at hlen
  exact h (List.eq_nil_of_length_eq_zero (Nat.le_zero.1 hlen))

namespace Names

/-- The first two entries of a directory. -/
def Dots (dir : List DirEntry) : Prop :=
  (∃ de : DirEntry, dir[0]? = some de ∧ de.matches dot = true) ∧
    ∃ de : DirEntry, dir[1]? = some de ∧ de.matches dotDot = true

theorem Dots.setEntry (h : Dots dir) (hi : i ≤ dir.length)
    (hfree : ∀ de, dir[i]? = some de → de.inode = 0) (de : DirEntry) :
    Dots (setEntry dir i de) := by
  have hkeep : ∀ (j : ℕ) (x : DirEntry) (name : List UInt8), dir[j]? = some x →
      x.matches name = true → (Fs.setEntry dir i de)[j]? = some x := by
    intro j x name hx hmatch
    rw [getElem?_setEntry hi, if_neg, hx]
    rintro rfl
    simp [DirEntry.matches, hfree x hx] at hmatch
  obtain ⟨⟨x, hx, hdot⟩, y, hy, hdotDot⟩ := h
  exact ⟨⟨x, hkeep 0 x dot hx hdot, hdot⟩, y, hkeep 1 y dotDot hy hdotDot, hdotDot⟩

variable {τ : Type} [DecidableEq τ] {s : Names τ} {t u : τ} {c : CreateCall} {pc : CreatePc}

/-- The name can only be at the entries from `lo` to `hi`. -/
def Within (dir : List DirEntry) (name : List UInt8) (lo hi : ℕ) : Prop :=
  ∀ (i : ℕ) (de : DirEntry), dir[i]? = some de → de.inode ≠ 0 → de.name = name → lo ≤ i ∧ i < hi

/-- What a call has found out.  The names `.` and `..` are found in the first block. -/
def Knows (s : Names τ) (c : CreateCall) : CreatePc → Prop
  | .searching name entries block =>
      ((name = dot ∨ name = dotDot) ∧ 2 ≤ entries ∧ block = 0) ∨
        name = c.basename.take NAME_LEN ∧
          Within (s.dirs c.dir) (padName c.basename) (DIR_ENTRIES_PER_BLOCK * block) entries
  | .allocating => ¬HasName (s.dirs c.dir) (padName c.basename)
  | .adding inode block => ¬HasName (s.dirs c.dir) (padName c.basename) ∧
      DIR_ENTRIES_PER_BLOCK * block ≤ (s.dirs c.dir).length ∧
      (c.kind.newInode = true → inode ≠ 0 ∧ inode ∈ s.inodes ∧ s.dirs inode = [])
  | .returning created => created = true → c.kind = .openNamei true →
      HasName (s.dirs c.dir) (padName c.basename) ∧ (c.dir, padName c.basename) ∉ s.created

/-- The calls on their way know what they need to know, and do not get in the way of
each other. -/
structure Inv (s : Names τ) : Prop where
  unique : ∀ d, UniqueNames (s.dirs d)
  dots : ∀ d, s.dirs d ≠ [] → Dots (s.dirs d)
  imount : ∀ d d', s.imount d = some d' → s.dirs d' ≠ []
  zero : s.dirs 0 = []
  free : ∀ d, d ∉ s.inodes → s.dirs d = []
  dir : ∀ t c pc, s.task t = some (c, pc) → s.dirs c.dir ≠ []
  knows : ∀ t c pc, s.task t = some (c, pc) → s.Knows c pc
  fresh : ∀ t u c c' inode block block', s.task t = some (c, .adding inode block) →
    s.task u = some (c', .adding inode block') → c.kind.newInode = true →
    c'.kind.newInode = true → t = u
  nodup : s.created.Nodup
  created : ∀ x ∈ s.created, HasName (s.dirs x.1) x.2
  pending : ∀ t u c c', s.task t = some (c, .returning true) →
    s.task u = some (c', .returning true) → c.kind = .openNamei true →
    c'.kind = .openNamei true → c.dir = c'.dir → padName c.basename = padName c'.basename → t = u

theorem task_setTask (s : Names τ) (t u : τ) (x : Option (CreateCall × CreatePc)) :
    (s.setTask t x).task u = if u = t then x else s.task u := by
  by_cases hu : u = t
  · subst hu
    rw [if_pos rfl]
    exact Function.update_self ..
  · rw [if_neg hu]
    exact Function.update_of_ne hu ..

/-- A task moves on; the directories stay as they are. -/
theorem Inv.setTask (h : s.Inv) {x : Option (CreateCall × CreatePc)}
    (hdir : ∀ y ∈ x, s.dirs y.1.dir ≠ []) (hknows : ∀ y ∈ x, s.Knows y.1 y.2)
    (hadding : ∀ c inode block, x = some (c, .adding inode block) → c.kind.newInode = true →
      ∀ u c' block', u ≠ t → s.task u = some (c', .adding inode block') → c'.kind.newInode = false)
    (hreturning : ∀ c, x = some (c, .returning true) → c.kind = .openNamei true →
      ∀ u c', u ≠ t → s.task u = some (c', .returning true) → c'.kind = .openNamei true →
        ¬(c.dir = c'.dir ∧ padName c.basename = padName c'.basename)) :
    (s.setTask t x).Inv := by
  refine ⟨h.unique, h.dots, h.imount, h.zero, h.free, fun u c pc hu => ?_, fun u c pc hu => ?_, ?_, h.nodup,
    h.created, ?_⟩
  · rw [task_setTask] at hu
    split at hu
    next => exact hdir (c, pc) hu
    next => exact h.dir u c pc hu
  · rw [task_setTask] at hu
    split at hu
    next => exact hknows (c, pc) hu
    next => exact h.knows u c pc hu
  · intro u v c c' inode block block' hu hv hnew hnew'
    rw [task_setTask] at hu hv
    split at hu
    next hut =>
      split at hv
      next hvt => exact hut.trans hvt.symm
      next hvt =>
        rw [hadding c inode block hu hnew v c' block' hvt hv] at hnew'
        cases hnew'
    next hut =>
      split at hv
      next hvt =>
        rw [hadding c' inode block' hv hnew' u c block hut hu] at hnew
        cases hnew
      next => exact h.fresh u v c c' inode block block' hu hv hnew hnew'
  · intro u v c c' hu hv hk hk' hdir hname
    rw [task_setTask] at hu hv
    split at hu
    next hut =>
      split at hv
      next hvt => exact hut.trans hvt.symm
      next hvt => exact absurd ⟨hdir, hname⟩ (hreturning c hu hk v c' hvt hv hk')
    next hut =>
      split at hv
      next hvt => exact absurd ⟨hdir.symm, hname.symm⟩ (hreturning c' hv hk' u c hut hu hk)
      next => exact h.pending u v c c' hu hv hk hk' hdir hname

/-! ## Adding a name -/

/-- The state after a name was added to the directory `d`. -/
def insertEntry (s : Names τ) (d i : ℕ) (de : DirEntry) : Names τ :=
  { s with dirs := Function.update s.dirs d (setEntry (s.dirs d) i de) }

section InsertEntry

omit [DecidableEq τ]

variable {d : ℕ}

theorem dirs_insertEntry (s : Names τ) (d i : ℕ) (de : DirEntry) (d' : ℕ) :
    (s.insertEntry d i de).dirs d' = if d' = d then setEntry (s.dirs d) i de else s.dirs d' := by
  by_cases hd' : d' = d
  · subst hd'
    rw [if_pos rfl]
    exact Function.update_self ..
  · rw [if_neg hd']
    exact Function.update_of_ne hd' ..

theorem HasName.insertEntry {d' : ℕ} (h : HasName (s.dirs d') name) (hi : i ≤ (s.dirs d).length)
    (hfree : ∀ de, (s.dirs d)[i]? = some de → de.inode = 0) :
    HasName ((s.insertEntry d i de).dirs d') name := by
  rw [dirs_insertEntry]
  split
  next hd' =>
    subst hd'
    exact h.setEntry hi hfree de
  next => exact h

theorem insertEntry_ne_nil {d' : ℕ} (h : s.dirs d' ≠ []) : (s.insertEntry d i de).dirs d' ≠ [] := by
  rw [dirs_insertEntry]
  split
  next hd' =>
    subst hd'
    exact setEntry_ne_nil h
  next => exact h

/-- The name of a call that has missed the entry is another one. -/
theorem not_hasName_insertEntry (h : ¬HasName (s.dirs c.dir) (padName c.basename))
    (hi : i ≤ (s.dirs d).length) (hname : c.dir = d → padName c.basename ≠ de.name) :
    ¬HasName ((s.insertEntry d i de).dirs c.dir) (padName c.basename) := by
  rw [dirs_insertEntry]
  split
  next hd =>
    intro hhas
    rcases hasName_of_setEntry hhas hi with heq | hhas
    · exact hname hd heq
    · rw [← hd] at hhas
      exact h hhas
  next => exact h

theorem Knows.insertEntry (h : s.Knows c pc) (hd : s.dirs d ≠ []) (hi : i ≤ (s.dirs d).length)
    (hfree : ∀ de, (s.dirs d)[i]? = some de → de.inode = 0)
    (hmissed : c.dir = d → padName c.basename = de.name → ¬Missed i pc) :
    (s.insertEntry d i de).Knows c pc := by
  cases pc with
  | searching name entries block =>
      refine h.imp_right fun hname => ⟨hname.1, fun j x hx hlive heq => ?_⟩
      rw [dirs_insertEntry] at hx
      split at hx
      next hdir =>
        rw [getElem?_setEntry hi] at hx
        split at hx
        next hj =>
          cases hx
          have := hmissed hdir heq.symm
          simp only [Missed, not_or, Nat.not_lt, Nat.not_le] at this
          rwa [hj]
        next =>
          rw [← hdir] at hx
          exact hname.2 j x hx hlive heq
      next => exact hname.2 j x hx hlive heq
  | allocating =>
      exact not_hasName_insertEntry h hi fun hdir hname => hmissed hdir hname trivial
  | adding inode block =>
      refine ⟨not_hasName_insertEntry h.1 hi fun hdir hname => hmissed hdir hname trivial, ?_,
        fun hnew => ?_⟩
      · refine Nat.le_trans h.2.1 ?_
        rw [dirs_insertEntry]
        split
        next hdir =>
          rw [hdir]
          exact length_setEntry _ _ _
        next => exact Nat.le_refl _
      · obtain ⟨hzero, hmem, hnil⟩ := h.2.2 hnew
        refine ⟨hzero, hmem, ?_⟩
        rw [dirs_insertEntry, if_neg, hnil]
        rintro rfl
        exact hd hnil
  | returning created =>
      intro hcreated hkind
      exact ⟨HasName.insertEntry (h hcreated hkind).1 hi hfree, (h hcreated hkind).2⟩

/-- A name is added that no call has missed. -/
theorem Inv.insertEntry (h : s.Inv) (hd : s.dirs d ≠ []) (hi : i ≤ (s.dirs d).length)
    (hfree : ∀ de, (s.dirs d)[i]? = some de → de.inode = 0) (hnew : ¬HasName (s.dirs d) de.name)
    (hmissed : ∀ u c pc, s.task u = some (c, pc) → c.dir = d → padName c.basename = de.name →
      ¬Missed i pc) : (s.insertEntry d i de).Inv := by
  constructor
  case unique =>
    intro d'
    rw [dirs_insertEntry]
    split
    next => exact uniqueNames_setEntry (h.unique d) hi hnew
    next => exact h.unique d'
  case dots =>
    intro d' hd'
    rw [dirs_insertEntry] at hd' ⊢
    split
    next => exact (h.dots d hd).setEntry hi hfree de
    next hne =>
      rw [if_neg hne] at hd'
      exact h.dots d' hd'
  case imount => exact fun d' d'' hmount => insertEntry_ne_nil (h.imount d' d'' hmount)
  case zero =>
    rw [dirs_insertEntry, if_neg, h.zero]
    rintro rfl
    exact hd h.zero
  case free =>
    intro d' hd'
    have hnil := h.free d' hd'
    rw [dirs_insertEntry, if_neg, hnil]
    rintro rfl
    exact hd hnil
  case dir => exact fun u c pc hu => insertEntry_ne_nil (h.dir u c pc hu)
  case knows =>
    exact fun u c pc hu => (h.knows u c pc hu).insertEntry hd hi hfree (hmissed u c pc hu)
  case fresh => exact h.fresh
  case nodup => exact h.nodup
  case created => exact fun x hx => HasName.insertEntry (h.created x hx) hi hfree
  case pending => exact h.pending

end InsertEntry

/-! ## Inodes -/

section Inodes

omit [DecidableEq τ]

variable {inode : ℕ}

/-- The state after the first entries of the directory `inode` were written. -/
def makeDir (s : Names τ) (inode parent : ℕ) : Names τ :=
  { s with
    dirs := Function.update s.dirs inode [⟨inode, padName dot⟩, ⟨parent, padName dotDot⟩] }

theorem dirs_makeDir (s : Names τ) (inode parent d : ℕ) :
    (s.makeDir inode parent).dirs d =
      if d = inode then [⟨inode, padName dot⟩, ⟨parent, padName dotDot⟩] else s.dirs d := by
  by_cases hd : d = inode
  · subst hd
    rw [if_pos rfl]
    exact Function.update_self ..
  · rw [if_neg hd]
    exact Function.update_of_ne hd ..

/-- Other directories stay as they are. -/
theorem dirs_makeDir_of_ne_nil {parent d : ℕ} (hnil : s.dirs inode = []) (hd : s.dirs d ≠ []) :
    (s.makeDir inode parent).dirs d = s.dirs d := by
  rw [dirs_makeDir, if_neg]
  rintro rfl
  exact hd hnil

theorem dots_makeDir {parent : ℕ} (hinode : inode ≠ 0) (hparent : parent ≠ 0) :
    Dots [⟨inode, padName dot⟩, ⟨parent, padName dotDot⟩] := by
  have hdot : DirEntry.matches ⟨inode, padName dot⟩ (dot.take NAME_LEN) = true :=
    matches_padName hinode rfl
  have hdotDot : DirEntry.matches ⟨parent, padName dotDot⟩ (dotDot.take NAME_LEN) = true :=
    matches_padName hparent rfl
  exact ⟨⟨_, rfl, hdot⟩, _, rfl, hdotDot⟩

theorem uniqueNames_makeDir (inode parent : ℕ) :
    UniqueNames [⟨inode, padName dot⟩, ⟨parent, padName dotDot⟩] := by
  have hne : padName dot ≠ padName dotDot := by decide
  simp [UniqueNames, hne]

theorem Inv.makeDir {parent : ℕ} (h : s.Inv) (hparent : parent ≠ 0) (hinode : inode ≠ 0)
    (hmem : inode ∈ s.inodes) (hnil : s.dirs inode = [])
    (hnone : ∀ u c block, s.task u = some (c, .adding inode block) → c.kind.newInode = false) :
    (s.makeDir inode parent).Inv := by
  constructor
  case unique =>
    intro d
    rw [dirs_makeDir]
    split
    next => exact uniqueNames_makeDir inode parent
    next => exact h.unique d
  case dots =>
    intro d hd
    rw [dirs_makeDir] at hd ⊢
    split
    next => exact dots_makeDir hinode hparent
    next hne =>
      rw [if_neg hne] at hd
      exact h.dots d hd
  case imount =>
    intro d d' hmount
    rw [dirs_makeDir_of_ne_nil hnil (h.imount d d' hmount)]
    exact h.imount d d' hmount
  case zero => rw [dirs_makeDir, if_neg (Ne.symm hinode), h.zero]
  case free =>
    intro d hd
    rw [dirs_makeDir, if_neg (ne_of_mem_of_not_mem hmem hd).symm]
    exact h.free d hd
  case dir =>
    intro u c pc hu
    rw [dirs_makeDir_of_ne_nil hnil (h.dir u c pc hu)]
    exact h.dir u c pc hu
  case knows =>
    intro u c pc hu
    have hdir : (s.makeDir inode parent).dirs c.dir = s.dirs c.dir :=
      dirs_makeDir_of_ne_nil hnil (h.dir u c pc hu)
    have hknows := h.knows u c pc hu
    cases pc with
    | searching name entries block =>
        simp only [Knows, hdir]
        exact hknows
    | allocating =>
        simp only [Knows, hdir]
        exact hknows
    | returning created =>
        simp only [Knows, hdir]
        exact hknows
    | adding inode' block =>
        simp only [Knows, hdir]
        refine ⟨hknows.1, hknows.2.1, fun hnew => ?_⟩
        obtain ⟨hzero, hmem', hnil'⟩ := hknows.2.2 hnew
        refine ⟨hzero, hmem', ?_⟩
        rw [dirs_makeDir, if_neg, hnil']
        rintro rfl
        rw [hnone u c block hu] at hnew
        cases hnew
  case fresh => exact h.fresh
  case nodup => exact h.nodup
  case created =>
    intro x hx
    have hhas := h.created x hx
    rwa [dirs_makeDir_of_ne_nil hnil hhas.ne_nil]
  case pending => exact h.pending

/-- Inode numbers are taken and given back. -/
theorem Knows.setInodes (h : s.Knows c pc) {inodes : List ℕ}
    (hmem : ∀ inode block, pc = .adding inode block → c.kind.newInode = true →
      inode ∈ s.inodes → inode ∈ inodes) : { s with inodes := inodes }.Knows c pc := by
  cases pc with
  | searching name entries block => exact h
  | allocating => exact h
  | returning created => exact h
  | adding inode block =>
      refine ⟨h.1, h.2.1, fun hnew => ?_⟩
      obtain ⟨hzero, hin, hnil⟩ := h.2.2 hnew
      exact ⟨hzero, hmem inode block rfl hnew hin, hnil⟩

theorem Inv.setInodes (h : s.Inv) {inodes : List ℕ} (hfree : ∀ d, d ∉ inodes → s.dirs d = [])
    (hmem : ∀ u c inode block, s.task u = some (c, .adding inode block) → c.kind.newInode = true →
      inode ∈ s.inodes → inode ∈ inodes) : { s with inodes := inodes }.Inv :=
  ⟨h.unique, h.dots, h.imount, h.zero, hfree, h.dir,
    fun u c pc hu => (h.knows u c pc hu).setInodes fun inode block hpc =>
      hmem u c inode block (hpc ▸ hu),
    h.fresh, h.nodup, h.created, h.pending⟩

end Inodes

end Names

end MyJavaExample.Fs
