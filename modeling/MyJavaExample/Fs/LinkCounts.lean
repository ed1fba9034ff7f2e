import Mathlib.Algebra.Order.BigOperators.Group.Finset
import MyJavaExample.Fs.DirectoryNames
import MyJavaExample.Fs.Links
import MyJavaExample.Lib.Outcome
import MyJavaExample.Lib.Run

/-!
# Link counts and directory entries

The links of a file are the entries that hold its number, those of a directory its
entries for directories: the two for itself and its parent, and one for each
directory in it.  The invariant says so, and that a directory has one entry besides
those two, so that it is named no more when it is removed.

Looking up a path changes nothing but one count: an inode that is taken and released
again has its old count, and is not freed since it has links.
-/

namespace MyJavaExample.Fs

open Lib

/-! ## One entry of a list -/

section List

variable {l : List DirEntry} {p : DirEntry → Bool} {k : ℕ} {de : DirEntry}

/-- The number of entries when one of them is written. -/
theorem countP_setEntry :
    (setEntry l k de).countP p + (if l[k]?.any p then 1 else 0) =
      l.countP p + if p de then 1 else 0 := by
  unfold setEntry
  by_cases hlt : k < l.length
  · rw [if_pos hlt, List.countP_set hlt, List.getElem?_eq_getElem hlt, Option.any_some]
    by_cases hp : p l[k] = true
    · have hpos : 0 < l.countP p := List.countP_pos_iff.2 ⟨l[k], List.getElem_mem hlt, hp⟩
      rw [if_pos hp]
      omega
    · rw [if_neg hp, Nat.sub_zero, Nat.add_zero]
  · rw [if_neg hlt, List.getElem?_eq_none (Nat.not_lt.1 hlt), List.countP_append, Option.any_none,
      List.countP_singleton]
    rfl

end List

namespace Volume

variable {s s' : Volume} {e : Env} {d d' k k' m n : ℕ} {de : DirEntry} {x : UInt8}

/-! ## What the updates change -/

section Updates

@[simp] theorem nlinks_setCount (c : ℕ) : (s.setCount m c).nlinks n = s.nlinks n := rfl

@[simp] theorem isDir_setCount (c : ℕ) : (s.setCount m c).isDir n = s.isDir n := rfl

@[simp] theorem nlinks_hold : (s.hold m).nlinks n = s.nlinks n := rfl

@[simp] theorem isDir_hold : (s.hold m).isDir n = s.isDir n := rfl

@[simp] theorem permission_hold (may : ℕ → Bool) :
    (s.hold m).permission n may = s.permission n may := rfl

@[simp] theorem findEntry_hold (name : List UInt8) :
    (s.hold m).findEntry e d name = s.findEntry e d name := rfl

theorem count_hold : (s.hold n).count m = if m = n then s.count n + 1 else s.count m :=
  Function.update_apply ..

theorem hold_comm : (s.hold n).hold m = (s.hold m).hold n := by
  by_cases h : n = m
  · rw [h]
  · simp only [hold, setCount, Function.update_of_ne h, Function.update_of_ne (Ne.symm h),
      Function.update_comm h]

theorem inode_of_isDir (h : s.isDir n = true) : s.inode n ≠ none := by
  intro hnone
  simp [isDir, hnone] at h

theorem inode_of_nlinks (h : s.nlinks n ≠ 0) : s.inode n ≠ none := by
  intro hnone
  simp [nlinks, hnone] at h

/-- An inode that has links or is in use elsewhere is released as it was taken. -/
theorem iput_hold (h : s.nlinks n ≠ 0 ∨ s.count n ≠ 0) : (s.hold n).iput n = .ok s := by
  have hcount : (s.hold n).count n = s.count n + 1 := by rw [count_hold, if_pos rfl]
  have hback : (s.hold n).setCount n (s.count n + 1 - 1) = s := by
    simp [hold, setCount]
  rw [iput, hcount, if_neg (Nat.succ_ne_zero _), nlinks_hold, hback]
  rcases h with hlinks | hused
  · rw [if_neg hlinks]
    split <;> rfl
  · rw [if_pos (by omega)]
    rfl

theorem iput_eq (h : s.count n ≠ 0) : s.iput n = .ok
    (if s.count n = 1 ∧ s.nlinks n = 0 then s.freeInode n else s.setCount n (s.count n - 1)) := by
  rw [iput, if_neg h]
  by_cases hlast : s.count n = 1
  · by_cases hlinks : s.nlinks n = 0
    · rw [if_neg (by omega), if_pos hlinks, if_pos ⟨hlast, hlinks⟩]
      rfl
    · rw [if_neg (by omega), if_neg hlinks, if_neg fun hfree => hlinks hfree.2]
      rfl
  · rw [if_pos (by omega), if_neg fun hfree => hlast hfree.1]
    rfl

/-- The other inodes are as they were. -/
theorem iput_other (h : s.iput n = .ok s') (hm : m ≠ n) :
    s'.nlinks m = s.nlinks m ∧ s'.count m = s.count m := by
  have hcount : s.count n ≠ 0 := by
    intro hzero
    rw [iput, if_pos hzero] at h
    cases h
  rw [iput_eq hcount] at h
  cases h
  split
  next =>
    have hinode : (s.freeInode n).inode m = s.inode m := Function.update_of_ne hm ..
    refine ⟨?_, Function.update_of_ne hm ..⟩
    rw [nlinks, nlinks, hinode]
  next => exact ⟨rfl, Function.update_of_ne hm ..⟩

theorem iget_eq (h : s.inode n ≠ none) : s.iget n = .ok (s.hold n) := by
  rw [iget]
  split
  next hnone => exact absurd hnone h
  next => rfl

end Updates

/-! ## Names -/

/-- The entry `k` of the directory `d` holds the number `n`. -/
def NamedAt (s : Volume) (d k n : ℕ) : Prop := ∃ de, (s.entries d)[k]? = some de ∧ de.inode = n

/-- The number of entries that hold the number. -/
def names (s : Volume) (n : ℕ) : ℕ :=
  ∑ d ∈ Finset.range (s.ninodes + 1), (s.entries d).countP (·.inode = n)

theorem NamedAt.names_pos (hn : s.NamedAt d k n) (hle : d ≤ s.ninodes) : 0 < s.names n := by
  obtain ⟨de, hde, hinode⟩ := hn
  have hpos : 0 < (s.entries d).countP (·.inode = n) :=
    List.countP_pos_iff.2 ⟨de, List.mem_of_getElem? hde, by simpa using hinode⟩
  have hsum := Finset.single_le_sum (f := fun d => (s.entries d).countP (·.inode = n))
    (fun _ _ => Nat.zero_le _) (Finset.mem_range.2 (Nat.lt_succ_of_le hle))
  exact hpos.trans_le hsum

/-- The number of directories in a directory, after the entries for itself and its parent. -/
def subdirs (s : Volume) (d : ℕ) : ℕ := ((s.entries d).drop 2).countP (s.isDir ·.inode)

/-- The number of links of each inode is that of its names, and no entry holds the
number of an inode that is free. -/
structure LinksMatch (s : Volume) : Prop where
  files : ∀ n i, s.inode n = some i → i.dir = false → i.nlinks.toNat = s.names n
  dirs : ∀ n i, s.inode n = some i → i.dir = true → i.nlinks.toNat = 2 + s.subdirs n
  named : ∀ d, ∀ de ∈ s.entries d, de.inode ≠ 0 → s.inode de.inode ≠ none

theorem LinksMatch.inode_ne (h : s.LinksMatch) (hn : s.NamedAt d k n) (hpos : n ≠ 0) :
    s.inode n ≠ none := by
  obtain ⟨de, hde, rfl⟩ := hn
  exact h.named d de (List.mem_of_getElem? hde) hpos

/-- A consistent file system. -/
structure Consistent (s : Volume) : Prop where
  used : ∀ n, s.inode n ≠ none → 1 ≤ n ∧ n ≤ s.ninodes
  noEntries : ∀ d, s.isDir d = false → s.entries d = []
  named : ∀ d k n, s.NamedAt d k n → n ≠ 0 → s.inode n ≠ none
  /-- `.` and `..`, with an entry for the directory in its parent. -/
  self : ∀ d, s.isDir d = true → s.NamedAt d 0 d
  parent : ∀ d, s.isDir d = true → ∃ p, s.NamedAt d 1 p ∧ s.isDir p = true ∧
    (p ≠ d → ∃ k, 2 ≤ k ∧ s.NamedAt p k d)
  once : ∀ n, s.isDir n = true → ∀ d k d' k', 2 ≤ k → 2 ≤ k' → s.NamedAt d k n →
    s.NamedAt d' k' n → d = d' ∧ k = k'
  files : ∀ n, s.inode n ≠ none → s.isDir n = false → (s.nlinks n).toNat = s.names n
  dirs : ∀ n, s.isDir n = true → (s.nlinks n).toNat = (s.entries n).countP (s.isDir ·.inode)

/-! ## One entry of a directory -/

section Write

theorem entries_setEntries {l : List DirEntry} :
    (s.setEntries d l).entries d' = if d' = d then l else s.entries d' := Function.update_apply ..

theorem namedAt_setEntries {l : List DirEntry} : (s.setEntries d l).NamedAt d' m n ↔
    if d' = d then ∃ de, l[m]? = some de ∧ de.inode = n else s.NamedAt d' m n := by
  rw [NamedAt, entries_setEntries]
  split <;> rfl

theorem namedAt_writeEntry (hk : k ≤ (s.entries d).length) :
    (s.writeEntry d k de).NamedAt d' m n ↔
      if d' = d ∧ m = k then de.inode = n else s.NamedAt d' m n := by
  rw [writeEntry, namedAt_setEntries, getElem?_setEntry hk]
  by_cases hd : d' = d
  · by_cases hm : m = k
    · simp [hd, hm]
    · simp [hd, hm, NamedAt]
  · simp [hd]

theorem countP_writeEntry (p : DirEntry → Bool) :
    ((s.writeEntry d k de).entries d').countP p +
        (if d' = d ∧ (s.entries d)[k]?.any p then 1 else 0) =
      (s.entries d').countP p + if d' = d ∧ p de then 1 else 0 := by
  unfold writeEntry setEntries
  by_cases hd : d' = d
  · subst hd
    simp only [Function.update_self, true_and]
    exact countP_setEntry
  · simp only [Function.update_of_ne hd, hd, false_and, if_false]

theorem names_setEntries {l : List DirEntry} (hd : d ≤ s.ninodes) :
    (s.setEntries d l).names n + (s.entries d).countP (·.inode = n) =
      s.names n + l.countP (·.inode = n) := by
  have hmem : d ∈ Finset.range (s.ninodes + 1) := Finset.mem_range.2 (Nat.lt_succ_of_le hd)
  have hrest : ∑ d' ∈ (Finset.range (s.ninodes + 1)).erase d,
        ((s.setEntries d l).entries d').countP (·.inode = n) =
      ∑ d' ∈ (Finset.range (s.ninodes + 1)).erase d, (s.entries d').countP (·.inode = n) := by
    refine Finset.sum_congr rfl fun d' hd' => congrArg _ ?_
    exact Function.update_of_ne (Finset.ne_of_mem_erase hd') ..
  have hhere : (s.setEntries d l).entries d = l := Function.update_self ..
  have hsum := Finset.add_sum_erase _ (fun d' => (s.entries d').countP (·.inode = n)) hmem
  have hsum' := Finset.add_sum_erase _
    (fun d' => ((s.setEntries d l).entries d').countP (·.inode = n)) hmem
  unfold names
  rw [← hsum]
  change ∑ d' ∈ Finset.range (s.ninodes + 1),
    ((s.setEntries d l).entries d').countP (·.inode = n) + _ = _
  rw [← hsum', hrest, hhere]
  omega

theorem names_writeEntry (hd : d ≤ s.ninodes) :
    (s.writeEntry d k de).names n + (if (s.entries d)[k]?.any (·.inode = n) then 1 else 0) =
      s.names n + if de.inode = n then 1 else 0 := by
  have hnames := @names_setEntries s d n (setEntry (s.entries d) k de) hd
  have hcount := @countP_setEntry (s.entries d) (·.inode = n) k de
  simp only [decide_eq_true_eq] at hcount
  rw [writeEntry]
  omega

end Write

/-! ## A consistent file system -/

section Consistent

theorem isDir_setLinks : (s.setLinks n x).isDir m = s.isDir m := by
  unfold setLinks setInode isDir
  by_cases h : m = n
  · subst h
    simp
  · simp [h]

theorem nlinks_setLinks : (s.setLinks n x).nlinks m = if m = n then x else s.nlinks m := by
  unfold setLinks setInode nlinks
  by_cases h : m = n
  · subst h
    simp
  · simp [h]

theorem inode_setLinks : (s.setLinks n x).inode m ≠ none ↔ m = n ∨ s.inode m ≠ none := by
  unfold setLinks setInode
  by_cases h : m = n
  · simp [h]
  · simp [h]

variable (h : s.Consistent)
include h

/-- The counts of the references do not matter. -/
theorem Consistent.setCount (c : ℕ) : (s.setCount n c).Consistent :=
  ⟨h.used, h.noEntries, h.named, h.self, h.parent, h.once, h.files, h.dirs⟩

theorem Consistent.hold : (s.hold n).Consistent := h.setCount _

theorem Consistent.isDir_zero : s.isDir 0 = false := by
  by_contra hdir
  have hused := h.used 0 (inode_of_isDir (Bool.eq_true_of_not_eq_false hdir))
  omega

theorem Consistent.isDir_of_namedAt (hn : s.NamedAt d k n) : s.isDir d = true := by
  by_contra hdir
  obtain ⟨de, hde, -⟩ := hn
  rw [h.noEntries d (Bool.eq_false_of_not_eq_true hdir)] at hde
  cases hde

theorem Consistent.dir_le (hd : s.isDir d = true) : d ≤ s.ninodes :=
  (h.used d (inode_of_isDir hd)).2

theorem Consistent.names_pos (hn : s.NamedAt d k n) : 0 < s.names n :=
  hn.names_pos (h.dir_le (h.isDir_of_namedAt hn))

/-- A directory begins with the entries for itself and its parent. -/
theorem Consistent.entries_eq (hd : s.isDir d = true) : ∃ de₀ de₁,
    s.entries d = de₀ :: de₁ :: (s.entries d).drop 2 ∧ de₀.inode = d ∧ s.isDir de₁.inode = true := by
  obtain ⟨de₀, h₀, hself⟩ := h.self d hd
  obtain ⟨p, ⟨de₁, h₁, hp⟩, hparent, -⟩ := h.parent d hd
  rcases hl : s.entries d with _ | ⟨a, _ | ⟨b, l⟩⟩
  · rw [hl] at h₀
    cases h₀
  · rw [hl] at h₁
    cases h₁
  · rw [hl] at h₀ h₁
    cases h₀
    cases h₁
    exact ⟨_, _, rfl, hself, hp ▸ hparent⟩

theorem Consistent.countP_isDir (hd : s.isDir d = true) :
    (s.entries d).countP (s.isDir ·.inode) = 2 + s.subdirs d := by
  obtain ⟨de₀, de₁, hl, hself, hparent⟩ := h.entries_eq hd
  have hself' : s.isDir de₀.inode = true := hself ▸ hd
  rw [hl, subdirs, List.countP_cons, List.countP_cons, hself', hparent, if_pos rfl]
  omega

/-- A directory has links. -/
theorem Consistent.nlinks_dir (hd : s.isDir d = true) : s.nlinks d ≠ 0 := by
  intro hzero
  have hlinks := h.dirs d hd
  rw [hzero, h.countP_isDir hd] at hlinks
  have hno : (0 : UInt8).toNat = 0 := rfl
  omega

theorem Consistent.linksMatch : s.LinksMatch where
  files n i hi hfile := by
    have hlinks := h.files n (by simp [hi]) (by simp [isDir, hi, hfile])
    simpa [nlinks, hi] using hlinks
  dirs n i hi hdir := by
    have hd : s.isDir n = true := by simp [isDir, hi, hdir]
    have hlinks := (h.dirs n hd).trans (h.countP_isDir hd)
    simpa [nlinks, hi] using hlinks
  named d de hde hlive := by
    obtain ⟨k, hk⟩ := List.getElem?_of_mem hde
    exact h.named d k de.inode ⟨de, hk, rfl⟩ hlive

/-- Writing an entry that held no number, or that of a file, with the links of the file. -/
theorem Consistent.write (hn : s.inode n ≠ none) (hfile : s.isDir n = false)
    (hd : s.isDir d = true) (hk : k ≤ (s.entries d).length)
    (hold : ∀ old, (s.entries d)[k]? = some old → old.inode = 0 ∨ old.inode = n)
    (hnew : de.inode = 0 ∨ de.inode = n)
    (hx : x.toNat + (if (s.entries d)[k]?.any (·.inode = n) then 1 else 0) =
      (s.nlinks n).toNat + if de.inode = n then 1 else 0) :
    ((s.writeEntry d k de).setLinks n x).Consistent := by
  have hnotDir : ∀ {m}, m = 0 ∨ m = n → s.isDir m = false := by
    rintro m (rfl | rfl)
    · exact h.isDir_zero
    · exact hfile
  -- for the number of a directory nothing changes
  have hnamed : ∀ {d' j m}, s.isDir m = true →
      (((s.writeEntry d k de).setLinks n x).NamedAt d' j m ↔ s.NamedAt d' j m) := by
    intro d' j m hm
    refine (namedAt_writeEntry hk).trans ?_
    by_cases hhere : d' = d ∧ j = k
    · obtain ⟨rfl, rfl⟩ := hhere
      rw [if_pos ⟨rfl, rfl⟩]
      refine iff_of_false (fun heq => ?_) ?_
      · rw [hnotDir (heq ▸ hnew)] at hm
        cases hm
      · rintro ⟨old, hget, heq⟩
        rw [hnotDir (heq ▸ hold old hget)] at hm
        cases hm
    · rw [if_neg hhere]
  have hdirs : ∀ m, ((s.writeEntry d k de).entries m).countP (s.isDir ·.inode) =
      (s.entries m).countP (s.isDir ·.inode) := by
    intro m
    have hcount := @countP_writeEntry s d m k de (s.isDir ·.inode)
    have hany : ¬(m = d ∧ (s.entries d)[k]?.any (s.isDir ·.inode) = true) := by
      rintro ⟨-, hany⟩
      obtain ⟨old, hget, hdir⟩ := (Option.any_eq_true ..).1 hany
      rw [hnotDir (hold old hget)] at hdir
      cases hdir
    rw [if_neg hany, if_neg (by simp [hnotDir hnew])] at hcount
    exact hcount
  have hfix : ∀ m, ((s.writeEntry d k de).setLinks n x).isDir m = s.isDir m := fun m =>
    isDir_setLinks
  refine ⟨fun m hm => ?_, fun m hm => ?_, fun d' j m hm hne => ?_, fun m hm => ?_, fun m hm => ?_,
    fun m hm d₁ k₁ d₂ k₂ hk₁ hk₂ h₁ h₂ => ?_, fun m hm hdir => ?_, fun m hm => ?_⟩
  · rcases inode_setLinks.1 hm with rfl | hm
    · exact h.used _ hn
    · exact h.used m hm
  · rw [hfix] at hm
    have hne : m ≠ d := by
      rintro rfl
      cases hm.symm.trans hd
    exact (Function.update_of_ne hne ..).trans (h.noEntries m hm)
  · rw [inode_setLinks]
    have hnamed' := (namedAt_writeEntry hk).1 hm
    by_cases hhere : d' = d ∧ j = k
    · rw [if_pos hhere] at hnamed'
      exact .inl (hnew.elim (fun hzero => absurd (hnamed'.symm.trans hzero) hne) fun heq =>
        hnamed'.symm.trans heq)
    · rw [if_neg hhere] at hnamed'
      exact .inr (h.named d' j m hnamed' hne)
  · rw [hfix] at hm
    exact (hnamed hm).2 (h.self m hm)
  · rw [hfix] at hm
    obtain ⟨p, hp, hdirp, hparent⟩ := h.parent m hm
    refine ⟨p, (hnamed hdirp).2 hp, (hfix p).trans hdirp, fun hne => ?_⟩
    obtain ⟨j, hj, hin⟩ := hparent hne
    exact ⟨j, hj, (hnamed hm).2 hin⟩
  · rw [hfix] at hm
    exact h.once m hm d₁ k₁ d₂ k₂ hk₁ hk₂ ((hnamed hm).1 h₁) ((hnamed hm).1 h₂)
  · have hnames := @names_writeEntry s d k m de (h.dir_le hd)
    change ((s.writeEntry d k de).setLinks n x).names m + _ = _ at hnames
    rw [hfix] at hdir
    rw [nlinks_setLinks]
    by_cases hmn : m = n
    · subst hmn
      have hlinks := h.files m hn hfile
      rw [if_pos rfl]
      omega
    · have hm' := (inode_setLinks.1 hm).resolve_left hmn
      have hzero : m ≠ 0 := by
        have := h.used m hm'
        omega
      have hany : ¬((s.entries d)[k]?.any (·.inode = m) = true) := by
        intro hany
        obtain ⟨old, hget, heq⟩ := (Option.any_eq_true ..).1 hany
        have heq : old.inode = m := by simpa using heq
        exact (hold old hget).elim (fun h₀ => hzero (heq.symm.trans h₀)) fun h₁ =>
          hmn (heq.symm.trans h₁)
      have hother : de.inode ≠ m := fun heq =>
        hnew.elim (fun h₀ => hzero (heq.symm.trans h₀)) fun h₁ => hmn (heq.symm.trans h₁)
      rw [if_neg hmn]
      rw [if_neg hany, if_neg hother] at hnames
      exact (h.files m hm' hdir).trans hnames.symm
  · rw [hfix] at hm
    have hlinks := h.dirs m hm
    have hmn : m ≠ n := by
      rintro rfl
      cases hfile.symm.trans hm
    have hfun : (fun old : DirEntry => ((s.writeEntry d k de).setLinks n x).isDir old.inode) =
        fun old => s.isDir old.inode := funext fun old => hfix old.inode
    rw [nlinks_setLinks, if_neg hmn, hfun]
    exact hlinks.trans (hdirs m).symm

/-- A change of files only, with the directories and their entries as they are. -/
theorem Consistent.of_files (hsize : s'.ninodes = s.ninodes) (hentries : s'.entries = s.entries)
    (hdir : ∀ m, s'.isDir m = s.isDir m) (hlinks : ∀ m, s.isDir m = true → s'.nlinks m = s.nlinks m)
    (hused : ∀ m, s'.inode m ≠ none → 1 ≤ m ∧ m ≤ s.ninodes)
    (hnamed : ∀ d k m, s.NamedAt d k m → m ≠ 0 → s'.inode m ≠ none)
    (hfiles : ∀ m, s'.inode m ≠ none → s.isDir m = false → (s'.nlinks m).toNat = s.names m) :
    s'.Consistent := by
  have hsame : ∀ {d k m}, s'.NamedAt d k m ↔ s.NamedAt d k m := by
    intro d k m
    rw [NamedAt, NamedAt, hentries]
  refine ⟨fun m hm => hsize ▸ hused m hm, fun m hm => ?_, fun d k m hm => hnamed d k m (hsame.1 hm),
    fun m hm => ?_, fun m hm => ?_, fun m hm d k d' k' hk hk' h₁ h₂ => ?_, fun m hm hfile => ?_,
    fun m hm => ?_⟩
  · rw [hentries]
    exact h.noEntries m ((hdir m).symm.trans hm)
  · exact hsame.2 (h.self m ((hdir m).symm.trans hm))
  · obtain ⟨p, hp, hdirp, hparent⟩ := h.parent m ((hdir m).symm.trans hm)
    refine ⟨p, hsame.2 hp, (hdir p).trans hdirp, fun hne => ?_⟩
    obtain ⟨k, hk, hin⟩ := hparent hne
    exact ⟨k, hk, hsame.2 hin⟩
  · exact h.once m ((hdir m).symm.trans hm) d k d' k' hk hk' (hsame.1 h₁) (hsame.1 h₂)
  · have hnames : s'.names m = s.names m := by rw [names, names, hentries, hsize]
    rw [hnames]
    exact hfiles m hm ((hdir m).symm.trans hfile)
  · have hm' : s.isDir m = true := (hdir m).symm.trans hm
    have hfun : (fun de : DirEntry => s'.isDir de.inode) = fun de => s.isDir de.inode :=
      funext fun de => hdir de.inode
    rw [hlinks m hm', hentries, hfun]
    exact h.dirs m hm'

/-- A file without links is freed. -/
theorem Consistent.freeInode (hfile : s.isDir n = false) (hzero : s.nlinks n = 0) :
    (s.freeInode n).Consistent := by
  have hinode : ∀ m, (s.freeInode n).inode m ≠ none ↔ m ≠ n ∧ s.inode m ≠ none := by
    intro m
    by_cases hmn : m = n <;> simp [Volume.freeInode, hmn]
  have hother : ∀ m, m ≠ n → (s.freeInode n).nlinks m = s.nlinks m := fun m hmn => by
    simp [Volume.freeInode, nlinks, hmn]
  refine h.of_files rfl (Function.update_eq_self_iff.2 (h.noEntries n hfile).symm) (fun m => ?_)
    (fun m hm => hother m ?_) (fun m hm => h.used m ((hinode m).1 hm).2)
    (fun d k m hm hne => (hinode m).2 ⟨?_, h.named d k m hm hne⟩) fun m hm hdir => ?_
  · by_cases hmn : m = n
    · subst hmn
      rw [hfile]
      simp [Volume.freeInode, isDir]
    · simp [Volume.freeInode, isDir, hmn]
  · rintro rfl
    cases hfile.symm.trans hm
  · rintro rfl
    have hlinks := h.files m (h.named d k m hm hne) hfile
    have hpos := h.names_pos hm
    rw [hzero] at hlinks
    have hno : (0 : UInt8).toNat = 0 := rfl
    omega
  · obtain ⟨hmn, hm'⟩ := (hinode m).1 hm
    rw [hother m hmn]
    exact h.files m hm' hdir

/-- The last release of an inode, and any other one. -/
theorem Consistent.iput : Ends (fun s' => s'.Consistent) (fun _ => True) (s.iput n) := by
  rw [Volume.iput]
  refine Ends.ite (fun _ => .throw trivial) fun _ => .ite (fun _ => .pure (h.setCount _)) fun _ =>
    .ite (fun hzero => .pure ?_) fun _ => .pure (h.setCount _)
  refine h.freeInode ?_ hzero
  by_contra hdir
  exact h.nlinks_dir (Bool.eq_true_of_not_eq_false hdir) hzero

theorem Consistent.unnamed (hn : s.inode n = none) (hpos : n ≠ 0) : ¬s.NamedAt d k n :=
  fun hnamed => h.named d k n hnamed hpos hn

/-- A new inode, as a file without links. -/
theorem Consistent.newFile (hn : s.inode n = none) (hpos : 1 ≤ n) (hle : n ≤ s.ninodes) :
    (s.setInode n ⟨false, 0⟩).Consistent := by
  have hfile : s.isDir n = false := by simp [isDir, hn]
  have hinode : ∀ m, (s.setInode n ⟨false, 0⟩).inode m ≠ none ↔ m = n ∨ s.inode m ≠ none := by
    intro m
    by_cases hmn : m = n <;> simp [setInode, hmn]
  have hother : ∀ m, m ≠ n → (s.setInode n ⟨false, 0⟩).nlinks m = s.nlinks m := fun m hmn => by
    simp [setInode, nlinks, hmn]
  refine h.of_files rfl rfl (fun m => ?_) (fun m hm => hother m ?_) (fun m hm => ?_)
    (fun d k m hm hne => (hinode m).2 (.inr (h.named d k m hm hne))) fun m hm hdir => ?_
  · by_cases hmn : m = n
    · subst hmn
      rw [hfile]
      simp [setInode, isDir]
    · simp [setInode, isDir, hmn]
  · rintro rfl
    cases hfile.symm.trans hm
  · rcases (hinode m).1 hm with rfl | hm
    · exact ⟨hpos, hle⟩
    · exact h.used m hm
  · by_cases hmn : m = n
    · subst hmn
      have hzero : s.names m = 0 := by
        refine Finset.sum_eq_zero fun d hd => List.countP_eq_zero.2 fun de hde heq => ?_
        obtain ⟨k, hk⟩ := List.getElem?_of_mem hde
        exact h.unnamed hn (Nat.ne_of_gt hpos) ⟨de, hk, by simpa using heq⟩
      rw [hzero]
      simp [setInode, nlinks]
    · rw [hother m hmn]
      exact h.files m (((hinode m).1 hm).resolve_left hmn) hdir

/-- The volume after `sys_mkdir` has made the directory `n` in `d`. -/
def addDir (s : Volume) (d k n : ℕ) (name : List UInt8) : Volume :=
  (((s.setInode n ⟨true, 2⟩).setEntries n [⟨n, padName dot⟩, ⟨d, padName dotDot⟩]).writeEntry d k
    ⟨n, name⟩).setLinks d (s.nlinks d + 1)

omit h in
theorem nlinks_succ (hmax : x ≠ 255) : (x + 1).toNat = x.toNat + 1 := by
  have hlt := x.toNat_lt
  have hne : x.toNat ≠ 255 := fun heq => hmax (UInt8.toNat_inj.1 heq)
  rw [UInt8.toNat_add, Nat.mod_eq_of_lt]
  · rfl
  · change x.toNat + 1 < 2 ^ 8
    omega

omit h in
theorem nlinks_pred (hpos : x ≠ 0) : (x - 1).toNat + 1 = x.toNat := by
  have hlt := x.toNat_lt
  have hne : x.toNat ≠ 0 := fun heq => hpos (UInt8.toNat_inj.1 heq)
  have hone : (1 : UInt8) ≤ x := by
    rw [UInt8.le_iff_toNat_le]
    change 1 ≤ x.toNat
    omega
  rw [UInt8.toNat_sub_of_le _ _ hone]
  change x.toNat - 1 + 1 = x.toNat
  omega

theorem Consistent.addDir {name : List UInt8} (hn : s.inode n = none) (hpos : 1 ≤ n)
    (hle : n ≤ s.ninodes) (hd : s.isDir d = true) (hk : k ≤ (s.entries d).length)
    (hfree : ∀ old, (s.entries d)[k]? = some old → old.inode = 0) (hmax : s.nlinks d ≠ 255) :
    (s.addDir d k n name).Consistent := by
  have hnd : n ≠ d := by
    rintro rfl
    exact inode_of_isDir hd hn
  have hdpos := h.used d (inode_of_isDir hd)
  have hdir : ∀ m, (s.addDir d k n name).isDir m = if m = n then true else s.isDir m := by
    intro m
    rw [Volume.addDir, isDir_setLinks]
    by_cases hmn : m = n
    · simp [writeEntry, setEntries, setInode, isDir, hmn]
    · simp [writeEntry, setEntries, setInode, isDir, hmn]
  have hinode : ∀ m, (s.addDir d k n name).inode m ≠ none ↔ m = n ∨ s.inode m ≠ none := by
    intro m
    rw [Volume.addDir, inode_setLinks]
    by_cases hmn : m = n
    · simp [writeEntry, setEntries, setInode, hmn]
    · simp only [writeEntry, setEntries, setInode, Function.update_of_ne hmn, hmn, false_or,
        or_iff_right_iff_imp]
      rintro rfl
      exact inode_of_isDir hd
  have hlinks : ∀ m, (s.addDir d k n name).nlinks m =
      if m = d then s.nlinks d + 1 else if m = n then 2 else s.nlinks m := by
    intro m
    rw [Volume.addDir, nlinks_setLinks]
    by_cases hmn : m = n
    · simp [writeEntry, setEntries, setInode, nlinks, hmn]
    · simp [writeEntry, setEntries, setInode, nlinks, hmn]
  have hentries : ((s.setInode n ⟨true, 2⟩).setEntries n
      [⟨n, padName dot⟩, ⟨d, padName dotDot⟩]).entries d = s.entries d :=
    Function.update_of_ne (Ne.symm hnd) ..
  have hnamed : ∀ d' j m, (s.addDir d k n name).NamedAt d' j m ↔
      d' = n ∧ (j = 0 ∧ m = n ∨ j = 1 ∧ m = d) ∨
        d' = d ∧ j = k ∧ m = n ∨ d' ≠ n ∧ ¬(d' = d ∧ j = k) ∧ s.NamedAt d' j m := by
    intro d' j m
    refine (namedAt_writeEntry (by rwa [hentries])).trans ?_
    rw [namedAt_setEntries]
    by_cases hdn : d' = n
    · subst hdn
      rw [if_neg fun h => hnd h.1, if_pos rfl]
      rcases j with _ | _ | j
      · simp [hnd, eq_comm]
      · simp [hnd, eq_comm]
      · simp [hnd]
    · rw [if_neg hdn]
      by_cases hhere : d' = d ∧ j = k
      · rw [if_pos hhere]
        simp [hhere, eq_comm, Ne.symm hnd]
      · rw [if_neg hhere]
        simp only [hdn, false_and, false_or, ne_eq, not_false_eq_true, true_and, hhere, ← and_assoc]
        rfl
  have hkeep : ∀ {d' j m}, m ≠ 0 → s.NamedAt d' j m → (s.addDir d k n name).NamedAt d' j m := by
    intro d' j m hm hin
    refine (hnamed d' j m).2 (.inr (.inr ⟨?_, ?_, hin⟩))
    · rintro rfl
      exact inode_of_isDir (h.isDir_of_namedAt hin) hn
    · rintro ⟨rfl, rfl⟩
      obtain ⟨old, hget, heq⟩ := hin
      exact hm (heq.symm.trans (hfree old hget))
  have hused : ∀ {m}, s.isDir m = true → m ≠ 0 := fun {m} hm heq => by
    rw [heq, h.isDir_zero] at hm
    cases hm
  have htwo : 2 ≤ k := by
    by_contra hlt
    obtain rfl | rfl : k = 0 ∨ k = 1 := by omega
    · obtain ⟨old, hget, heq⟩ := h.self d hd
      exact hused hd (heq.symm.trans (hfree old hget))
    · obtain ⟨p, ⟨old, hget, heq⟩, hp, -⟩ := h.parent d hd
      exact hused hp (heq.symm.trans (hfree old hget))
  have hnew : (s.addDir d k n name).NamedAt d k n := (hnamed d k n).2 (.inr (.inl ⟨rfl, rfl, rfl⟩))
  refine ⟨fun m hm => ?_, fun m hm => ?_, fun d' j m hm hne => ?_, fun m hm => ?_, fun m hm => ?_,
    fun m hm d₁ k₁ d₂ k₂ hk₁ hk₂ h₁ h₂ => ?_, fun m hm hfile => ?_, fun m hm => ?_⟩
  · rcases (hinode m).1 hm with rfl | hm
    · exact ⟨hpos, hle⟩
    · exact h.used m hm
  · rw [hdir] at hm
    by_cases hmn : m = n
    · rw [if_pos hmn] at hm
      cases hm
    · rw [if_neg hmn] at hm
      have hmd : m ≠ d := by
        rintro rfl
        cases hm.symm.trans hd
      change ((((s.setInode n ⟨true, 2⟩).setEntries n _).writeEntry d k _).entries m) = []
      rw [writeEntry, entries_setEntries, if_neg hmd, entries_setEntries, if_neg hmn]
      exact h.noEntries m hm
  · rw [hinode]
    rcases (hnamed d' j m).1 hm with ⟨-, ⟨-, hmn⟩ | ⟨-, hmd⟩⟩ | ⟨-, -, hmn⟩ | ⟨-, -, hin⟩
    · exact .inl hmn
    · exact .inr (hmd ▸ inode_of_isDir hd)
    · exact .inl hmn
    · exact .inr (h.named d' j m hin hne)
  · rw [hdir] at hm
    by_cases hmn : m = n
    · subst hmn
      exact (hnamed m 0 m).2 (.inl ⟨rfl, .inl ⟨rfl, rfl⟩⟩)
    · rw [if_neg hmn] at hm
      exact hkeep (hused hm) (h.self m hm)
  · rw [hdir] at hm
    by_cases hmn : m = n
    · subst hmn
      refine ⟨d, (hnamed m 1 d).2 (.inl ⟨rfl, .inr ⟨rfl, rfl⟩⟩), ?_, fun _ => ⟨k, htwo, hnew⟩⟩
      rw [hdir, if_neg (Ne.symm hnd)]
      exact hd
    · rw [if_neg hmn] at hm
      obtain ⟨p, hp, hdirp, hparent⟩ := h.parent m hm
      refine ⟨p, hkeep (hused hdirp) hp, ?_, fun hne => ?_⟩
      · rw [hdir]
        split
        next => rfl
        next => exact hdirp
      · obtain ⟨j, hj, hin⟩ := hparent hne
        exact ⟨j, hj, hkeep (hused hm) hin⟩
  · have hplace : ∀ {d' j}, 2 ≤ j → (s.addDir d k n name).NamedAt d' j m →
        m = n ∧ d' = d ∧ j = k ∨ m ≠ n ∧ s.NamedAt d' j m := by
      intro d' j hj hin
      rcases (hnamed d' j m).1 hin with ⟨-, ⟨h₀, -⟩ | ⟨h₁, -⟩⟩ | ⟨hd', hj', hmn⟩ | ⟨-, -, hold⟩
      · omega
      · omega
      · exact .inl ⟨hmn, hd', hj'⟩
      · exact .inr ⟨fun hmn => h.unnamed hn (Nat.ne_of_gt hpos) (hmn ▸ hold), hold⟩
    rcases hplace hk₁ h₁ with ⟨hmn, rfl, rfl⟩ | ⟨hmn, hin₁⟩
    · rcases hplace hk₂ h₂ with ⟨-, rfl, rfl⟩ | ⟨hmn', -⟩
      · exact ⟨rfl, rfl⟩
      · exact absurd hmn hmn'
    · rcases hplace hk₂ h₂ with ⟨hmn', -, -⟩ | ⟨-, hin₂⟩
      · exact absurd hmn' hmn
      · rw [hdir, if_neg hmn] at hm
        exact h.once m hm d₁ k₁ d₂ k₂ hk₁ hk₂ hin₁ hin₂
  · rw [hdir] at hfile
    have hmn : m ≠ n := by
      rintro rfl
      rw [if_pos rfl] at hfile
      cases hfile
    rw [if_neg hmn] at hfile
    have hmd : m ≠ d := by
      rintro rfl
      cases hfile.symm.trans hd
    have hm' := ((hinode m).1 hm).resolve_left hmn
    have hm0 := h.used m hm'
    have hwrite := @names_writeEntry ((s.setInode n ⟨true, 2⟩).setEntries n
      [⟨n, padName dot⟩, ⟨d, padName dotDot⟩]) d k m ⟨n, name⟩ hdpos.2
    have hset := @names_setEntries (s.setInode n ⟨true, 2⟩) n m
      [⟨n, padName dot⟩, ⟨d, padName dotDot⟩] hle
    have hany : ¬((s.entries d)[k]?.any (·.inode = m) = true) := by
      intro hany
      obtain ⟨old, hget, heq⟩ := (Option.any_eq_true ..).1 hany
      have hzero := hfree old hget
      have heq : old.inode = m := by simpa using heq
      omega
    have hnone : (s.setInode n ⟨true, 2⟩).entries n = [] := h.noEntries n (by simp [isDir, hn])
    rw [hentries, if_neg hany, if_neg (Ne.symm hmn)] at hwrite
    simp only [hnone, List.countP_nil, List.countP_cons, Ne.symm hmn, Ne.symm hmd,
      decide_false] at hset
    rw [hlinks, if_neg hmd, if_neg hmn]
    exact (h.files m hm' hfile).trans (hset.symm.trans hwrite.symm)
  · have hsame : ∀ d', (s.entries d').countP ((s.addDir d k n name).isDir ·.inode) =
        (s.entries d').countP (s.isDir ·.inode) := by
      intro d'
      refine List.countP_congr fun old hold => ?_
      obtain ⟨j, hj⟩ := List.getElem?_of_mem hold
      rw [hdir, if_neg fun heq => h.unnamed hn (Nat.ne_of_gt hpos) ⟨old, hj, heq⟩]
    have hlist : (s.addDir d k n name).entries m =
        if m = d then setEntry (s.entries d) k ⟨n, name⟩
        else if m = n then [⟨n, padName dot⟩, ⟨d, padName dotDot⟩] else s.entries m := by
      change ((((s.setInode n ⟨true, 2⟩).setEntries n _).writeEntry d k _).entries m) = _
      rw [writeEntry, entries_setEntries, hentries, entries_setEntries]
      rfl
    rw [hdir] at hm
    rw [hlinks, hlist]
    by_cases hmd : m = d
    · subst hmd
      have hcount := @countP_setEntry (s.entries m) ((s.addDir m k n name).isDir ·.inode) k ⟨n, name⟩
      have hany : ¬((s.entries m)[k]?.any ((s.addDir m k n name).isDir ·.inode) = true) := by
        intro hany
        obtain ⟨old, hget, hold⟩ := (Option.any_eq_true ..).1 hany
        rw [hfree old hget, hdir, if_neg (Nat.ne_of_lt hpos), h.isDir_zero] at hold
        cases hold
      rw [if_neg hany, if_pos (by rw [hdir, if_pos rfl]), hsame, ← h.dirs m hd] at hcount
      rw [if_pos rfl, if_pos rfl, nlinks_succ hmax]
      exact hcount.symm
    · rw [if_neg hmd, if_neg hmd]
      by_cases hmn : m = n
      · rw [if_pos hmn, if_pos hmn, List.countP_cons_of_pos, List.countP_cons_of_pos]
        · rfl
        · rw [hdir, if_neg (Ne.symm hnd)]
          exact hd
        · rw [hdir, if_pos rfl]
      · rw [if_neg hmn] at hm ⊢
        rw [if_neg hmn, hsame]
        exact h.dirs m hm

/-- The volume after `sys_rmdir` has removed the directory `n` from `d`. -/
def removeDir (s : Volume) (d k n : ℕ) (de : DirEntry) : Volume :=
  ((s.clearEntry d k de).setLinks d (s.nlinks d - 1)).freeInode n

theorem Consistent.removeDir (hd : s.isDir d = true) (hn : s.isDir n = true) (hne : n ≠ d)
    (hget : (s.entries d)[k]? = some de) (hde : de.inode = n)
    (hempty : ∀ old ∈ (s.entries n).drop 2, old.inode = 0) : (s.removeDir d k n de).Consistent := by
  have hk : k < (s.entries d).length := (List.getElem?_eq_some_iff.1 hget).1
  have hin : s.NamedAt d k n := ⟨de, hget, hde⟩
  have hused : ∀ {m}, s.isDir m = true → m ≠ 0 := fun {m} hm heq => by
    rw [heq, h.isDir_zero] at hm
    cases hm
  have hnochild : ∀ {j m}, 2 ≤ j → s.NamedAt n j m → m = 0 := by
    rintro j m hj ⟨old, hold, rfl⟩
    refine hempty old (List.mem_of_getElem? (i := j - 2) ?_)
    rw [List.getElem?_drop, Nat.add_sub_cancel' hj, hold]
  -- only the removed directory has it as its parent
  have hnoparent : ∀ {m}, s.isDir m = true → s.NamedAt m 1 n → m = n := by
    intro m hm hone
    by_contra hmn
    obtain ⟨p, ⟨old, hold, hp⟩, -, hparent⟩ := h.parent m hm
    obtain ⟨old', hold', hn'⟩ := hone
    have hpn : p = n := by
      rw [hold] at hold'
      cases hold'
      exact hp.symm.trans hn'
    obtain ⟨j, hj, hchild⟩ := hparent (fun hpm => hmn (hpm.symm.trans hpn))
    exact hused hm (hnochild hj (hpn ▸ hchild))
  have hself : ∀ {m}, s.isDir m = true → s.NamedAt m 0 n → m = n := by
    intro m hm ⟨old', hold', hn'⟩
    obtain ⟨old, hold, hm'⟩ := h.self m hm
    rw [hold] at hold'
    cases hold'
    exact hm'.symm.trans hn'
  have htwo : 2 ≤ k := by
    by_contra hlt
    obtain rfl | rfl : k = 0 ∨ k = 1 := by omega
    · exact hne (hself hd hin).symm
    · exact hne (hnoparent hd hin).symm
  -- the entry in `d` is the only one that is left
  have honly : ∀ {d' j}, d' ≠ n → s.NamedAt d' j n → d' = d ∧ j = k := by
    intro d' j hd' hj
    have hdir := h.isDir_of_namedAt hj
    rcases j with _ | _ | j
    · exact absurd (hself hdir hj) hd'
    · exact absurd (hnoparent hdir hj) hd'
    · exact h.once n hn d' (j + 2) d k (by omega) htwo hj hin
  have hdir : ∀ m, (s.removeDir d k n de).isDir m = if m = n then false else s.isDir m := by
    intro m
    have hlinks := @isDir_setLinks (s.clearEntry d k de) m d (s.nlinks d - 1)
    by_cases hmn : m = n
    · simp [Volume.removeDir, Volume.freeInode, isDir, hmn]
    · rw [if_neg hmn]
      refine Eq.trans ?_ hlinks
      simp [Volume.removeDir, Volume.freeInode, isDir, hmn]
  have hinode : ∀ m, (s.removeDir d k n de).inode m ≠ none ↔ m ≠ n ∧ s.inode m ≠ none := by
    intro m
    have hlinks := @inode_setLinks (s.clearEntry d k de) m d (s.nlinks d - 1)
    by_cases hmn : m = n
    · simp [Volume.removeDir, Volume.freeInode, hmn]
    · have hsame : (s.removeDir d k n de).inode m =
          ((s.clearEntry d k de).setLinks d (s.nlinks d - 1)).inode m := Function.update_of_ne hmn ..
      rw [hsame, hlinks]
      refine ⟨fun hm => ⟨hmn, hm.elim (fun heq => heq ▸ inode_of_isDir hd) id⟩, fun hm => .inr hm.2⟩
  have hlinks : ∀ m, m ≠ n → (s.removeDir d k n de).nlinks m =
      if m = d then s.nlinks d - 1 else s.nlinks m := by
    intro m hmn
    refine Eq.trans ?_ (@nlinks_setLinks (s.clearEntry d k de) m d (s.nlinks d - 1))
    simp [Volume.removeDir, Volume.freeInode, nlinks, hmn]
  have hentries : ∀ m, (s.removeDir d k n de).entries m =
      if m = n then [] else (s.clearEntry d k de).entries m := fun m => Function.update_apply ..
  have hnamed : ∀ {d' j m}, m ≠ 0 → ((s.removeDir d k n de).NamedAt d' j m ↔
      m ≠ n ∧ d' ≠ n ∧ s.NamedAt d' j m) := by
    intro d' j m hm
    rw [NamedAt, hentries]
    by_cases hdn : d' = n
    · simp [hdn]
    · rw [if_neg hdn]
      refine (namedAt_writeEntry (Nat.le_of_lt hk)).trans ?_
      by_cases hhere : d' = d ∧ j = k
      · obtain ⟨rfl, rfl⟩ := hhere
        rw [if_pos ⟨rfl, rfl⟩]
        refine iff_of_false (Ne.symm hm) ?_
        rintro ⟨hmn, -, old, hold, heq⟩
        rw [hget] at hold
        cases hold
        exact hmn (heq.symm.trans hde)
      · rw [if_neg hhere]
        exact ⟨fun hold => ⟨fun hmn => hhere (honly hdn (hmn ▸ hold)), hdn, hold⟩,
          fun hold => hold.2.2⟩
  have hleft : ∀ {m}, (s.removeDir d k n de).isDir m = true → m ≠ n ∧ s.isDir m = true := by
    intro m hm
    rw [hdir] at hm
    by_cases hmn : m = n
    · rw [if_pos hmn] at hm
      cases hm
    · rw [if_neg hmn] at hm
      exact ⟨hmn, hm⟩
  refine ⟨fun m hm => h.used m ((hinode m).1 hm).2, fun m hm => ?_, fun d' j m hm hzero => ?_,
    fun m hm => ?_, fun m hm => ?_, fun m hm d₁ k₁ d₂ k₂ hk₁ hk₂ h₁ h₂ => ?_, fun m hm hfile => ?_,
    fun m hm => ?_⟩
  · rw [hentries]
    by_cases hmn : m = n
    · rw [if_pos hmn]
    · rw [hdir, if_neg hmn] at hm
      have hmd : m ≠ d := by
        rintro rfl
        cases hm.symm.trans hd
      rw [if_neg hmn, clearEntry, writeEntry, entries_setEntries, if_neg hmd]
      exact h.noEntries m hm
  · obtain ⟨hmn, -, hold⟩ := (hnamed hzero).1 hm
    exact (hinode m).2 ⟨hmn, h.named d' j m hold hzero⟩
  · obtain ⟨hmn, hm'⟩ := hleft hm
    exact (hnamed (hused hm')).2 ⟨hmn, hmn, h.self m hm'⟩
  · obtain ⟨hmn, hm'⟩ := hleft hm
    obtain ⟨p, hp, hdirp, hparent⟩ := h.parent m hm'
    have hpn : p ≠ n := fun hpn => hmn (hnoparent hm' (hpn ▸ hp))
    refine ⟨p, (hnamed (hused hdirp)).2 ⟨hpn, hmn, hp⟩, ?_, fun hpm => ?_⟩
    · rw [hdir, if_neg hpn]
      exact hdirp
    · obtain ⟨j, hj, hchild⟩ := hparent hpm
      exact ⟨j, hj, (hnamed (hused hm')).2 ⟨hmn, hpn, hchild⟩⟩
  · obtain ⟨-, hm'⟩ := hleft hm
    exact h.once m hm' d₁ k₁ d₂ k₂ hk₁ hk₂ ((hnamed (hused hm')).1 h₁).2.2
      ((hnamed (hused hm')).1 h₂).2.2
  · obtain ⟨hmn, hm'⟩ := (hinode m).1 hm
    rw [hdir, if_neg hmn] at hfile
    have hmd : m ≠ d := by
      rintro rfl
      cases hfile.symm.trans hd
    have hm0 := h.used m hm'
    have hwrite := @names_writeEntry s d k m { de with inode := 0 } (h.dir_le hd)
    have hset := @names_setEntries (s.clearEntry d k de) n m [] (h.dir_le hn)
    have hsame : (s.clearEntry d k de).entries n = s.entries n := Function.update_of_ne hne ..
    have hnone : (s.entries n).countP (·.inode = m) = 0 := by
      obtain ⟨de₀, de₁, hl, hself', hparent⟩ := h.entries_eq hn
      have h₀ : ¬de₀.inode = m := fun heq => by
        rw [← heq, hself', hn] at hfile
        cases hfile
      have h₁ : ¬de₁.inode = m := fun heq => by
        rw [← heq, hparent] at hfile
        cases hfile
      have hrest : ((s.entries n).drop 2).countP (·.inode = m) = 0 := by
        refine List.countP_eq_zero.2 fun old hold heq => ?_
        have hzero := hempty old hold
        have heq : old.inode = m := by simpa using heq
        omega
      rw [hl, List.countP_cons, List.countP_cons, hrest]
      simp [h₀, h₁]
    rw [hget, Option.any_some, if_neg (by simpa [hde] using Ne.symm hmn),
      if_neg (Nat.ne_of_lt hm0.1)] at hwrite
    rw [hsame, hnone, List.countP_nil] at hset
    rw [hlinks m hmn, if_neg hmd]
    exact (h.files m hm' hfile).trans (hwrite.symm.trans hset.symm)
  · have hcongr : ((s.removeDir d k n de).entries m).countP ((s.removeDir d k n de).isDir ·.inode) =
        ((s.removeDir d k n de).entries m).countP (s.isDir ·.inode) := by
      refine List.countP_congr fun old hold => ?_
      obtain ⟨j, hj⟩ := List.getElem?_of_mem hold
      rw [hdir]
      by_cases hzero : old.inode = 0
      · rw [hzero, if_neg (Ne.symm (hused hn))]
      · rw [if_neg ((hnamed hzero).1 ⟨old, hj, rfl⟩).1]
    obtain ⟨hmn, hm'⟩ := hleft hm
    rw [hcongr, hlinks m hmn, hentries, if_neg hmn]
    by_cases hmd : m = d
    · subst hmd
      have hcount := @countP_writeEntry s m m k { de with inode := 0 } (s.isDir ·.inode)
      simp only [hget, Option.any_some, hde, hn, true_and, and_self, if_true, h.isDir_zero,
        Bool.false_eq_true, if_false] at hcount
      have hpred := nlinks_pred (h.nlinks_dir hm')
      have hold := h.dirs m hm'
      rw [if_pos rfl]
      rw [clearEntry]
      omega
    · rw [if_neg hmd, clearEntry, writeEntry, entries_setEntries, if_neg hmd]
      exact h.dirs m hm'

end Consistent

end Volume

end MyJavaExample.Fs
