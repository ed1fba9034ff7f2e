import MyJavaExample.Fs.LinkCounts

/-!
# Calls that name files

In a consistent file system a lookup gives back what it takes, so a call that fails
changes nothing, and each of the others has one change of the names and of the
counts.  A link to a file that has 255 wraps around.
-/

namespace MyJavaExample.Fs

open Lib

namespace Volume

variable {s s' : Volume} {e : Env} {d k n : ℕ} {de : DirEntry} {name : List UInt8}

/-! ## Entries -/

theorem findEntry_some (hfind : s.findEntry e d name = some (k, de)) :
    (s.entries d)[k]? = some de ∧ de.inode ≠ 0 := by
  unfold findEntry at hfind
  dsimp only at hfind
  split at hfind
  next => cases hfind
  next =>
    obtain ⟨j, hj, hmap⟩ := Option.bind_eq_some_iff.1 hfind
    obtain ⟨old, hget, heq⟩ := Option.map_eq_some_iff.1 hmap
    cases heq
    obtain ⟨hlt, hmatch, -⟩ := List.findIdx?_eq_some_iff_getElem.1 hj
    obtain ⟨_, rfl⟩ := List.getElem?_eq_some_iff.1 hget
    refine ⟨hget, ?_⟩
    simp only [DirEntry.matches, Bool.and_eq_true, decide_eq_true_eq] at hmatch
    exact hmatch.1.1.1

/-- The entry `k` of `d` holds no number, or is the one after the last. -/
structure FreeEntry (s : Volume) (d k : ℕ) : Prop where
  le : k ≤ (s.entries d).length
  free : ∀ old, (s.entries d)[k]? = some old → old.inode = 0

/-- `add_entry` takes a free entry, or the one after the last. -/
theorem addEntry_some (hadd : s.addEntry e d name n = some s') :
    ∃ k, s' = s.writeEntry d k ⟨n, padName name⟩ ∧ s.FreeEntry d k := by
  unfold addEntry at hadd
  split at hadd
  next => cases hadd
  next =>
    split at hadd
    next k hk =>
      cases hadd
      obtain ⟨hlt, hfree, -⟩ := List.findIdx?_eq_some_iff_getElem.1 hk
      refine ⟨k, rfl, ⟨Nat.le_of_lt hlt, fun old hold => ?_⟩⟩
      rw [List.getElem?_eq_getElem hlt] at hold
      cases hold
      simpa using hfree
    next =>
      split at hadd
      next => cases hadd
      next =>
        cases hadd
        refine ⟨_, rfl, ⟨Nat.le_refl _, fun old hold => ?_⟩⟩
        rw [List.getElem?_eq_none (Nat.le_refl _)] at hold
        cases hold

theorem FreeEntry.congr (hk : s'.FreeEntry d k) (hentries : s'.entries d = s.entries d) :
    s.FreeEntry d k :=
  ⟨hentries ▸ hk.le, hentries ▸ hk.free⟩

theorem FreeEntry.not_any (hk : s.FreeEntry d k) (hpos : n ≠ 0) :
    ¬((s.entries d)[k]?.any (·.inode = n) = true) := by
  intro hany
  obtain ⟨old, hget, heq⟩ := (Option.any_eq_true ..).1 hany
  have heq : old.inode = n := by simpa using heq
  exact hpos (heq.symm.trans (hk.free old hget))

theorem newInode_some (hnew : s.newInode = some (n, s')) :
    s.inode n = none ∧ 1 ≤ n ∧ n ≤ s.ninodes ∧
      s' = ((s.setInode n ⟨false, 1⟩).setEntries n []).setCount n 1 := by
  unfold newInode at hnew
  obtain ⟨m, hm, heq⟩ := Option.map_eq_some_iff.1 hnew
  cases heq
  have hfree := List.find?_some hm
  have hmem := List.mem_range'_1.1 (List.mem_of_find?_eq_some hm)
  refine ⟨by simpa using hfree, hmem.1, by omega, rfl⟩

/-! ## Lookups -/

section Lookup

variable (h : s.Consistent)
include h

/-- An inode that is named has links. -/
theorem Consistent.nlinks_named (hn : s.NamedAt d k n) (hpos : n ≠ 0) : s.nlinks n ≠ 0 := by
  by_cases hdir : s.isDir n = true
  · exact h.nlinks_dir hdir
  · intro hzero
    have hlinks := h.files n (h.named d k n hn hpos) (Bool.eq_false_of_not_eq_true hdir)
    have hnames := h.names_pos hn
    rw [hzero] at hlinks
    have hno : (0 : UInt8).toNat = 0 := rfl
    omega

theorem Consistent.walk {E : String → Prop} (names : List (List UInt8))
    (hn : s.nlinks n ≠ 0 ∨ s.count n ≠ 0) :
    Ends (fun r => r = (none, s) ∨ ∃ d, r = (some d, s.hold d) ∧ s.isDir d = true) E
      (walk e names n (s.hold n)) := by
  induction names generalizing n with
  | nil =>
      rw [Volume.walk]
      refine Ends.ite (fun _ => ?_) fun hdir => .pure (.inr ⟨n, rfl, ?_⟩)
      · rw [iput_hold hn]
        exact .pure (.inl rfl)
      · simp only [isDir_hold, not_or, Bool.not_eq_false] at hdir
        exact hdir.1
  | cons name names ih =>
      rw [Volume.walk]
      refine Ends.ite (fun _ => ?_) fun hdir => ?_
      · rw [iput_hold hn]
        exact .pure (.inl rfl)
      · rw [findEntry_hold]
        cases hfind : s.findEntry e n name with
        | none =>
            dsimp only
            rw [iput_hold hn]
            exact .pure (.inl rfl)
        | some found =>
            obtain ⟨k, de⟩ := found
            obtain ⟨hget, hlive⟩ := findEntry_some hfind
            have hnamed : s.NamedAt n k de.inode := ⟨de, hget, rfl⟩
            dsimp only
            rw [iput_hold hn]
            change Ends _ _ (s.iget de.inode >>= fun s => Volume.walk e names de.inode s)
            rw [iget_eq (h.named n k de.inode hnamed hlive)]
            exact ih (.inl (h.nlinks_named hnamed hlive))

/-- A lookup does not panic while the root and the directory of the process are in use. -/
theorem Consistent.dirNamei_ends (pathname : List UInt8) :
    Ends (fun r => r = (none, s) ∨
      ∃ d basename, r = (some (d, basename), s.hold d) ∧ s.isDir d = true)
      (fun _ => s.count e.root = 0 ∨ s.count e.pwd = 0) (s.dirNamei e pathname) := by
  unfold Volume.dirNamei
  refine Ends.ite (fun hroot => .throw (.inl hroot)) fun hroot =>
    .ite (fun hpwd => .throw (.inr hpwd)) fun hpwd => ?_
  cases pathname with
  | nil => exact .pure (.inl rfl)
  | cons c rest =>
      have hstart : ∀ start names, s.count start ≠ 0 → Ends (fun r => r = (none, s) ∨
          ∃ d basename, r = (some (d, basename), s.hold d) ∧ s.isDir d = true)
          (fun _ : String => s.count e.root = 0 ∨ s.count e.pwd = 0)
          (Volume.walk e (names : List (List UInt8)).dropLast start (s.hold start) >>= fun r =>
            pure (r.1.map fun d => (d, names.getLast?.getD []), r.2)) := by
        intro start names hcount
        refine (h.walk names.dropLast (.inr hcount)).bind fun r hr => ?_
        rcases hr with rfl | ⟨d, rfl, hd⟩
        · exact .pure (.inl rfl)
        · exact .pure (.inr ⟨d, _, rfl, hd⟩)
      by_cases hc : c = 47
      · simp only [hc, if_true]
        exact hstart _ _ hroot
      · simp only [hc, if_false]
        exact hstart _ _ hpwd

theorem Consistent.dirNamei (pathname : List UInt8) :
    Ends (fun r => r = (none, s) ∨
      ∃ d basename, r = (some (d, basename), s.hold d) ∧ s.isDir d = true) (fun _ => True)
      (s.dirNamei e pathname) :=
  (h.dirNamei_ends pathname).mono (fun _ => id) fun _ _ => trivial

theorem Consistent.namei (pathname : List UInt8) :
    Ends (fun r => r = (none, s) ∨ ∃ n, r = (some n, s.hold n) ∧ s.nlinks n ≠ 0) (fun _ => True)
      (s.namei e pathname) := by
  refine (h.dirNamei pathname).bind fun r hr => ?_
  rcases hr with rfl | ⟨d, basename, rfl, hd⟩
  · exact .pure (.inl rfl)
  · have hlive := h.nlinks_dir hd
    dsimp only
    refine Ends.ite (fun _ => .pure (.inr ⟨d, rfl, hlive⟩)) fun _ => ?_
    rw [findEntry_hold]
    cases hfind : s.findEntry e d basename with
    | none =>
        dsimp only
        rw [iput_hold (.inl hlive)]
        exact .pure (.inl rfl)
    | some found =>
        obtain ⟨k, de⟩ := found
        obtain ⟨hget, hinode⟩ := findEntry_some hfind
        have hnamed : s.NamedAt d k de.inode := ⟨de, hget, rfl⟩
        dsimp only
        rw [iput_hold (.inl hlive)]
        change Ends _ _ (s.iget de.inode >>= fun s => pure (some de.inode, s))
        rw [iget_eq (h.named d k de.inode hnamed hinode)]
        exact .pure (.inr ⟨de.inode, rfl, h.nlinks_named hnamed hinode⟩)

end Lookup

/-! ## Calls that fail -/

theorem fail_hold {errno : ℤ} (hd : s.nlinks d ≠ 0) : (s.hold d).fail d errno = .ok (-errno, s) := by
  rw [fail, iput_hold (.inl hd)]
  rfl

theorem fail₂_hold {errno : ℤ} (hd : s.nlinks d ≠ 0) (hn : s.nlinks n ≠ 0) :
    ((s.hold d).hold n).fail₂ n d errno = .ok (-errno, s) := by
  have hrelease : ((s.hold d).hold n).iput n = .ok (s.hold d) := iput_hold (.inl hn)
  rw [fail₂, hrelease]
  exact fail_hold hd

theorem fail₂_hold' {errno : ℤ} (hd : s.nlinks d ≠ 0) (hn : s.nlinks n ≠ 0) :
    ((s.hold d).hold n).fail₂ d n errno = .ok (-errno, s) := by
  rw [hold_comm]
  exact fail₂_hold hn hd

/-- A directory that is in use stays so when an inode is taken. -/
theorem hold_newInode {i : LinkInode} (hnd : d ≠ n) : ((s.hold d).setInode n i).setCount n 1 =
    ((s.setInode n i).setCount n 1).hold d := by
  simp [hold, setCount, setInode, hnd, Function.update_comm hnd]

/-- The last release of a new inode that has no links and no entries. -/
theorem iput_newInode (hn : s.inode n = none) (hempty : s.entries n = []) (hcount : s.count n = 0) :
    (((s.setInode n ⟨false, 1⟩).setCount n 1).setLinks n 0).iput n = .ok s := by
  have hone : (((s.setInode n ⟨false, 1⟩).setCount n 1).setLinks n 0).count n = 1 :=
    Function.update_self ..
  have hzero : (((s.setInode n ⟨false, 1⟩).setCount n 1).setLinks n 0).nlinks n = 0 := by
    rw [nlinks_setLinks, if_pos rfl]
  rw [iput_eq (by omega), if_pos ⟨hone, hzero⟩]
  simp [freeInode, setLinks, setInode, setCount, ← hn, ← hempty, ← hcount]

theorem iget_ends {E : String → Prop} (hn : s.inode n ≠ none) :
    Ends (fun s' => s' = s.hold n) E (s.iget n) := by
  rw [iget_eq hn]
  exact .pure rfl

/-! ## Wrong counts -/

theorem LinksMatch.setCount_iff {c : ℕ} : (s.setCount n c).LinksMatch ↔ s.LinksMatch :=
  ⟨fun h => ⟨h.files, h.dirs, h.named⟩, fun h => ⟨h.files, h.dirs, h.named⟩⟩

/-- A count that is wrong stays wrong when an inode with an entry is released. -/
theorem iput_wrong (hwrong : ¬s.LinksMatch) (hcount : s.count n ≠ 0)
    (hkeep : s.nlinks n ≠ 0 ∨ ∃ d k, s.NamedAt d k n ∧ d ≠ n ∧ n ≠ 0) :
    ∃ u, s.iput n = .ok u ∧ ¬u.LinksMatch := by
  refine ⟨_, iput_eq hcount, fun hmatch => ?_⟩
  split at hmatch
  next hfree =>
    obtain hlinks | ⟨d, k, ⟨de, hde, hinode⟩, hdn, hpos⟩ := hkeep
    · exact hlinks hfree.2
    · have hstays : (s.freeInode n).NamedAt d k n := by
        refine ⟨de, ?_, hinode⟩
        rw [← hde]
        exact congrArg (·[k]?) (Function.update_of_ne hdn ..)
      exact hmatch.inode_ne hstays hpos (Function.update_self ..)
  next => exact hwrong (LinksMatch.setCount_iff.1 hmatch)

/-! ## Calls that keep the counts -/

section Calls

variable (h : s.Consistent)
include h

theorem Consistent.congr (hsize : s'.ninodes = s.ninodes) (hinode : s'.inode = s.inode)
    (hentries : s'.entries = s.entries) : s'.Consistent := by
  obtain ⟨ninodes, inode, entries, count⟩ := s
  obtain ⟨ninodes', inode', entries', count'⟩ := s'
  cases hsize
  cases hinode
  cases hentries
  exact ⟨h.used, h.noEntries, h.named, h.self, h.parent, h.once, h.files, h.dirs⟩

theorem Consistent.unlinked (hget : (s.entries d)[k]? = some de) (hlive : de.inode ≠ 0)
    (hfile : s.isDir de.inode = false) :
    ((s.clearEntry d k de).setLinks de.inode (s.nlinks de.inode - 1)).Consistent := by
  have hnamed : s.NamedAt d k de.inode := ⟨de, hget, rfl⟩
  have hk : k < (s.entries d).length := (List.getElem?_eq_some_iff.1 hget).1
  refine h.write (h.named d k de.inode hnamed hlive) hfile (h.isDir_of_namedAt hnamed)
    (Nat.le_of_lt hk) (fun old hold => .inr ?_) (.inl rfl) ?_
  · rw [hget] at hold
    cases hold
    rfl
  · rw [hget, Option.any_some, if_pos (by simp), if_neg (Ne.symm hlive)]
    exact nlinks_pred (h.nlinks_named hnamed hlive)

theorem Consistent.sysUnlink (pathname : List UInt8) :
    Ends (fun r => r.2.Consistent) (fun _ => True) (s.sysUnlink e pathname) := by
  refine (h.dirNamei pathname).bind fun r hr => ?_
  rcases hr with rfl | ⟨d, basename, rfl, hd⟩
  · exact .pure h
  have hdir := h.nlinks_dir hd
  dsimp only
  refine Ends.ite (fun _ => ?_) fun _ => .ite (fun _ => ?_) fun _ => ?_
  · rw [fail_hold hdir]
    exact .pure h
  · rw [fail_hold hdir]
    exact .pure h
  rw [findEntry_hold]
  cases hfind : s.findEntry e d basename with
  | none =>
      dsimp only
      rw [fail_hold hdir]
      exact .pure h
  | some found =>
      obtain ⟨k, de⟩ := found
      obtain ⟨hget, hlive⟩ := findEntry_some hfind
      have hnamed : s.NamedAt d k de.inode := ⟨de, hget, rfl⟩
      have hlinks := h.nlinks_named hnamed hlive
      have hinode : (s.hold d).inode de.inode ≠ none := h.named d k de.inode hnamed hlive
      refine (iget_ends hinode).bind fun t ht => ?_
      subst ht
      refine Ends.ite (fun _ => ?_) fun _ => .ite (fun _ => ?_) fun hfile => ?_
      · rw [fail₂_hold' hdir hlinks]
        exact .pure h
      · rw [fail₂_hold hdir hlinks]
        exact .pure h
      · rw [nlinks_hold, nlinks_hold, if_neg hlinks]
        have hunlinked := (h.hold.hold : ((s.hold d).hold de.inode).Consistent).unlinked hget hlive
          (Bool.eq_false_of_not_eq_true hfile)
        exact hunlinked.iput.bind fun t ht => ht.iput.bind fun _ ht' => .pure ht'

/-- A new inode has no entries left from an earlier one. -/
theorem Consistent.newInode_some (hnew : s.newInode = some (n, s')) :
    s.inode n = none ∧ 1 ≤ n ∧ n ≤ s.ninodes ∧ s' = (s.setInode n ⟨false, 1⟩).setCount n 1 := by
  obtain ⟨hn, hpos, hle, rfl⟩ := Volume.newInode_some hnew
  refine ⟨hn, hpos, hle, ?_⟩
  have hempty : s.entries n = [] := h.noEntries n (by simp [isDir, hn])
  have hsame : (s.setInode n ⟨false, 1⟩).setEntries n [] = s.setInode n ⟨false, 1⟩ := by
    have hnil : [] = (s.setInode n ⟨false, 1⟩).entries n := hempty.symm
    rw [setEntries, Function.update_eq_self_iff.2 hnil]
  rw [hsame]

/-- A new inode that gets no name loses its link. -/
theorem Consistent.dropped (hn : s.inode n = none) (hpos : 1 ≤ n) (hle : n ≤ s.ninodes) :
    (((s.setInode n ⟨false, 1⟩).setCount n 1).setLinks n
      (((s.setInode n ⟨false, 1⟩).setCount n 1).nlinks n - 1)).Consistent := by
  refine (h.newFile hn hpos hle).congr rfl ?_ rfl
  simp [setLinks, setInode, Volume.setCount, nlinks, isDir]

/-- A new inode gets its first name. -/
theorem Consistent.created (hn : s.inode n = none) (hpos : 1 ≤ n) (hle : n ≤ s.ninodes)
    (hd : s.isDir d = true) (hk : s.FreeEntry d k) :
    ((s.setInode n ⟨false, 1⟩).writeEntry d k ⟨n, name⟩).Consistent := by
  have hnd : d ≠ n := by
    rintro rfl
    exact inode_of_isDir hd hn
  have hfile : (s.setInode n ⟨false, 0⟩).isDir n = false := by simp [setInode, isDir]
  have hdir : (s.setInode n ⟨false, 0⟩).isDir d = true := by
    rw [← hd]
    simp [setInode, isDir, hnd]
  have hwrite : (((s.setInode n ⟨false, 0⟩).writeEntry d k ⟨n, name⟩).setLinks n 1).Consistent := by
    refine (h.newFile hn hpos hle).write (by simp [setInode]) hfile hdir hk.le
      (fun old hold => .inl (hk.free old hold)) (.inr rfl) ?_
    change _ + (if (s.entries d)[k]?.any (·.inode = n) = true then 1 else 0) = _
    rw [if_neg (hk.not_any (Nat.ne_of_gt hpos)), if_pos rfl]
    simp [setInode, nlinks]
  refine hwrite.congr rfl ?_ rfl
  have hsame : ((s.setInode n ⟨false, 0⟩).writeEntry d k ⟨n, name⟩).isDir n = false := hfile
  change Function.update s.inode n _ =
    Function.update (Function.update s.inode n _) n (some ⟨_, 1⟩)
  rw [hsame, Function.update_idem]

theorem Consistent.openNamei (pathname : List UInt8) (excl writes : Bool) :
    Ends (fun r => r.2.Consistent) (fun _ => True) (s.openNamei e pathname excl writes) := by
  refine (h.dirNamei pathname).bind fun r hr => ?_
  rcases hr with rfl | ⟨d, basename, rfl, hd⟩
  · exact .pure h
  have hdir := h.nlinks_dir hd
  dsimp only
  refine Ends.ite (fun _ => ?_) fun _ => ?_
  · rw [fail_hold hdir]
    exact .pure h
  rw [findEntry_hold]
  cases hfind : s.findEntry e d basename with
  | none =>
      refine Ends.ite (fun _ => ?_) fun _ => ?_
      · rw [fail_hold hdir]
        exact .pure h
      cases hnew : (s.hold d).newInode with
      | none =>
          dsimp only
          rw [fail_hold hdir]
          exact .pure h
      | some found =>
          obtain ⟨n, t⟩ := found
          obtain ⟨hn, hpos, hle, rfl⟩ := h.hold.newInode_some hnew
          dsimp only
          split
          next =>
            have hnone := h.hold.dropped hn hpos hle
            exact hnone.iput.bind fun t ht => ht.iput.bind fun t ht => .pure ht
          next t hadd =>
            obtain ⟨k, rfl, hk⟩ := addEntry_some hadd
            have hcreated : ((((s.hold d).setInode n ⟨false, 1⟩).setCount n 1).writeEntry d k
                ⟨n, padName basename⟩).Consistent :=
              (h.created hn hpos hle hd ⟨hk.le, hk.free⟩).congr rfl rfl rfl
            exact hcreated.iput.bind fun t ht => .pure ht
  | some found =>
      obtain ⟨k, de⟩ := found
      obtain ⟨hget, hlive⟩ := findEntry_some hfind
      have hnamed : s.NamedAt d k de.inode := ⟨de, hget, rfl⟩
      have hlinks := h.nlinks_named hnamed hlive
      dsimp only
      rw [iput_hold (.inl hdir)]
      refine Ends.ite (fun _ => .pure h) fun _ => ?_
      refine (iget_ends (h.named d k de.inode hnamed hlive)).bind fun t ht => ?_
      subst ht
      refine Ends.ite (fun _ => ?_) fun _ => .pure h.hold
      rw [fail_hold hlinks]
      exact .pure h

/-- A file gets a link and an entry. -/
theorem Consistent.linked (hn : s.inode n ≠ none) (hfile : s.isDir n = false)
    (hd : s.isDir d = true) (hk : s.FreeEntry d k) (hmax : s.nlinks n ≠ 255) :
    ((s.writeEntry d k ⟨n, name⟩).setLinks n (s.nlinks n + 1)).Consistent := by
  have hpos := h.used n hn
  refine h.write hn hfile hd hk.le (fun old hold => .inl (hk.free old hold)) (.inr rfl) ?_
  rw [if_neg (hk.not_any (by omega)), if_pos rfl, nlinks_succ hmax]

/-- What `sys_link` has done before it counts the link: nothing, or it holds a file
that has a new entry. -/
def LinkMade (s : Volume) (r : (ℤ ⊕ ℕ) × Volume) : Prop :=
  (∃ errno, r = (.inl errno, s)) ∨
    ∃ n d k name, r = (.inr n, (s.hold n).writeEntry d k ⟨n, name⟩) ∧ s.inode n ≠ none ∧
      s.isDir n = false ∧ s.isDir d = true ∧ s.FreeEntry d k

theorem Consistent.linkEntry (oldname newname : List UInt8) :
    Ends s.LinkMade (fun _ => True) (s.linkEntry e oldname newname) := by
  refine (h.namei oldname).bind fun r hr => ?_
  rcases hr with rfl | ⟨n, rfl, hlinks⟩
  · exact .pure (.inl ⟨_, rfl⟩)
  have hrefuse : (s.hold n).iput n = .ok s := iput_hold (.inl hlinks)
  dsimp only
  refine Ends.ite (fun _ => ?_) fun hfile => ?_
  · rw [hrefuse]
    exact .pure (.inl ⟨_, rfl⟩)
  refine (h.hold.dirNamei newname).bind fun r hr => ?_
  rcases hr with rfl | ⟨d, basename, rfl, hd⟩
  · dsimp only
    rw [hrefuse]
    exact .pure (.inl ⟨_, rfl⟩)
  have hdir : (s.hold n).nlinks d ≠ 0 := h.nlinks_dir hd
  have hrelease : ((s.hold n).hold d).iput d = .ok (s.hold n) := iput_hold (.inl hdir)
  have hrefuse₂ : ∀ errno : ℤ, Ends s.LinkMade (fun _ => True)
      (((s.hold n).hold d).iput d >>= fun s => s.iput n >>= fun s =>
        (pure (.inl (-errno), s) : Except String ((ℤ ⊕ ℕ) × Volume))) := by
    intro errno
    rw [hrelease]
    change Ends _ _ ((s.hold n).iput n >>= fun s => pure (Sum.inl (-errno), s))
    rw [hrefuse]
    exact .pure (.inl ⟨_, rfl⟩)
  dsimp only
  refine Ends.ite (fun _ => hrefuse₂ _) fun _ => .ite (fun _ => hrefuse₂ _) fun _ => ?_
  split
  next => exact hrefuse₂ _
  next =>
    split
    next => exact hrefuse₂ _
    next t hadd =>
      obtain ⟨k, rfl, hk⟩ := addEntry_some hadd
      have hlink : ((((s.hold n).hold d).writeEntry d k ⟨n, padName basename⟩)).iput d =
          .ok ((s.hold n).writeEntry d k ⟨n, padName basename⟩) := by
        have hd' : ((s.hold n).writeEntry d k ⟨n, padName basename⟩).nlinks d ≠ 0 := hdir
        exact iput_hold (.inl hd')
      rw [hlink]
      have hn : s.inode n ≠ none := inode_of_nlinks hlinks
      have hfile := Bool.eq_false_of_not_eq_true hfile
      exact .pure (.inr ⟨n, d, k, _, rfl, hn, hfile, hd, hk.le, hk.free⟩)

theorem Consistent.sysLink (oldname newname : List UInt8)
    (hmax : ∀ n s', s.linkEntry e oldname newname = .ok (.inr n, s') → s.nlinks n ≠ 255) :
    Ends (fun r => r.2.Consistent) (fun _ => True) (s.sysLink e oldname newname) := by
  have hmade := h.linkEntry (e := e) oldname newname
  unfold Volume.sysLink
  cases hentry : s.linkEntry e oldname newname with
  | error => trivial
  | ok r =>
      rw [hentry] at hmade
      rcases hmade with ⟨errno, rfl⟩ | ⟨n, d, k, name, rfl, hn, hfile, hd, hk⟩
      · exact h
      · have hlinked : (((s.hold n).writeEntry d k ⟨n, name⟩).setLinks n
            (s.nlinks n + 1)).Consistent :=
          (h.linked hn hfile hd hk (hmax n _ hentry)).congr rfl rfl rfl
        exact hlinked.iput.bind fun t ht => .pure ht

/-- The link that is one too many. -/
theorem Consistent.sysLink_wraps {oldname newname : List UInt8}
    (hentry : s.linkEntry e oldname newname = .ok (.inr n, s')) (hmax : s.nlinks n = 255) :
    ∃ u, s.sysLink e oldname newname = .ok (0, u) ∧ ¬u.LinksMatch := by
  have hmade := h.linkEntry (e := e) oldname newname
  rw [hentry] at hmade
  rcases hmade with ⟨errno, heq⟩ | ⟨n, d, k, name, heq, hn, hfile, hd, hk⟩
  · cases heq
  cases heq
  have hpos := h.used n hn
  have hnamed : (s.writeEntry d k ⟨n, name⟩).NamedAt d k n := by
    rw [namedAt_writeEntry hk.le, if_pos ⟨rfl, rfl⟩]
  have hcount : (s.hold n).count n ≠ 0 := by
    rw [count_hold, if_pos rfl]
    omega
  have hdn : d ≠ n := by
    rintro rfl
    cases hd.symm.trans hfile
  have hwrong : ¬(((s.hold n).writeEntry d k ⟨n, name⟩).setLinks n (s.nlinks n + 1)).LinksMatch := by
    intro hmatch
    have hlinks := hmatch.files n ⟨s.isDir n, s.nlinks n + 1⟩ (Function.update_self ..) hfile
    have hnames := hnamed.names_pos (h.dir_le hd)
    change (s.nlinks n + 1).toNat = (s.writeEntry d k ⟨n, name⟩).names n at hlinks
    rw [hmax] at hlinks
    have hzero : (255 + 1 : UInt8).toNat = 0 := rfl
    omega
  obtain ⟨u, hput, hu⟩ := iput_wrong hwrong hcount (.inr ⟨d, k, hnamed, hdn, by omega⟩)
  refine ⟨u, ?_, hu⟩
  unfold Volume.sysLink
  rw [hentry]
  change (Volume.iput _ n >>= fun s => pure (0, s)) = _
  exact congrArg (· >>= fun s => pure (0, s)) hput

end Calls

end Volume

end MyJavaExample.Fs
