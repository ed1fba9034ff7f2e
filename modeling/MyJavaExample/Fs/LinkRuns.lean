import MyJavaExample.Fs.LinkCalls

/-!
# Calls that name directories, and runs

`sys_mkdir` counts a link of the parent and `sys_rmdir` takes it back.  The counts are
bytes: a run keeps them right exactly if no call adds a link to an inode that has 255.
-/

namespace MyJavaExample.Fs

open Lib

namespace Volume

variable {s s' : Volume} {e : Env} {d k n : ℕ} {de : DirEntry} {name : List UInt8}

/-! ## Directories -/

/-- The directory `n` and its entry in `d`, which has no link for it yet. -/
def newDir (s : Volume) (d k n : ℕ) (name : List UInt8) : Volume :=
  ((s.setInode n ⟨true, 2⟩).setEntries n [⟨n, padName dot⟩, ⟨d, padName dotDot⟩]).writeEntry d k
    ⟨n, name⟩

theorem nlinks_newDir (hnd : d ≠ n) : (s.newDir d k n name).nlinks d = s.nlinks d := by
  simp [newDir, writeEntry, setEntries, setInode, nlinks, hnd]

/-- A directory that is empty has nothing after its first two entries. -/
theorem emptyDir_drop (hempty : s.emptyDir e n = true) :
    ∀ old ∈ (s.entries n).drop 2, old.inode = 0 := by
  unfold emptyDir at hempty
  split at hempty
  next de₀ de₁ rest hl =>
    rw [hl]
    simp only [Bool.and_eq_true, List.all_eq_true, decide_eq_true_eq] at hempty
    exact hempty.2
  next => cases hempty

theorem isDir_newDir (hnd : d ≠ n) : (s.newDir d k n name).isDir d = s.isDir d := by
  simp [newDir, writeEntry, setEntries, setInode, isDir, hnd]

/-- What `sys_mkdir` has done before it counts the link: nothing that matters, or it
holds the directory and the new one. -/
def DirMade (s : Volume) (r : (ℤ ⊕ ℕ × ℕ) × Volume) : Prop :=
  (∃ errno t, r = (.inl errno, t) ∧ t.Consistent) ∨
    ∃ d k n name, r = (.inr (d, n), ((s.newDir d k n name).hold d).setCount n 1) ∧
      s.inode n = none ∧ 1 ≤ n ∧ n ≤ s.ninodes ∧ s.isDir d = true ∧ s.FreeEntry d k

/-- The parent is released and then the directory, which nothing else uses. -/
theorem iput_removed (hne : n ≠ d) (hkeep : s.nlinks d - 1 ≠ 0) (hlast : s.count n = 0) : ∃ t,
    (((((s.hold d).hold n).clearEntry d k de).setLinks n 0).setLinks d (s.nlinks d - 1)).iput d =
        .ok t ∧
      ∃ u, t.iput n = .ok u ∧ u.ninodes = (s.removeDir d k n de).ninodes ∧
        u.inode = (s.removeDir d k n de).inode ∧ u.entries = (s.removeDir d k n de).entries := by
  have hnlinks :
      (((s.clearEntry d k de).setLinks n 0).setLinks d (s.nlinks d - 1)).nlinks d ≠ 0 := by
    rwa [nlinks_setLinks, if_pos rfl]
  have hnone :
      ((((s.clearEntry d k de).setLinks n 0).setLinks d (s.nlinks d - 1)).hold n).nlinks n = 0 := by
    rw [nlinks_hold, nlinks_setLinks, if_neg hne, nlinks_setLinks, if_pos rfl]
  have hcount :
      ((((s.clearEntry d k de).setLinks n 0).setLinks d (s.nlinks d - 1)).hold n).count n = 1 := by
    rw [count_hold, if_pos rfl]
    exact congrArg (· + 1) hlast
  refine ⟨(((s.clearEntry d k de).setLinks n 0).setLinks d (s.nlinks d - 1)).hold n, ?_, _,
    (iput_eq (by omega)).trans (congrArg _ (if_pos ⟨hcount, hnone⟩)), rfl, ?_, rfl⟩
  · have hheld : ((((s.hold d).hold n).clearEntry d k de).setLinks n 0).setLinks d
          (s.nlinks d - 1) =
        ((((s.clearEntry d k de).setLinks n 0).setLinks d (s.nlinks d - 1)).hold n).hold d := by
      rw [hold_comm]
      rfl
    rw [hheld]
    exact iput_hold (.inl hnlinks)
  · have hsame : ((s.clearEntry d k de).setLinks n 0).isDir d = (s.clearEntry d k de).isDir d :=
      isDir_setLinks
    change Function.update (Function.update (Function.update s.inode n _) d (some ⟨_, _⟩)) n none =
      Function.update (Function.update s.inode d (some ⟨_, _⟩)) n none
    rw [hsame, Function.update_comm (Ne.symm hne), Function.update_idem]
    exact Function.update_comm hne ..

section Calls

variable (h : s.Consistent)
include h

theorem Consistent.mkdirEntry (pathname : List UInt8) :
    Ends s.DirMade (fun _ => True) (s.mkdirEntry e pathname) := by
  refine Ends.ite (fun _ => .pure (.inl ⟨_, _, rfl, h⟩)) fun _ => ?_
  refine (h.dirNamei pathname).bind fun r hr => ?_
  rcases hr with rfl | ⟨d, basename, rfl, hd⟩
  · exact .pure (.inl ⟨_, _, rfl, h⟩)
  have hdir := h.nlinks_dir hd
  have hrefuse : ∀ errno : ℤ, Ends s.DirMade (fun _ => True) ((s.hold d).iput d >>= fun s =>
      (pure (.inl (-errno), s) : Except String ((ℤ ⊕ ℕ × ℕ) × Volume))) := by
    intro errno
    rw [iput_hold (.inl hdir)]
    exact .pure (.inl ⟨_, _, rfl, h⟩)
  dsimp only
  refine Ends.ite (fun _ => hrefuse _) fun _ => .ite (fun _ => hrefuse _) fun _ => ?_
  split
  next => exact hrefuse _
  next =>
    split
    next => exact hrefuse _
    next n t hnew =>
      obtain ⟨hn, hpos, hle, rfl⟩ := h.hold.newInode_some hnew
      have hnd : d ≠ n := by
        rintro rfl
        exact inode_of_isDir hd hn
      have hdrop : ∀ errno : ℤ, Ends s.DirMade (fun _ => True)
          ((((s.hold d).setInode n ⟨false, 1⟩).setCount n 1).iput d >>= fun s =>
            (s.setLinks n (s.nlinks n - 1)).iput n >>= fun s =>
              (pure (.inl (-errno), s) : Except String ((ℤ ⊕ ℕ × ℕ) × Volume))) := by
        intro errno
        have hlive : ((s.setInode n ⟨false, 1⟩).setCount n 1).nlinks d ≠ 0 := by
          simpa [Volume.setCount, setInode, nlinks, hnd] using hdir
        rw [hold_newInode hnd, iput_hold (.inl hlive)]
        exact (h.dropped hn hpos hle).iput.bind fun t ht => .pure (.inl ⟨_, _, rfl, ht⟩)
      refine Ends.ite (fun _ => hdrop _) fun _ => .ite (fun _ => hdrop _) fun _ => ?_
      split
      next => exact .throw trivial
      next t hadd =>
        obtain ⟨k, rfl, hk⟩ := addEntry_some hadd
        refine .pure (.inr ⟨d, k, n, padName basename, ?_, hn, hpos, hle, hd, ?_⟩)
        · simp [newDir, writeEntry, setEntries, setInode, Volume.setCount, Volume.hold]
        · exact hk.congr (Function.update_of_ne hnd ..)

theorem Consistent.sysMkdir (pathname : List UInt8)
    (hmax : ∀ d n s', s.mkdirEntry e pathname = .ok (.inr (d, n), s') → s.nlinks d ≠ 255) :
    Ends (fun r => r.2.Consistent) (fun _ => True) (s.sysMkdir e pathname) := by
  have hmade := h.mkdirEntry (e := e) pathname
  unfold Volume.sysMkdir
  cases hentry : s.mkdirEntry e pathname with
  | error => trivial
  | ok r =>
      rw [hentry] at hmade
      rcases hmade with ⟨errno, t, rfl, ht⟩ | ⟨d, k, n, name, rfl, hn, hpos, hle, hd, hk⟩
      · exact ht
      · have hnd : d ≠ n := by
          rintro rfl
          exact inode_of_isDir hd hn
        have hadd : ((s.newDir d k n name).setLinks d
            ((s.newDir d k n name).nlinks d + 1)).Consistent := by
          rw [nlinks_newDir hnd]
          exact h.addDir hn hpos hle hd hk.le hk.free (hmax d n _ hentry)
        have hcounted : ((((s.newDir d k n name).hold d).setCount n 1).setLinks d
            ((((s.newDir d k n name).hold d).setCount n 1).nlinks d + 1)).Consistent :=
          hadd.congr rfl rfl rfl
        exact hcounted.iput.bind fun t ht => ht.iput.bind fun t ht => .pure ht

/-- The directory that is one too many. -/
theorem Consistent.sysMkdir_wraps {pathname : List UInt8}
    (hentry : s.mkdirEntry e pathname = .ok (.inr (d, n), s')) (hmax : s.nlinks d = 255) :
    ∃ u, s.sysMkdir e pathname = .ok (0, u) ∧ ¬u.LinksMatch := by
  have hmade := h.mkdirEntry (e := e) pathname
  rw [hentry] at hmade
  rcases hmade with ⟨errno, t, heq, ht⟩ | ⟨d, k, n, name, heq, hn, hpos, hle, hd, hk⟩
  · cases heq
  cases heq
  have hnd : d ≠ n := by
    rintro rfl
    exact inode_of_isDir hd hn
  have hwrong : ¬((((s.newDir d k n name).hold d).setCount n 1).setLinks d
      (s.nlinks d + 1)).LinksMatch := by
    intro hmatch
    have hisDir : (s.newDir d k n name).isDir d = true := (isDir_newDir hnd).trans hd
    have hlinks := hmatch.dirs d ⟨(s.newDir d k n name).isDir d, s.nlinks d + 1⟩
      (Function.update_self ..) hisDir
    change (s.nlinks d + 1).toNat = _ at hlinks
    rw [hmax] at hlinks
    have hzero : (255 + 1 : UInt8).toNat = 0 := rfl
    omega
  have hparent : (s.newDir d k n name).NamedAt n 1 d := by
    rw [newDir, writeEntry, namedAt_setEntries, if_neg (Ne.symm hnd), namedAt_setEntries,
      if_pos rfl]
    exact ⟨_, rfl, rfl⟩
  have hused := h.used d (inode_of_isDir hd)
  have hheld : (((s.newDir d k n name).hold d).setCount n 1).count d ≠ 0 := by
    simp [Volume.setCount, Volume.hold, hnd]
  obtain ⟨t, hput, ht⟩ := iput_wrong hwrong hheld (.inr ⟨n, 1, hparent, Ne.symm hnd, by omega⟩)
  obtain ⟨hsame, hsame'⟩ := iput_other hput (Ne.symm hnd)
  have hlinks : t.nlinks n ≠ 0 := by
    rw [hsame, nlinks_setLinks, if_neg (Ne.symm hnd)]
    simp [newDir, writeEntry, setEntries, setInode, nlinks, Volume.hold, Volume.setCount]
  have hcount : t.count n ≠ 0 := by
    rw [hsame']
    simp [setLinks, setInode, Volume.setCount]
  obtain ⟨u, hput', hu⟩ := iput_wrong ht hcount (.inl hlinks)
  refine ⟨u, ?_, hu⟩
  unfold Volume.sysMkdir
  rw [hentry]
  have hsum : (s.newDir d k n name).nlinks d = s.nlinks d := nlinks_newDir hnd
  change (((((s.newDir d k n name).hold d).setCount n 1).setLinks d
    ((s.newDir d k n name).nlinks d + 1)).iput d >>= fun s =>
      s.iput n >>= fun s => pure (0, s)) = _
  rw [hsum, hput]
  change (t.iput n >>= fun s => pure (0, s)) = _
  rw [hput']
  rfl

theorem Consistent.sysRmdir (pathname : List UInt8) :
    Ends (fun r => r.2.Consistent) (fun _ => True) (s.sysRmdir e pathname) := by
  refine Ends.ite (fun _ => .pure h) fun _ => ?_
  refine (h.dirNamei pathname).bind fun r hr => ?_
  rcases hr with rfl | ⟨d, basename, rfl, hd⟩
  · exact .pure h
  have hdir := h.nlinks_dir hd
  have hfail : ∀ errno,
      Ends (fun r => r.2.Consistent) (fun _ => True) ((s.hold d).fail d errno) := by
    intro errno
    rw [fail_hold hdir]
    exact .pure h
  dsimp only
  refine Ends.ite (fun _ => hfail _) fun _ => .ite (fun _ => hfail _) fun _ => ?_
  rw [findEntry_hold]
  cases hfind : s.findEntry e d basename with
  | none => exact hfail _
  | some found =>
      obtain ⟨k, de⟩ := found
      obtain ⟨hget, hlive⟩ := findEntry_some hfind
      have hnamed : s.NamedAt d k de.inode := ⟨de, hget, rfl⟩
      have hlinks := h.nlinks_named hnamed hlive
      have hinode : (s.hold d).inode de.inode ≠ none := h.named d k de.inode hnamed hlive
      refine (iget_ends hinode).bind fun t ht => ?_
      subst ht
      have hfail₂ : ∀ errno, Ends (fun r => r.2.Consistent) (fun _ => True)
          (((s.hold d).hold de.inode).fail₂ de.inode d errno) := by
        intro errno
        rw [fail₂_hold hdir hlinks]
        exact .pure h
      have hfail₂' : ∀ errno, Ends (fun r => r.2.Consistent) (fun _ => True)
          (((s.hold d).hold de.inode).fail₂ d de.inode errno) := by
        intro errno
        rw [fail₂_hold' hdir hlinks]
        exact .pure h
      refine Ends.ite (fun _ => hfail₂' _) fun _ => .ite (fun _ => hfail₂' _) fun hcount =>
        .ite (fun _ => hfail₂ _) fun hne => .ite (fun _ => hfail₂ _) fun hisDir =>
        .ite (fun _ => hfail₂ _) fun hempty => ?_
      have hisDir' : s.isDir de.inode = true := Bool.eq_true_of_not_eq_false hisDir
      have hempty' := emptyDir_drop (Bool.eq_true_of_not_eq_false hempty)
      have hremoved := h.removeDir hd hisDir' hne hget rfl hempty'
      have hlast : s.count de.inode = 0 := by
        rw [count_hold, if_pos rfl, count_hold, if_neg hne] at hcount
        omega
      have htwo := (h.dirs d hd).trans (h.countP_isDir hd)
      have hpred := nlinks_pred hdir
      have hkeep : s.nlinks d - 1 ≠ 0 := by
        intro hzero
        rw [hzero] at hpred
        have hno : (0 : UInt8).toNat = 0 := rfl
        omega
      obtain ⟨t, hput, u, hput', hsize, hinode', hentries⟩ :=
        @iput_removed s d k de.inode de hne hkeep hlast
      refine Ends.bind (P := fun s' => s' = t) ?_ fun _ heq => ?_
      · have hparent : ((((s.hold d).hold de.inode).clearEntry d k de).setLinks
            de.inode 0).nlinks d = s.nlinks d := by
          rw [nlinks_setLinks, if_neg (Ne.symm hne)]
          rfl
        rw [hparent, hput]
        exact .pure rfl
      subst heq
      rw [hput']
      exact .pure (hremoved.congr hsize hinode' hentries)

end Calls

/-! ## Runs -/

/-- The call adds no link to an inode that has 255. -/
def Fits (s : Volume) : LinkCall → Prop
  | .link e oldname newname => ∀ n s',
      s.linkEntry e oldname newname = .ok (.inr n, s') → s.nlinks n ≠ 255
  | .mkdir e pathname => ∀ d n s',
      s.mkdirEntry e pathname = .ok (.inr (d, n), s') → s.nlinks d ≠ 255
  | _ => True

theorem Consistent.run (h : s.Consistent) (c : LinkCall) (hfits : s.Fits c) :
    Ends (fun r => r.2.Consistent) (fun _ => True) (c.run s) := by
  cases c with
  | openNamei e pathname excl writes => exact h.openNamei pathname excl writes
  | link e oldname newname => exact h.sysLink oldname newname hfits
  | unlink e pathname => exact h.sysUnlink pathname
  | mkdir e pathname => exact h.sysMkdir pathname hfits
  | rmdir e pathname => exact h.sysRmdir pathname
  | put n => exact h.iput.bind fun t ht => .pure ht

theorem Consistent.next (h : s.Consistent) (c : LinkCall) (hfits : s.Fits c) :
    (s.next c).Consistent := by
  have hrun := h.run c hfits
  unfold Volume.next
  split
  next r s' heq =>
    rw [heq] at hrun
    exact hrun
  next => exact h

theorem next_eq {c : LinkCall} {r : ℤ} (hrun : c.run s = .ok (r, s')) : s.next c = s' := by
  rw [next, hrun]

theorem Consistent.next_wraps (h : s.Consistent) (c : LinkCall) (hfits : ¬s.Fits c) :
    ¬(s.next c).LinksMatch := by
  cases c with
  | link e oldname newname =>
      simp only [Fits, not_forall, not_not] at hfits
      obtain ⟨n, s', hentry, hmax⟩ := hfits
      obtain ⟨u, hrun, hu⟩ := h.sysLink_wraps hentry hmax
      have hnext : s.next (.link e oldname newname) = u := next_eq hrun
      rwa [hnext]
  | mkdir e pathname =>
      simp only [Fits, not_forall, not_not] at hfits
      obtain ⟨d, n, s', hentry, hmax⟩ := hfits
      obtain ⟨u, hrun, hu⟩ := h.sysMkdir_wraps hentry hmax
      have hnext : s.next (.mkdir e pathname) = u := next_eq hrun
      rwa [hnext]
  | openNamei | unlink | rmdir | put => exact absurd trivial hfits

/-- In a run the numbers of links are right all along exactly if no call adds a link
to an inode that has 255. -/
theorem linksMatch_iff (h : s.Consistent) (calls : List LinkCall) :
    Always Volume.next LinksMatch s calls ↔ EachStep Volume.next Fits s calls :=
  always_iff (fun _ => Consistent.linksMatch) (fun _ c hs _ hfits => hs.next c hfits)
    (fun _ c hs _ hfits => hs.next_wraps c hfits) h (EachStep.of_forall fun _ _ => trivial)

/-! ## A file with many names -/

/-- The root directory with `c` names of the file 2. -/
def namedVolume (c : ℕ) : Volume where
  ninodes := 3
  inode n := if n = 1 then some ⟨true, 2⟩ else if n = 2 then some ⟨false, .ofNat c⟩ else none
  entries d := if d = 1 then
      ⟨1, padName dot⟩ :: ⟨1, padName dotDot⟩ ::
        (List.range c).map fun i => ⟨2, padName [97 + .ofNat (i / 16), 97 + .ofNat (i % 16)]⟩
    else []
  count n := if n = 1 then 1 else 0

def superuser : Env where
  root := 1
  pwd := 1
  suser := true
  mayExec _ := true
  mayWrite _ := true
  mayOpen _ := true
  sticky _ _ := false
  readable _ := true
  space := true
  block := true
  blockReadable := true

section Named

variable {c : ℕ}

theorem entries_namedVolume (hd : d ≠ 1) : (namedVolume c).entries d = [] := if_neg hd

theorem namedAt_namedVolume (h : (namedVolume c).NamedAt d k n) :
    d = 1 ∧ n = if k < 2 then 1 else 2 := by
  obtain ⟨de, hde, rfl⟩ := h
  by_cases hd : d = 1
  · subst hd
    refine ⟨rfl, ?_⟩
    rcases k with _ | _ | k
    · cases hde
      rfl
    · cases hde
      rfl
    · change (List.map _ (List.range c))[k]? = some de at hde
      obtain ⟨i, -, rfl⟩ := List.mem_map.1 (List.mem_of_getElem? hde)
      rw [if_neg (by omega)]
  · rw [entries_namedVolume hd] at hde
    cases hde

theorem isDir_namedVolume : (namedVolume c).isDir n = true ↔ n = 1 := by
  unfold namedVolume isDir
  by_cases h₁ : n = 1
  · simp [h₁]
  · by_cases h₂ : n = 2
    · simp [h₂]
    · simp [h₁, h₂]

theorem inode_namedVolume : (namedVolume c).inode n ≠ none ↔ n = 1 ∨ n = 2 := by
  unfold namedVolume
  by_cases h₁ : n = 1
  · simp [h₁]
  · simp [h₁]

theorem countP_isDir_namedVolume :
    ((namedVolume c).entries 1).countP ((namedVolume c).isDir ·.inode) = 2 := by
  change List.countP _ (_ :: _ :: List.map _ (List.range c)) = 2
  have hfiles : List.countP ((namedVolume c).isDir ·.inode) ((List.range c).map fun i =>
      (⟨2, padName [97 + .ofNat (i / 16), 97 + .ofNat (i % 16)]⟩ : DirEntry)) = 0 := by
    refine List.countP_eq_zero.2 fun de hde => ?_
    obtain ⟨i, -, rfl⟩ := List.mem_map.1 hde
    rw [isDir_namedVolume]
    exact Nat.succ_ne_self 1
  have hroot : (namedVolume c).isDir 1 = true := isDir_namedVolume.2 rfl
  rw [List.countP_cons, List.countP_cons, hfiles]
  simp [hroot]

theorem namedVolume_consistent (hc : (UInt8.ofNat c).toNat = (namedVolume c).names 2) :
    (namedVolume c).Consistent := by
  refine ⟨fun n hn => ?_, fun d hd => entries_namedVolume ?_, fun d k n hn _ => ?_, fun d hd => ?_,
    fun d hd => ?_, fun n hn d k d' k' hk hk' h₁ h₂ => ?_, fun n hn hfile => ?_, fun n hn => ?_⟩
  · change 1 ≤ n ∧ n ≤ 3
    rcases inode_namedVolume.1 hn with rfl | rfl <;> decide
  · rintro rfl
    cases hd.symm.trans (isDir_namedVolume.2 rfl)
  · obtain ⟨-, rfl⟩ := namedAt_namedVolume hn
    refine inode_namedVolume.2 ?_
    split
    next => exact .inl rfl
    next => exact .inr rfl
  · rw [isDir_namedVolume.1 hd]
    exact ⟨_, rfl, rfl⟩
  · rw [isDir_namedVolume.1 hd]
    exact ⟨1, ⟨_, rfl, rfl⟩, isDir_namedVolume.2 rfl, fun hne => absurd rfl hne⟩
  · obtain ⟨-, hn'⟩ := namedAt_namedVolume h₁
    rw [if_neg (by omega), isDir_namedVolume.1 hn] at hn'
    cases hn'
  · rcases inode_namedVolume.1 hn with rfl | rfl
    · cases hfile
    · exact hc
  · rw [isDir_namedVolume.1 hn, countP_isDir_namedVolume]
    rfl

end Named

theorem fullVolume_consistent : (namedVolume 255).Consistent :=
  namedVolume_consistent (by decide +kernel)

/-- The file is freed when it gets its 256th name. -/
theorem sysLink_256 : (namedVolume 255).Consistent ∧
    ((namedVolume 255).next (.link superuser [47, 97, 97] [47, 120])).names 2 = 256 ∧
    ((namedVolume 255).next (.link superuser [47, 97, 97] [47, 120])).inode 2 = none ∧
      ¬Always Volume.next LinksMatch (namedVolume 255)
        [.link superuser [47, 97, 97] [47, 120]] := by
  have hfreed : ((namedVolume 255).next (.link superuser [47, 97, 97] [47, 120])).inode 2 = none := by
    decide +kernel
  have hnames : ((namedVolume 255).next (.link superuser [47, 97, 97] [47, 120])).names 2 = 256 := by
    decide +kernel
  have hnamed : (((namedVolume 255).next (.link superuser [47, 97, 97] [47, 120])).entries 1).any
      (·.inode = 2) = true := by
    decide +kernel
  refine ⟨fullVolume_consistent, hnames, hfreed, fun halways => ?_⟩
  obtain ⟨de, hde, hinode⟩ := List.any_eq_true.1 hnamed
  have hinode : de.inode = 2 := by simpa using hinode
  have hmatch : ((namedVolume 255).next (.link superuser [47, 97, 97] [47, 120])).LinksMatch :=
    halways.2
  exact hmatch.named 1 de hde (by omega) (hinode ▸ hfreed)

/-- With one name less there is room for a link again. -/
theorem linksMatch_255 :
    Always Volume.next LinksMatch (namedVolume 255)
        [.unlink superuser [47, 97, 97], .link superuser [47, 97, 98] [47, 120]] := by
  refine (linksMatch_iff fullVolume_consistent _).2 ⟨trivial, fun n s' hentry => ?_, trivial⟩
  have hfile : (((namedVolume 255).next (.unlink superuser [47, 97, 97])).linkEntry superuser
      [47, 97, 98] [47, 120]).toOption.map (·.1) = some (.inr 2) := by
    decide +kernel
  rw [hentry] at hfile
  cases hfile
  decide +kernel

end Volume

end MyJavaExample.Fs
