import MyJavaExample.Fs.FileTable
import MyJavaExample.Lib.RefCount

/-!
# Reference counts of open files

Between system calls `f_count` of every entry is the number of descriptors that
point to it, and an inode that was stored in an entry has been released if the
count is 0 and not before.  A descriptor is opened (`Sound.attach`) and closed
(`Sound.close`) one at a time; the calls that reserve and give back leave the
state as it was.
-/

namespace MyJavaExample.Fs

open Lib

namespace Files

variable {ι : Type} {s : Files ι} {t : TaskNr} {fd : Fd} {f : FileNr}

/-- What the descriptors of all tasks point to. -/
def refs (s : Files ι) (r : TaskNr × Fd) : Option FileNr := (s.task r.1).filp r.2

/-- The counts, the inodes and the bits of `close_on_exec` are right. -/
structure Sound (s : Files ι) : Prop where
  count : ∀ f, (s.file f).count.toNat = refCount s.refs f
  history : ∀ f, s.given f = s.put f ++ if (s.file f).count = 0 then [] else (s.file f).inode.toList
  inode : ∀ f, (s.file f).count ≠ 0 → (s.file f).inode.isSome = true
  closeOnExec : ∀ t fd, (s.task t).closeOnExec fd = true → ((s.task t).filp fd).isSome = true
  dead : ∀ t, (s.task t).live = false → ∀ fd, (s.task t).filp fd = none

/-! ## Parts of the state -/

theorem refs_setFilp (v : Option FileNr) :
    (s.setFilp t fd v).refs = Function.update s.refs (t, fd) v := by
  funext ⟨t', fd'⟩
  by_cases ht : t' = t
  · subst ht
    by_cases hfd : fd' = fd
    · subst hfd
      simp [refs, setFilp, setTask]
    · simp [refs, setFilp, setTask, hfd]
  · simp [refs, setFilp, setTask, ht]

/-- There are more numbers than descriptors. -/
theorem refCount_lt (refs : TaskNr × Fd → Option FileNr) (f : FileNr) :
    refCount refs f < 2 ^ 16 - 1 := by
  have hle := refCount_le_card (f := refs) (a := f) id fun r s _ _ h => h
  have hcard : Fintype.card (TaskNr × Fd) = 64 * 20 := by
    rw [Fintype.card_prod, Fintype.card_fin, Fintype.card_fin, NR_OPEN]
  omega

theorem toNat_add_one {n : UInt16} (h : n.toNat < 2 ^ 16 - 1) : (n + 1).toNat = n.toNat + 1 := by
  rw [UInt16.toNat_add]
  exact Nat.mod_eq_of_lt (by simpa using Nat.succ_lt_of_lt_pred h)

/-- What is left to show after a descriptor has changed: the counts, the releases
and the inodes. -/
theorem Sound.of_filp (h : s.Sound) {s' : Files ι} {v : Option FileNr}
    (htask : s'.task = (s.setFilp t fd v).task) (hlive : (s.task t).live = false → v = none)
    (hbit : v = none → (s.task t).closeOnExec fd = false)
    (hcount : ∀ g, (s'.file g).count.toNat = refCount (Function.update s.refs (t, fd) v) g)
    (hhistory : ∀ g, s'.given g = s'.put g ++
      if (s'.file g).count = 0 then [] else (s'.file g).inode.toList)
    (hinode : ∀ g, (s'.file g).count ≠ 0 → (s'.file g).inode.isSome = true) : s'.Sound := by
  have hrefs : s'.refs = Function.update s.refs (t, fd) v := by
    rw [← refs_setFilp]
    funext r
    simp only [refs, htask]
  have htask' : ∀ t', s'.task t' = if t' = t then
      { s.task t with filp := Function.update (s.task t).filp fd v } else s.task t' := by
    intro t'
    rw [htask]
    by_cases ht : t' = t
    · simp [ht, setFilp, setTask]
    · simp [ht, setFilp, setTask]
  refine ⟨fun g => hrefs ▸ hcount g, hhistory, hinode, fun t' fd' hbit' => ?_, fun t' hdead fd' => ?_⟩
  · rw [htask'] at hbit' ⊢
    split at hbit'
    next ht =>
      rw [if_pos ht]
      by_cases hfd' : fd' = fd
      · subst hfd'
        cases v with
        | none => exact absurd (hbit rfl) (by simpa using hbit')
        | some f => simp
      · simpa [hfd'] using h.closeOnExec t fd' hbit'
    next ht =>
      rw [if_neg ht]
      exact h.closeOnExec t' fd' hbit'
  · rw [htask'] at hdead ⊢
    split at hdead
    next ht =>
      rw [if_pos ht]
      by_cases hfd' : fd' = fd
      · simpa [hfd'] using hlive hdead
      · simpa [hfd'] using h.dead t hdead fd'
    next ht =>
      rw [if_neg ht]
      exact h.dead t' hdead fd'

/-- A descriptor that was not open gets an entry, whose count grows by one. -/
theorem Sound.attach (h : s.Sound) {s' : Files ι} (hlive : (s.task t).live = true)
    (hfd : (s.task t).filp fd = none) (htask : s'.task = (s.setFilp t fd (some f)).task)
    (hfile : ∀ g, g ≠ f → s'.file g = s.file g)
    (hcount : (s'.file f).count = (s.file f).count + 1)
    (hinode : (s'.file f).inode.isSome = true)
    (hgiven : ∀ g, g ≠ f → s'.given g = s.given g)
    (hgiven' : s'.given f = s.put f ++ (s'.file f).inode.toList) (hput : s'.put = s.put) :
    s'.Sound := by
  have htoNat : (s'.file f).count.toNat = (s.file f).count.toNat + 1 := by
    rw [hcount, toNat_add_one]
    rw [h.count]
    exact refCount_lt _ _
  have hne : (s'.file f).count ≠ 0 := fun hzero => by simp [hzero] at htoNat
  refine h.of_filp htask (fun hdead => ?_) (fun hnone => by cases hnone) (fun g => ?_)
    (fun g => ?_) fun g hg' => ?_
  · rw [hlive] at hdead
    cases hdead
  · have hupd := refCount_update s.refs (t, fd) (some f) g
    have hold : s.refs (t, fd) = none := hfd
    rw [hold] at hupd
    by_cases hg : g = f
    · subst hg
      rw [htoNat, h.count]
      simpa using hupd.symm
    · have hfg : f ≠ g := fun heq => hg heq.symm
      rw [hfile g hg, h.count]
      simpa [hfg] using hupd.symm
  · by_cases hg : g = f
    · subst hg
      rw [hput, if_neg hne, hgiven']
    · rw [hput, hfile g hg, hgiven g hg, h.history]
  · by_cases hg : g = f
    · subst hg
      exact hinode
    · rw [hfile g hg] at hg' ⊢
      exact h.inode g hg'

/-- A task changes apart from its descriptors. -/
theorem Sound.withTask (h : s.Sound) {p : TaskFiles} (hfilp : p.filp = (s.task t).filp)
    (hlive : p.live = (s.task t).live)
    (hbits : ∀ fd, p.closeOnExec fd = true → (p.filp fd).isSome = true) : (s.setTask t p).Sound := by
  have htask : ∀ t', (s.setTask t p).task t' = if t' = t then p else s.task t' := by
    intro t'
    by_cases ht : t' = t
    · simp [ht, setTask]
    · simp [ht, setTask]
  have hrefs : (s.setTask t p).refs = s.refs := by
    funext ⟨t', fd'⟩
    simp only [refs, htask]
    split
    next ht => rw [hfilp, ht]
    next => rfl
  refine ⟨?_, h.history, h.inode, ?_, ?_⟩
  · rw [hrefs]
    exact h.count
  · intro t' fd' hbit
    rw [htask] at hbit ⊢
    split at hbit
    next ht =>
      rw [if_pos ht]
      exact hbits fd' hbit
    next ht =>
      rw [if_neg ht]
      exact h.closeOnExec t' fd' hbit
  · intro t' hdead fd'
    rw [htask] at hdead ⊢
    split at hdead
    next ht =>
      rw [if_pos ht, hfilp]
      exact h.dead t (hlive ▸ hdead) fd'
    next ht =>
      rw [if_neg ht]
      exact h.dead t' hdead fd'

theorem Sound.setCloseOnExec (h : s.Sound) {b : Bool}
    (hb : b = true → ((s.task t).filp fd).isSome = true) : (s.setCloseOnExec t fd b).Sound := by
  refine h.withTask rfl rfl fun fd' hbit => ?_
  by_cases hfd : fd' = fd
  · subst hfd
    exact hb (by simpa using hbit)
  · exact h.closeOnExec t fd' (by simpa [hfd] using hbit)

theorem filp_setCloseOnExec (b : Bool) (t' : TaskNr) :
    ((s.setCloseOnExec t fd b).task t').filp = (s.task t').filp ∧
      ((s.setCloseOnExec t fd b).task t').live = (s.task t').live := by
  by_cases ht : t' = t
  · subst ht
    simp [Files.setCloseOnExec, setTask]
  · simp [Files.setCloseOnExec, setTask, ht]

/-! ## Closing -/

/-- A descriptor is closed, without the bit of `close_on_exec`. -/
theorem Sound.detach (h : s.Sound) (hfd : (s.task t).filp fd = some f)
    (hbit : (s.task t).closeOnExec fd = false) {s' : Files ι}
    (htask : s'.task = (s.setFilp t fd none).task) (hfile : ∀ g, g ≠ f → s'.file g = s.file g)
    (hcount : (s'.file f).count = (s.file f).count - 1)
    (hinode : (s'.file f).inode = (s.file f).inode) (hgiven : s'.given = s.given)
    (hput : ∀ g, g ≠ f → s'.put g = s.put g)
    (hput' : s'.put f = s.put f ++
      if (s'.file f).count = 0 then (s.file f).inode.toList else []) : s'.Sound := by
  have hpos : 0 < refCount s.refs f := refCount_pos (r := (t, fd)) hfd
  have htoNat : (s'.file f).count.toNat + 1 = (s.file f).count.toNat := by
    have hone : (1 : UInt16) ≤ (s.file f).count := by
      rw [UInt16.le_iff_toNat_le, h.count]
      exact hpos
    rw [hcount, UInt16.toNat_sub_of_le _ _ hone]
    rw [← h.count] at hpos
    exact Nat.sub_add_cancel hpos
  have hne : (s.file f).count ≠ 0 := fun hzero => by simp [hzero] at htoNat
  refine h.of_filp htask (fun _ => rfl) (fun _ => hbit) (fun g => ?_) (fun g => ?_) fun g hg' => ?_
  · have hupd := refCount_update s.refs (t, fd) none g
    have hold : s.refs (t, fd) = some f := hfd
    rw [hold] at hupd
    by_cases hg : g = f
    · subst hg
      have := h.count g
      simp only [if_true, reduceCtorEq, if_false] at hupd
      omega
    · have hfg : f ≠ g := fun heq => hg heq.symm
      rw [hfile g hg, h.count]
      simpa [hfg] using hupd.symm
  · by_cases hg : g = f
    · subst hg
      rw [hgiven, hput', h.history, if_neg hne, hinode]
      split
      next => simp
      next => simp
    · rw [hgiven, hput g hg, hfile g hg, h.history]
  · by_cases hg : g = f
    · subst hg
      rw [hinode]
      exact h.inode g hne
    · rw [hfile g hg] at hg' ⊢
      exact h.inode g hg'

/-- Closing never finds a count of 0. -/
theorem Sound.closeFd (h : s.Sound) (t : TaskNr) (fd : Fd) :
    ∃ r s', s.closeFd t fd = .ok (r, s') ∧ s'.Sound ∧ (s'.task t).live = (s.task t).live ∧
      (s'.task t).filp = Function.update (s.task t).filp fd none := by
  have h₁ : (s.setCloseOnExec t fd false).Sound := h.setCloseOnExec fun hb => Bool.noConfusion hb
  have hbit : ((s.setCloseOnExec t fd false).task t).closeOnExec fd = false := by
    simp [Files.setCloseOnExec, setTask]
  obtain ⟨hfilp, hlive⟩ := @filp_setCloseOnExec _ s t fd false t
  rw [← hfilp, ← hlive]
  unfold Files.closeFd
  generalize s.setCloseOnExec t fd false = s₁ at h₁ hbit
  dsimp only
  cases hfd : (s₁.task t).filp fd with
  | none =>
      refine ⟨_, _, rfl, h₁, rfl, ?_⟩
      rw [← hfd, Function.update_eq_self]
  | some f =>
      have hne : (s₁.file f).count ≠ 0 := by
        intro hzero
        have hcount := h₁.count f
        rw [hzero] at hcount
        have := refCount_pos (f := s₁.refs) (r := (t, fd)) hfd
        simp at hcount
        omega
      have hfile : ((s₁.setFilp t fd none).file f).count = (s₁.file f).count := rfl
      have htask : (((s₁.setFilp t fd none)).task t).live = (s₁.task t).live ∧
          ((s₁.setFilp t fd none).task t).filp = Function.update (s₁.task t).filp fd none := by
        simp [setFilp, setTask]
      simp only [hfile, hne, if_false]
      split
      next hmore =>
        refine ⟨_, _, rfl, h₁.detach hfd hbit rfl ?_ ?_ ?_ rfl ?_ ?_, htask⟩
        · intro g hg
          simp [setCount, setFile, setFilp, setTask, hg]
        · simp [setCount, setFile, setFilp, setTask]
        · simp [setCount, setFile, setFilp, setTask]
        · exact fun _ _ => rfl
        · rw [if_neg hmore, List.append_nil]
          rfl
      next hlast =>
        have hlast := Classical.not_not.1 hlast
        refine ⟨_, _, rfl, h₁.detach hfd hbit rfl ?_ ?_ ?_ rfl ?_ ?_, htask⟩
        · intro g hg
          simp [Files.iput, setCount, setFile, setFilp, setTask, hg]
        · simp [Files.iput, setCount, setFile, setFilp, setTask]
        · simp [Files.iput, setCount, setFile, setFilp, setTask]
        · intro g hg
          simp [Files.iput, setCount, setFile, setFilp, setTask, hg]
        · simp only [setCount, setFile, setFilp, setTask, Function.update_self] at hlast
          simp [Files.iput, setCount, setFile, setFilp, setTask, hlast]

theorem Sound.sysClose (h : s.Sound) (t : TaskNr) (fd : ℕ) :
    ∃ r s', s.sysClose t fd = .ok (r, s') ∧ s'.Sound ∧ (s'.task t).live = (s.task t).live := by
  unfold Files.sysClose
  split
  next hlt =>
    obtain ⟨r, s', hok, hs, hlive, -⟩ := h.closeFd t ⟨fd, hlt⟩
    exact ⟨r, s', hok, hs, hlive⟩
  next => exact ⟨_, _, rfl, h, rfl⟩

theorem Sound.closeAll (h : s.Sound) {doomed : Files ι → Fd → Bool} (fds : List Fd) :
    ∃ s', closeAll doomed t fds s = .ok s' ∧ s'.Sound ∧ (s'.task t).live = (s.task t).live ∧
      (∀ fd, (s.task t).filp fd = none → (s'.task t).filp fd = none) ∧
      ((∀ s fd, doomed s fd = ((s.task t).filp fd).isSome) → ∀ fd ∈ fds, (s'.task t).filp fd = none) := by
  induction fds generalizing s with
  | nil => exact ⟨s, rfl, h, rfl, fun _ hfd => hfd, fun _ fd hfd => absurd hfd List.not_mem_nil⟩
  | cons fd fds ih =>
      unfold Files.closeAll
      split
      next =>
        obtain ⟨r, s₁, hok, hs₁, hlive₁, hfilp₁⟩ := h.closeFd t fd
        obtain ⟨s', hok', hs', hlive', hkeep, hall⟩ := ih hs₁
        rw [hok]
        refine ⟨s', hok', hs', hlive'.trans hlive₁, fun fd' hfd' => hkeep fd' ?_, fun hd fd' hmem => ?_⟩
        · rw [hfilp₁]
          by_cases heq : fd' = fd
          · simp [heq]
          · simpa [heq] using hfd'
        · rcases List.mem_cons.1 hmem with rfl | hmem
          · exact hkeep fd' (by simp [hfilp₁])
          · exact hall hd fd' hmem
      next hnot =>
        obtain ⟨s', hok', hs', hlive', hkeep, hall⟩ := ih h
        refine ⟨s', hok', hs', hlive', hkeep, fun hd fd' hmem => ?_⟩
        rcases List.mem_cons.1 hmem with rfl | hmem
        · rw [hd] at hnot
          exact hkeep fd' (by simpa using hnot)
        · exact hall hd fd' hmem

theorem Sound.execClose (h : s.Sound) (t : TaskNr) : ∃ s', s.execClose t = .ok s' ∧ s'.Sound := by
  obtain ⟨s', hok, hs, -⟩ := @Sound.closeAll _ s t h (fun s fd => (s.task t).closeOnExec fd)
    (List.finRange NR_OPEN)
  unfold Files.execClose
  rw [hok]
  exact ⟨_, rfl, hs.withTask rfl rfl fun fd hbit => Bool.noConfusion hbit⟩

/-- A task that has closed everything leaves its slot. -/
theorem Sound.leave (h : s.Sound) (hfilp : ∀ fd, (s.task t).filp fd = none) :
    (s.setTask t { s.task t with live := false }).Sound := by
  have htask : ∀ t', ((s.setTask t { s.task t with live := false }).task t').filp =
      (s.task t').filp ∧ ((s.setTask t { s.task t with live := false }).task t').closeOnExec =
      (s.task t').closeOnExec := by
    intro t'
    by_cases ht : t' = t
    · subst ht
      simp [setTask]
    · simp [setTask, ht]
  refine ⟨fun f => ?_, h.history, h.inode, fun t' fd hbit => ?_, fun t' hdead fd => ?_⟩
  · have hrefs : (s.setTask t { s.task t with live := false }).refs = s.refs := by
      funext ⟨t', fd'⟩
      simp only [refs, (htask t').1]
    rw [hrefs]
    exact h.count f
  · rw [(htask t').2] at hbit
    rw [(htask t').1]
    exact h.closeOnExec t' fd hbit
  · rw [(htask t').1]
    by_cases ht : t' = t
    · rw [ht]
      exact hfilp fd
    · refine h.dead t' ?_ fd
      simpa [setTask, ht] using hdead

theorem Sound.doExit (h : s.Sound) (t : TaskNr) : ∃ s', s.doExit t = .ok s' ∧ s'.Sound := by
  obtain ⟨s', hok, hs, -, -, hall⟩ := @Sound.closeAll _ s t h
    (fun s fd => ((s.task t).filp fd).isSome) (List.finRange NR_OPEN)
  unfold Files.doExit
  rw [hok]
  exact ⟨_, rfl, hs.leave fun fd => hall (fun _ _ => rfl) fd (List.mem_finRange fd)⟩

/-! ## Opening -/

theorem freeFd_spec (h : s.freeFd t = some fd) : (s.task t).filp fd = none := by
  have := List.find?_some h
  simpa using this

theorem freeFile_spec (h : s.freeFile = some f) : (s.file f).count = 0 := by
  have := List.find?_some h
  simpa using this

/-- A descriptor and an entry that were reserved are given back. -/
theorem giveBack (hfd : (s.task t).filp fd = none) (hf : (s.file f).count = 0) (n : UInt16) :
    (((s.setFilp t fd (some f)).setCount f n).setFilp t fd none).setCount f 0 = s := by
  have hfile : { s.file f with count := 0 } = s.file f := by rw [← hf]
  have htask : { s.task t with filp := Function.update (s.task t).filp fd none } = s.task t := by
    rw [← hfd, Function.update_eq_self]
  simp [setCount, setFile, setFilp, setTask, hfile, htask]

theorem Sound.store (h : s.Sound) (hlive : (s.task t).live = true)
    (hfd : (s.task t).filp fd = none) (hf : (s.file f).count = 0) {s' : Files ι} (file : File ι)
    (hcount : file.count = 1) (hinode : file.inode.isSome = true)
    (htask : s'.task = (s.setFilp t fd (some f)).task)
    (hfile : s'.file = Function.update s.file f file)
    (hgiven : s'.given = Function.update s.given f (s.given f ++ file.inode.toList))
    (hput : s'.put = s.put) : s'.Sound := by
  have hself : s'.file f = file := by rw [hfile, Function.update_self]
  refine h.attach hlive hfd htask (fun g hg => ?_) ?_ ?_ (fun g hg => ?_) ?_ hput
  · rw [hfile, Function.update_of_ne hg]
  · rw [hself, hcount, hf]
    rfl
  · rw [hself]
    exact hinode
  · rw [hgiven, Function.update_of_ne hg]
  · rw [hgiven, Function.update_self, hself, h.history, hf, if_pos rfl, List.append_nil]

theorem Sound.openInode (h : s.Sound) (hlive : (s.task t).live = true)
    (hfd : (s.task t).filp fd = none) (hf : (s.file f).count = 0) (n : UInt16) (flag : UInt16)
    (o : Opened ι) :
    (((s.setFilp t fd (some f)).setCount f n).openInode t fd f flag o).2.Sound := by
  unfold Files.openInode
  dsimp only
  split
  next => rwa [giveBack hfd hf]
  next =>
    split
    next =>
      generalize ((o.zone &&& 0xff).toNat : ℤ) = tty
      have htty := h.withTask (t := t) (p := { s.task t with tty }) rfl rfl (h.closeOnExec t)
      have hlive' : ((s.setTask t { s.task t with tty }).task t).live = true := by
        simpa [setTask] using hlive
      have hfd' : ((s.setTask t { s.task t with tty }).task t).filp fd = none := by
        simpa [setTask] using hfd
      refine htty.store hlive' hfd' hf ⟨o.mode, flag, 1, some o.inode, 0⟩ rfl rfl ?_ ?_ rfl rfl
      · simp [Files.store, setCount, setFile, setFilp, setTask]
      · simp [Files.store, setCount, setFile, setFilp, setTask]
    next =>
      refine h.store hlive hfd hf ⟨o.mode, flag, 1, some o.inode, 0⟩ rfl rfl rfl ?_ rfl rfl
      simp [Files.store, setCount, setFile, setFilp, setTask]

theorem Sound.sysOpen (h : s.Sound) (hlive : (s.task t).live = true) (flag : UInt16)
    (namei : Except ℤ (Opened ι)) : (s.sysOpen t flag namei).2.Sound := by
  unfold Files.sysOpen
  cases hfd : s.freeFd t with
  | none => exact h
  | some fd =>
      have h₁ : (s.setCloseOnExec t fd false).Sound := h.setCloseOnExec fun hb => Bool.noConfusion hb
      obtain ⟨hfilp, hlive₁⟩ := @filp_setCloseOnExec _ s t fd false t
      have hfd₁ : ((s.setCloseOnExec t fd false).task t).filp fd = none := by
        rw [hfilp]
        exact freeFd_spec hfd
      rw [hlive] at hlive₁
      dsimp only
      generalize s.setCloseOnExec t fd false = s₁ at h₁ hfd₁ hlive₁
      cases hf : s₁.freeFile with
      | none => exact h₁
      | some f =>
          have hf₁ := freeFile_spec hf
          dsimp only
          cases namei with
          | error e => rwa [giveBack hfd₁ hf₁]
          | ok o => exact h₁.openInode hlive₁ hfd₁ hf₁ _ flag o

theorem openFile_spec {fd : ℕ} {i : Fd} (h : s.openFile t fd = some (i, f)) :
    (s.task t).filp i = some f := by
  unfold openFile at h
  split at h
  next hlt =>
    obtain ⟨g, hg, heq⟩ := Option.map_eq_some_iff.1 h
    cases heq
    exact hg
  next => cases h

theorem Sound.dupfd (h : s.Sound) (hlive : (s.task t).live = true) (fd arg : ℕ) :
    (s.dupfd t fd arg).2.Sound := by
  unfold Files.dupfd
  cases hopen : s.openFile t fd with
  | none => exact h
  | some r =>
      obtain ⟨i, f⟩ := r
      have hi := openFile_spec hopen
      dsimp only
      split
      next => exact h
      next =>
        split
        next => exact h
        next j hj =>
          have hfree : (s.task t).filp j = none := by
            have := List.find?_some hj
            simp only [Bool.and_eq_true, Option.isNone_iff_eq_none] at this
            exact this.2
          have h₁ : (s.setCloseOnExec t j false).Sound :=
            h.setCloseOnExec fun hb => Bool.noConfusion hb
          obtain ⟨hfilp, hlive₁⟩ := @filp_setCloseOnExec _ s t j false t
          rw [hlive] at hlive₁
          rw [← hfilp] at hi hfree
          generalize s.setCloseOnExec t j false = s₁ at h₁ hi hfree hlive₁
          have hne : (s₁.file f).count ≠ 0 := by
            intro hzero
            have hcount := h₁.count f
            rw [hzero] at hcount
            exact ne_some_of_refCount_eq_zero hcount.symm (t, i) hi
          refine h₁.attach hlive₁ hfree rfl (fun g hg => ?_) ?_ ?_ (fun _ _ => rfl) ?_ rfl
          · simp [setCount, setFile, setFilp, setTask, hg]
          · simp [setCount, setFile, setFilp, setTask]
          · simpa [setCount, setFile, setFilp, setTask] using h₁.inode f hne
          · have := h₁.history f
            rw [if_neg hne] at this
            simpa [setCount, setFile, setFilp, setTask] using this

theorem Sound.setFlags (h : s.Sound) (flags : UInt16) :
    (s.setFile f { s.file f with flags }).Sound := by
  have hfile : ∀ g, ((s.setFile f { s.file f with flags }).file g).count = (s.file g).count ∧
      ((s.setFile f { s.file f with flags }).file g).inode = (s.file g).inode := by
    intro g
    by_cases hg : g = f
    · subst hg
      simp [setFile]
    · simp [setFile, hg]
  refine ⟨fun g => ?_, fun g => ?_, fun g hg => ?_, h.closeOnExec, h.dead⟩
  · rw [(hfile g).1]
    exact h.count g
  · rw [(hfile g).1, (hfile g).2]
    exact h.history g
  · rw [(hfile g).1] at hg
    rw [(hfile g).2]
    exact h.inode g hg

theorem Sound.sysFcntl (h : s.Sound) (hlive : (s.task t).live = true) (fd : ℕ) (cmd : FcntlCmd)
    (arg : ℕ) : (s.sysFcntl t fd cmd arg).2.Sound := by
  unfold Files.sysFcntl
  cases hopen : s.openFile t fd with
  | none => exact h
  | some r =>
      obtain ⟨i, f⟩ := r
      cases cmd with
      | F_DUPFD => exact h.dupfd hlive fd arg
      | F_GETFD => exact h
      | F_SETFD =>
          refine h.setCloseOnExec fun _ => ?_
          rw [openFile_spec hopen]
          rfl
      | F_GETFL => exact h
      | F_SETFL => exact h.setFlags _
      | other => exact h

/-! ## Pipes -/

/-- The first two elements that pass a test are two. -/
theorem filter_eq_cons_cons {α : Type} {l rest : List α} {p : α → Bool} {a b : α} (hl : l.Nodup)
    (h : l.filter p = a :: b :: rest) : p a = true ∧ p b = true ∧ a ≠ b := by
  have ha : a ∈ l.filter p := by simp [h]
  have hb : b ∈ l.filter p := by simp [h]
  have hnd := hl.filter p
  rw [h] at hnd
  refine ⟨(List.mem_filter.1 ha).2, (List.mem_filter.1 hb).2, ?_⟩
  rintro rfl
  exact (List.nodup_cons.1 hnd).1 List.mem_cons_self

variable {fd₀ fd₁ : Fd} {f₀ f₁ : FileNr}

theorem setFilp_back (hfd : (s.task t).filp fd = none) (v : Option FileNr) :
    (s.setFilp t fd v).setFilp t fd none = s := by
  have htask : { s.task t with filp := Function.update (s.task t).filp fd none } = s.task t := by
    rw [← hfd, Function.update_eq_self]
  simp [setFilp, setTask, htask]

theorem setFilp_comm (hne : fd₀ ≠ fd₁) (v₀ v₁ : Option FileNr) :
    (s.setFilp t fd₀ v₀).setFilp t fd₁ v₁ = (s.setFilp t fd₁ v₁).setFilp t fd₀ v₀ := by
  simp [setFilp, setTask, Function.update_comm hne]

theorem setCount_back (hf : (s.file f).count = 0) (n : UInt16) :
    (s.setCount f n).setCount f 0 = s := by
  have hfile : { s.file f with count := 0 } = s.file f := by rw [← hf]
  simp [setCount, setFile, hfile]

theorem setCount_comm (hne : f₀ ≠ f₁) (m n : UInt16) :
    (s.setCount f₀ m).setCount f₁ n = (s.setCount f₁ n).setCount f₀ m := by
  simp [setCount, setFile, Function.update_comm hne, Function.update_of_ne hne,
    Function.update_of_ne hne.symm]

/-- Two entries that were reserved are given back. -/
theorem giveBack_two (hne : f₀ ≠ f₁) (h₀ : (s.file f₀).count = 0) (h₁ : (s.file f₁).count = 0)
    (m n : UInt16) :
    (((s.setCount f₀ m).setCount f₁ n).setCount f₀ 0).setCount f₁ 0 = s := by
  have h₁' : ((s.setCount f₀ m).file f₁).count = 0 := by
    simpa [setCount, setFile, hne.symm] using h₁
  rw [setCount_comm hne 0 0, setCount_back h₁', setCount_back h₀]

theorem filter_eq_cons {α : Type} {l rest : List α} {p : α → Bool} {a : α}
    (h : l.filter p = a :: rest) : p a = true := by
  have ha : a ∈ l.filter p := by simp [h]
  exact (List.mem_filter.1 ha).2

/-- Two entries are opened at two descriptors. -/
theorem Sound.store_two (h : s.Sound) (hlive : (s.task t).live = true)
    (hfd : fd₀ ≠ fd₁) (hfd₀ : (s.task t).filp fd₀ = none) (hfd₁ : (s.task t).filp fd₁ = none)
    (hf : f₀ ≠ f₁) (hf₀ : (s.file f₀).count = 0) (hf₁ : (s.file f₁).count = 0) (inode : ι)
    {s₁ s₂ : Files ι} (hs₁ : s₁ = (((s.setCount f₀ 1).setCount f₁ 1).setFilp t fd₀
      (some f₀)).setFilp t fd₁ (some f₁))
    (hs₂ : s₂ = s₁.store f₀ { s₁.file f₀ with inode := some inode, pos := 0, mode := 1 }) :
    (s₂.store f₁ { s₂.file f₁ with inode := some inode, pos := 0, mode := 2 }).Sound := by
  obtain ⟨s₀, hs₀⟩ : ∃ s₀, s₀ = (s.setFilp t fd₀ (some f₀)).store f₀
      { s.file f₀ with count := 1, inode := some inode, pos := 0, mode := 1 } := ⟨_, rfl⟩
  have h₁ : s₀.Sound := by
    rw [hs₀]
    exact h.store hlive hfd₀ hf₀ _ rfl rfl rfl rfl rfl rfl
  have hlive' : (s₀.task t).live = true := by
    simpa [hs₀, Files.store, setFile, setFilp, setTask] using hlive
  have hfd₁' : (s₀.task t).filp fd₁ = none := by
    simpa [hs₀, Files.store, setFile, setFilp, setTask, hfd.symm] using hfd₁
  have hf₁' : (s₀.file f₁).count = 0 := by
    simpa [hs₀, Files.store, setFile, setFilp, setTask, hf.symm] using hf₁
  subst hs₁ hs₂ hs₀
  refine h₁.store hlive' hfd₁' hf₁'
    { s.file f₁ with count := 1, inode := some inode, pos := 0, mode := 2 } rfl rfl rfl ?_ ?_ rfl
  · funext g
    by_cases hg₁ : g = f₁
    · simp [hg₁, Files.store, setCount, setFile, setFilp, setTask, hf.symm]
    · by_cases hg₀ : g = f₀
      · simp [hg₀, hf, Files.store, setCount, setFile, setFilp, setTask]
      · simp [hg₀, hg₁, Files.store, setCount, setFile, setFilp, setTask]
  · simp [Files.store, setCount, setFile, setFilp, setTask, hf.symm]

theorem Sound.pipeFds (h : s.Sound) (hlive : (s.task t).live = true) (hf : f₀ ≠ f₁)
    (hf₀ : (s.file f₀).count = 0) (hf₁ : (s.file f₁).count = 0) (inode : Option ι) :
    (((s.setCount f₀ 1).setCount f₁ 1).pipeFds t f₀ f₁ inode).2.Sound := by
  unfold Files.pipeFds
  dsimp only
  split
  next => rwa [giveBack_two hf hf₀ hf₁]
  next fd₀ hfds =>
    have hpick := filter_eq_cons hfds
    have hfd₀ := Option.isNone_iff_eq_none.1 hpick
    rw [setFilp_back hfd₀, giveBack_two hf hf₀ hf₁]
    exact h
  next fd₀ fd₁ rest hfds =>
    obtain ⟨hfd₀, hfd₁, hfd⟩ := filter_eq_cons_cons (List.nodup_finRange _) hfds
    have hfd₀ := Option.isNone_iff_eq_none.1 hfd₀
    have hfd₁ := Option.isNone_iff_eq_none.1 hfd₁
    cases inode with
    | none =>
        dsimp only
        rw [← setFilp_comm hfd, setFilp_back hfd₀, setFilp_back hfd₁, giveBack_two hf hf₀ hf₁]
        exact h
    | some inode =>
        exact h.store_two hlive hfd hfd₀ hfd₁ hf hf₀ hf₁ inode rfl rfl

theorem Sound.sysPipe (h : s.Sound) (hlive : (s.task t).live = true) (inode : Option ι) :
    (s.sysPipe t inode).2.Sound := by
  unfold Files.sysPipe
  split
  next => exact h
  next f₀ hfiles =>
    have hf₀ : (s.file f₀).count = 0 := by simpa using filter_eq_cons hfiles
    rwa [setCount_back hf₀]
  next f₀ f₁ rest hfiles =>
    obtain ⟨hf₀, hf₁, hf⟩ := filter_eq_cons_cons (List.nodup_finRange _) hfiles
    have hf₀ : (s.file f₀).count = 0 := by simpa using hf₀
    have hf₁ : (s.file f₁).count = 0 := by simpa using hf₁
    have hcount₁ : ((s.setCount f₀ ((s.file f₀).count + 1)).file f₁).count = 0 := by
      simpa [setCount, setFile, hf.symm] using hf₁
    dsimp only
    rw [hcount₁, hf₀]
    exact h.pipeFds hlive hf hf₀ hf₁ inode

/-! ## Fork -/

/-- The descriptors of the slot `nr` that are still to be shared are left out. -/
def refsWithout (s : Files ι) (nr : TaskNr) (fds : List Fd) (r : TaskNr × Fd) : Option FileNr :=
  if r.1 = nr ∧ r.2 ∈ fds then none else s.refs r

theorem refsWithout_cons {nr : TaskNr} {fds : List Fd} (hfd : fd ∉ fds) :
    s.refsWithout nr fds =
      Function.update (s.refsWithout nr (fd :: fds)) (nr, fd) ((s.task nr).filp fd) := by
  funext ⟨t', fd'⟩
  by_cases ht : t' = nr
  · by_cases hfd' : fd' = fd
    · subst ht hfd'
      simp [refsWithout, hfd, refs]
    · have hne : (t', fd') ≠ (nr, fd) := fun h => hfd' (congrArg Prod.snd h)
      rw [Function.update_of_ne hne]
      simp [refsWithout, hfd']
  · have hne : (t', fd') ≠ (nr, fd) := fun h => ht (congrArg Prod.fst h)
    rw [Function.update_of_ne hne]
    simp [refsWithout, ht]

/-- The counts when the descriptors `fds` of `nr` are still to be shared. -/
theorem shareFiles_count {nr : TaskNr} {fds : List Fd} (hnd : fds.Nodup)
    (hcount : ∀ f, (s.file f).count.toNat = refCount (s.refsWithout nr fds) f)
    (hpos : ∀ fd f, (s.task nr).filp fd = some f → (s.file f).count ≠ 0)
    (hhist : ∀ f, s.given f = s.put f ++
      if (s.file f).count = 0 then [] else (s.file f).inode.toList)
    (hinode : ∀ f, (s.file f).count ≠ 0 → (s.file f).inode.isSome = true) :
    let s' := shareFiles (s.task nr).filp fds s
    s'.task = s.task ∧ (∀ f, (s'.file f).count.toNat = refCount s.refs f) ∧
      (∀ f, s'.given f = s'.put f ++
        if (s'.file f).count = 0 then [] else (s'.file f).inode.toList) ∧
      ∀ f, (s'.file f).count ≠ 0 → (s'.file f).inode.isSome = true := by
  induction fds generalizing s with
  | nil =>
      refine ⟨rfl, fun f => ?_, hhist, hinode⟩
      have hrefs : s.refsWithout nr [] = s.refs := by
        funext r
        simp [refsWithout]
      rw [← hrefs]
      exact hcount f
  | cons fd fds ih =>
      obtain ⟨hnot, hnd⟩ := List.nodup_cons.1 hnd
      have hrefs := @refsWithout_cons _ s fd nr fds hnot
      have hmasked : s.refsWithout nr (fd :: fds) (nr, fd) = none := by simp [refsWithout]
      have hupd := refCount_update (s.refsWithout nr (fd :: fds)) (nr, fd) ((s.task nr).filp fd)
      rw [← hrefs] at hupd
      simp only [hmasked, reduceCtorEq, if_false, Nat.add_zero] at hupd
      unfold shareFiles
      cases hfilp : (s.task nr).filp fd with
      | none =>
          refine ih hnd (fun f => ?_) hpos hhist hinode
          have := hupd f
          rw [hfilp] at this
          rw [hcount, this]
          simp
      | some f =>
          have hne := hpos fd f hfilp
          have hadd : ((s.file f).count + 1).toNat = (s.file f).count.toNat + 1 := by
            refine toNat_add_one ?_
            rw [hcount]
            exact refCount_lt _ _
          have hne' : (s.file f).count + 1 ≠ 0 := fun hzero => by simp [hzero] at hadd
          have hfile : ∀ g, (s.setCount f ((s.file f).count + 1)).file g =
              if g = f then { s.file f with count := (s.file f).count + 1 } else s.file g := by
            intro g
            by_cases hg : g = f
            · simp [hg, setCount, setFile]
            · simp [hg, setCount, setFile]
          refine @ih (s.setCount f ((s.file f).count + 1)) hnd
            (fun g => ?_) (fun fd' g hg => ?_) (fun g => ?_) (fun g hg => ?_)
          · have := hupd g
            rw [hfilp] at this
            show _ = refCount (s.refsWithout nr fds) g
            rw [this, hfile]
            by_cases hg : g = f
            · subst hg
              rw [if_pos rfl, hadd, hcount, if_pos rfl]
            · have hfg : some f ≠ some g := fun heq => hg (Option.some.inj heq).symm
              rw [if_neg hg, hcount, if_neg hfg, Nat.add_zero]
          · rw [hfile]
            split
            next => exact hne'
            next => exact hpos fd' g hg
          · by_cases heq : g = f
            · subst heq
              have := hhist g
              rw [if_neg hne] at this
              rw [hfile, if_pos rfl, if_neg hne']
              exact this
            · rw [hfile, if_neg heq]
              exact hhist g
          · rw [hfile] at hg ⊢
            split
            next heq =>
              subst heq
              exact hinode g hne
            next heq =>
              rw [if_neg heq] at hg
              exact hinode g hg

/-- The child gets the descriptors of its parent, each of which counts. -/
theorem Sound.copyProcess (h : s.Sound) (hlive : (s.task t).live = true) {nr : TaskNr}
    (hnr : (s.task nr).live = false) (copied : Bool) : (s.copyProcess t nr copied).2.Sound := by
  unfold Files.copyProcess
  dsimp only
  cases copied with
  | false =>
      have hback : (s.setTask nr { s.task t with leader := false }).setTask nr (s.task nr) = s := by
        simp [setTask]
      rwa [if_neg Bool.false_ne_true, hback]
  | true =>
      rw [if_pos rfl]
      generalize hs₁ : s.setTask nr { s.task t with leader := false } = s₁
      have hself : s₁.task nr = { s.task t with leader := false } := by
        rw [← hs₁]
        exact Function.update_self ..
      have hother : ∀ t', t' ≠ nr → s₁.task t' = s.task t' := by
        intro t' ht
        rw [← hs₁]
        exact Function.update_of_ne ht ..
      have hfile : s₁.file = s.file ∧ s₁.given = s.given ∧ s₁.put = s.put := by
        rw [← hs₁]
        exact ⟨rfl, rfl, rfl⟩
      have hmasked : s₁.refsWithout nr (List.finRange NR_OPEN) = s.refs := by
        funext ⟨t', fd'⟩
        by_cases ht : t' = nr
        · simp [refsWithout, ht, refs, h.dead nr hnr]
        · simp [refsWithout, ht, refs, hother t' ht]
      have hopen : ∀ fd f, (s₁.task nr).filp fd = some f → (s₁.file f).count ≠ 0 := by
        intro fd f hfd hzero
        rw [hself] at hfd
        rw [hfile.1] at hzero
        have hc := h.count f
        rw [hzero] at hc
        exact ne_some_of_refCount_eq_zero hc.symm (t, fd) hfd
      obtain ⟨htask, hcount, hhist, hinode⟩ := shareFiles_count
        (List.nodup_finRange _) (fun f => by rw [hmasked, hfile.1]; exact h.count f)
        hopen (fun f => by rw [hfile.1, hfile.2.1, hfile.2.2]; exact h.history f)
        (fun f => by rw [hfile.1]; exact h.inode f)
      rw [hself] at htask hcount hhist hinode
      refine ⟨fun f => ?_, hhist, hinode, fun t' fd hbit => ?_, fun t' hdead fd => ?_⟩
      · rw [hcount]
        congr 1
        funext r
        simp only [refs, htask]
      · rw [htask] at hbit ⊢
        by_cases ht : t' = nr
        · rw [ht, hself] at hbit ⊢
          exact h.closeOnExec t fd hbit
        · rw [hother t' ht] at hbit ⊢
          exact h.closeOnExec t' fd hbit
      · rw [htask] at hdead ⊢
        by_cases ht : t' = nr
        · rw [ht, hself] at hdead
          dsimp only at hdead
          rw [hlive] at hdead
          cases hdead
        · rw [hother t' ht] at hdead ⊢
          exact h.dead t' hdead fd

/-! ## Whole runs -/

theorem Sound.call (h : s.Sound) (hlive : (s.task t).live = true) (a : FileAction ι) :
    ∃ s', s.call t a = .ok s' ∧ s'.Sound := by
  cases a with
  | «open» flag namei => exact ⟨_, rfl, h.sysOpen hlive flag namei⟩
  | close fd =>
      obtain ⟨r, s', hok, hs, -⟩ := h.sysClose t fd
      refine ⟨s', ?_, hs⟩
      rw [Files.call, hok]
      rfl
  | dup fildes => exact ⟨_, rfl, h.dupfd hlive fildes 0⟩
  | dup2 oldfd newfd =>
      obtain ⟨r, s', hok, hs, hlive'⟩ := h.sysClose t newfd
      refine ⟨_, ?_, hs.dupfd (hlive'.trans hlive) oldfd newfd⟩
      rw [Files.call, Files.sysDup2, hok]
      rfl
  | fcntl fd cmd arg => exact ⟨_, rfl, h.sysFcntl hlive fd cmd arg⟩
  | pipe inode => exact ⟨_, rfl, h.sysPipe hlive inode⟩
  | fork nr copied =>
      cases hnr : (s.task nr).live with
      | true => exact ⟨s, by rw [Files.call, hnr]; rfl, h⟩
      | false => exact ⟨_, by rw [Files.call, hnr]; rfl, h.copyProcess hlive hnr copied⟩
  | exec => exact h.execClose t
  | exit => exact h.doExit t

theorem init_sound : (init ι).Sound := by
  refine ⟨fun f => ?_, fun f => rfl, fun f hf => absurd rfl hf, fun t fd h => Bool.noConfusion h,
    fun _ _ _ => rfl⟩
  exact (refCount_eq_zero fun r h => by cases h).symm

/-- After any system calls of any tasks, with any outcome of the steps that may
fail: no panic; the count of an entry is the number of descriptors that point to
it; the inodes stored in it have all been released but the present one, which is
released when the count gets to 0; and only open descriptors are marked to be
closed by exec. -/
theorem file_counts (as : List (TaskNr × FileAction ι)) :
    Always step (fun r => ∃ s, r = .ok s ∧ s.Sound) (.ok (init ι)) as := by
  refine Always.of_invariant (I := fun r => ∃ s, r = .ok s ∧ s.Sound) (fun _ h => h) ?_
    ⟨_, rfl, init_sound⟩
  rintro _ ⟨t, a⟩ ⟨s, rfl, hs⟩
  show ∃ s', (if (s.task t).live then s.call t a else pure s) = .ok s' ∧ s'.Sound
  split
  next hlive => exact hs.call hlive a
  next => exact ⟨s, rfl, hs⟩

end Files

end MyJavaExample.Fs
