import MyJavaExample.Fs.FileTable

/-!
# `sys_dup2`: `fs/fcntl.c`

The call closes its target before it looks at the source.  When the source is not
open, the target is closed all the same.
-/

namespace MyJavaExample.Fs

namespace Files

variable {ι : Type}

/-- The descriptors, the counts of the entries and `close_on_exec` are the same, and
no inode was released. -/
structure SameTable (s s' : Files ι) : Prop where
  filp : ∀ t, (s'.task t).filp = (s.task t).filp
  closeOnExec : ∀ t, (s'.task t).closeOnExec = (s.task t).closeOnExec
  count : ∀ f, (s'.file f).count = (s.file f).count
  put : s'.put = s.put

/-- A call of `sys_dup2` that fails changes nothing, one that succeeds returns the
target, and one onto itself changes nothing. -/
def Dup2Right (s : Files ι) (t : TaskNr) (oldfd newfd : ℕ) : Prop :=
  ∃ ret s', s.sysDup2 t oldfd newfd = .ok (ret, s') ∧ (ret < 0 → s.SameTable s') ∧
    (0 ≤ ret → ret = newfd) ∧
    ((s.openFile t oldfd).isSome → newfd = oldfd → ret = oldfd ∧ s.SameTable s')

/-- The target is no descriptor; or it is closed, and the source is open or the
target's bit in `close_on_exec` is clear; or both are open and differ. -/
def Dup2Safe (s : Files ι) (t : TaskNr) (oldfd newfd : ℕ) : Prop :=
  ∀ h : newfd < NR_OPEN,
    match (s.task t).filp ⟨newfd, h⟩ with
    | none => (s.openFile t oldfd).isSome ∨ (s.task t).closeOnExec ⟨newfd, h⟩ = false
    | some f => (s.file f).count ≠ 0 ∧ (s.openFile t oldfd).isSome ∧ oldfd ≠ newfd

section Dup

variable {s s' : Files ι} {t : TaskNr} {fd : Fd} {f : FileNr} {oldfd newfd : ℕ}

theorem SameTable.refl (s : Files ι) : s.SameTable s := ⟨fun _ => rfl, fun _ => rfl, fun _ => rfl, rfl⟩

theorem openFile_isSome : (s.openFile t oldfd).isSome ↔
    ∃ h : oldfd < NR_OPEN, ((s.task t).filp ⟨oldfd, h⟩).isSome := by
  unfold openFile
  split
  next h => simp [h]
  next h => simp [h]

/-- A descriptor that is free is the first free one from itself on. -/
theorem find_free (h : (s.task t).filp fd = none) :
    ((List.finRange NR_OPEN).find? fun i => fd.val ≤ i.val && ((s.task t).filp i).isNone) =
      some fd := by
  rw [List.find?_eq_some_iff_getElem]
  refine ⟨by simp [h], fd.val, by simp, by simp, fun j hj => ?_⟩
  have hnot : ¬fd.val ≤ j := Nat.not_le.2 hj
  simp [hnot]

/-! ## The two halves of the call -/

theorem dupfd_closed (h : (s.openFile t oldfd).isSome = false) (arg : ℕ) :
    s.dupfd t oldfd arg = (-EBADF, s) := by
  unfold dupfd
  rw [Option.isSome_eq_false_iff, Option.isNone_iff_eq_none] at h
  rw [h]

theorem dupfd_free (h : (s.openFile t oldfd).isSome) (hfree : (s.task t).filp fd = none) :
    (s.dupfd t oldfd fd.val).1 = fd.val := by
  obtain ⟨⟨i, f⟩, hopen⟩ := Option.isSome_iff_exists.1 h
  unfold dupfd
  rw [hopen]
  dsimp only
  rw [if_neg (Nat.not_le.2 fd.isLt), find_free hfree]

/-- What `sys_close` leaves of the other descriptors of the task. -/
theorem closeFd_filp {ret : ℤ} (h : s.closeFd t fd = .ok (ret, s')) :
    (s'.task t).filp = Function.update (s.task t).filp fd none := by
  have hfilp (s₁ : Files ι) (fd' : Fd) (b : Bool) :
      ((s₁.setCloseOnExec t fd' b).task t).filp = (s₁.task t).filp := by
    simp [setCloseOnExec, setTask]
  unfold closeFd at h
  dsimp only at h
  split at h
  next hnone =>
    cases h
    rw [hfilp] at hnone ⊢
    exact (Function.update_eq_self_iff.2 hnone.symm).symm
  next f hsome =>
    split at h
    next => cases h
    next =>
      have htask : (((s.setCloseOnExec t fd false).setFilp t fd none).task t).filp =
          Function.update (s.task t).filp fd none := by
        simp [setFilp, setCloseOnExec, setTask]
      split at h
      next => cases h; exact htask
      next => cases h; exact htask

theorem openFile_closed {ret : ℤ} (h : s.closeFd t fd = .ok (ret, s')) :
    (s'.openFile t oldfd).isSome ↔ (s.openFile t oldfd).isSome ∧ oldfd ≠ fd.val := by
  rw [openFile_isSome, openFile_isSome, closeFd_filp h]
  constructor
  · rintro ⟨hlt, hsome⟩
    by_cases heq : (⟨oldfd, hlt⟩ : Fd) = fd
    · rw [heq, Function.update_self] at hsome
      cases hsome
    · rw [Function.update_of_ne heq] at hsome
      exact ⟨⟨hlt, hsome⟩, fun hval => heq (Fin.ext hval)⟩
  · rintro ⟨⟨hlt, hsome⟩, hne⟩
    refine ⟨hlt, ?_⟩
    rwa [Function.update_of_ne fun heq => hne (congrArg Fin.val heq)]

/-- A close that panics, or what it leaves. -/
theorem closeFd_open (h : (s.task t).filp fd = some f) (hcount : (s.file f).count ≠ 0) :
    ∃ s', s.closeFd t fd = .ok (0, s') := by
  have hfilp : ((s.setCloseOnExec t fd false).task t).filp fd = some f := by
    simp [setCloseOnExec, setTask, h]
  unfold closeFd
  dsimp only
  rw [hfilp]
  dsimp only
  rw [if_neg (show ¬(((s.setCloseOnExec t fd false).setFilp t fd none).file f).count = 0 from hcount)]
  split
  next => exact ⟨_, rfl⟩
  next => exact ⟨_, rfl⟩

theorem closeFd_panics (h : (s.task t).filp fd = some f) (hcount : (s.file f).count = 0) :
    s.closeFd t fd = .error "Close: file count is 0" := by
  have hfilp : ((s.setCloseOnExec t fd false).task t).filp fd = some f := by
    simp [setCloseOnExec, setTask, h]
  unfold closeFd
  dsimp only
  rw [hfilp]
  dsimp only
  rw [if_pos (show (((s.setCloseOnExec t fd false).setFilp t fd none).file f).count = 0 from hcount)]
  rfl

theorem closeFd_free (h : (s.task t).filp fd = none) :
    s.closeFd t fd = .ok (-EINVAL, s.setCloseOnExec t fd false) := by
  have hfilp : ((s.setCloseOnExec t fd false).task t).filp fd = none := by
    simp [setCloseOnExec, setTask, h]
  unfold closeFd
  dsimp only
  rw [hfilp]
  rfl

/-- Clearing a bit that is clear changes nothing. -/
theorem setCloseOnExec_same : s.SameTable (s.setCloseOnExec t fd false) ↔
    (s.task t).closeOnExec fd = false := by
  constructor
  · intro h
    have hbit := congrFun (h.closeOnExec t) fd
    simp only [setCloseOnExec, setTask, Function.update_self] at hbit
    exact hbit.symm
  · intro h
    have hself : s.setCloseOnExec t fd false = s := by
      have hbits : Function.update (s.task t).closeOnExec fd false = (s.task t).closeOnExec :=
        Function.update_eq_self_iff.2 h.symm
      unfold setCloseOnExec setTask
      rw [hbits, Function.update_eq_self]
    rw [hself]
    exact .refl s

/-! ## The call as a whole -/

theorem sysDup2_eq {s₁ : Files ι} {ret : ℤ} (h : s.sysClose t newfd = .ok (ret, s₁)) :
    s.sysDup2 t oldfd newfd =
      .ok ((s₁.dupfd t oldfd newfd).1, (s₁.dupfd t oldfd newfd).2) := by
  unfold sysDup2
  rw [h]
  rfl

theorem dup2Right_of_eq {ret : ℤ} (h : s.sysDup2 t oldfd newfd = .ok (ret, s')) :
    s.Dup2Right t oldfd newfd ↔ (ret < 0 → s.SameTable s') ∧ (0 ≤ ret → ret = newfd) ∧
      ((s.openFile t oldfd).isSome → newfd = oldfd → ret = oldfd ∧ s.SameTable s') := by
  constructor
  · rintro ⟨ret', s'', heq, hright⟩
    rw [h] at heq
    cases heq
    exact hright
  · exact fun hright => ⟨ret, s', h, hright⟩

/-- A target that is open. -/
theorem dup2_target_open (hlt : newfd < NR_OPEN) (hf : (s.task t).filp ⟨newfd, hlt⟩ = some f) :
    s.Dup2Right t oldfd newfd ↔
      (s.file f).count ≠ 0 ∧ (s.openFile t oldfd).isSome ∧ oldfd ≠ newfd := by
  by_cases hcount : (s.file f).count = 0
  · refine iff_of_false ?_ fun h => h.1 hcount
    rintro ⟨ret, s', heq, -⟩
    unfold sysDup2 sysClose at heq
    rw [dif_pos hlt, closeFd_panics hf hcount] at heq
    cases heq
  · obtain ⟨s₁, hclose⟩ := closeFd_open hf hcount
    have hopen : s.sysClose t newfd = .ok (0, s₁) := by
      unfold sysClose
      rw [dif_pos hlt, hclose]
    have hfilp := congrFun (closeFd_filp hclose) ⟨newfd, hlt⟩
    rw [Function.update_self] at hfilp
    -- the descriptor is gone now
    have hchanged : ¬s.SameTable s₁ := by
      intro hsame
      have hno := congrFun (hsame.filp t) ⟨newfd, hlt⟩
      rw [hfilp, hf] at hno
      cases hno
    rw [dup2Right_of_eq (sysDup2_eq hopen)]
    cases hsome : (s₁.openFile t oldfd).isSome with
    | true =>
        have hboth := (openFile_closed hclose).1 hsome
        have hret := dupfd_free hsome hfilp
        dsimp only at hret
        refine iff_of_true ⟨fun hneg => ?_, fun _ => hret, fun _ heq => ?_⟩ ⟨hcount, hboth⟩
        · rw [hret] at hneg
          omega
        · exact absurd heq.symm hboth.2
    | false =>
        rw [dupfd_closed hsome]
        refine iff_of_false (fun h => hchanged (h.1 (show -EBADF < 0 by decide))) fun h => ?_
        rw [(openFile_closed hclose).2 h.2] at hsome
        cases hsome

/-- A target that is a descriptor and is not open. -/
theorem dup2_target_free (hlt : newfd < NR_OPEN) (hf : (s.task t).filp ⟨newfd, hlt⟩ = none) :
    s.Dup2Right t oldfd newfd ↔
      (s.openFile t oldfd).isSome ∨ (s.task t).closeOnExec ⟨newfd, hlt⟩ = false := by
  have hclose := closeFd_free hf
  have hopen : s.sysClose t newfd =
      .ok (-EINVAL, s.setCloseOnExec t ⟨newfd, hlt⟩ false) := by
    unfold sysClose
    rw [dif_pos hlt, hclose]
  have hne (hsome : (s.openFile t oldfd).isSome) : oldfd ≠ newfd := by
    rintro rfl
    obtain ⟨hlt', hsome'⟩ := openFile_isSome.1 hsome
    rw [hf] at hsome'
    cases hsome'
  have hfilp := congrFun (closeFd_filp hclose) ⟨newfd, hlt⟩
  rw [Function.update_self] at hfilp
  rw [dup2Right_of_eq (sysDup2_eq hopen)]
  cases hsome : (s.openFile t oldfd).isSome with
  | true =>
      have hsome' := (openFile_closed hclose).2 ⟨hsome, hne hsome⟩
      have hret := dupfd_free hsome' hfilp
      dsimp only at hret
      refine iff_of_true ⟨fun hneg => ?_, fun _ => hret, fun _ heq => ?_⟩ (.inl rfl)
      · rw [hret] at hneg
        omega
      · exact absurd heq.symm (hne hsome)
  | false =>
      have hno : ((s.setCloseOnExec t ⟨newfd, hlt⟩ false).openFile t oldfd).isSome = false :=
        Bool.eq_false_iff.2 fun h => by
          rw [((openFile_closed hclose).1 h).1] at hsome
          cases hsome
      rw [dupfd_closed hno]
      have hiff : (s.task t).closeOnExec ⟨newfd, hlt⟩ = false ↔
          s.SameTable (s.setCloseOnExec t ⟨newfd, hlt⟩ false) := setCloseOnExec_same.symm
      simp only [Bool.false_eq_true, false_or, false_imp_iff, and_true, hiff]
      constructor
      · exact fun h => h.1 (show -EBADF < 0 by decide)
      · exact fun h => ⟨fun _ => h, fun hnonneg =>
          absurd hnonneg (show ¬0 ≤ -EBADF by decide)⟩

/-- `sys_dup2` does what it should if and only if the target is no descriptor, or
is closed with the source open or the target's bit in `close_on_exec` clear, or
both are open and differ. -/
theorem dup2Right_iff (s : Files ι) (t : TaskNr) (oldfd newfd : ℕ) :
    s.Dup2Right t oldfd newfd ↔ s.Dup2Safe t oldfd newfd := by
  unfold Dup2Safe
  by_cases hlt : newfd < NR_OPEN
  · cases hf : (s.task t).filp ⟨newfd, hlt⟩ with
    | some f =>
        rw [dup2_target_open hlt hf]
        constructor
        · intro h _
          rw [hf]
          exact h
        · intro h
          have hsafe := h hlt
          rwa [hf] at hsafe
    | none =>
        rw [dup2_target_free hlt hf]
        constructor
        · intro h _
          rw [hf]
          exact h
        · intro h
          have hsafe := h hlt
          rwa [hf] at hsafe
  · refine iff_of_true ?_ fun h => absurd h hlt
    have hclose : s.sysClose t newfd = .ok (-EINVAL, s) := by
      unfold sysClose
      rw [dif_neg hlt]
      rfl
    rw [dup2Right_of_eq (sysDup2_eq hclose)]
    cases hsome : (s.openFile t oldfd).isSome with
    | false =>
        rw [dupfd_closed hsome]
        exact ⟨fun _ => .refl s, fun h => absurd h (show ¬0 ≤ -EBADF by decide), fun h => by cases h⟩
    | true =>
        obtain ⟨⟨i, f⟩, hopen⟩ := Option.isSome_iff_exists.1 hsome
        have hret : s.dupfd t oldfd newfd = (-EINVAL, s) := by
          unfold dupfd
          rw [hopen]
          exact if_pos (Nat.not_lt.1 hlt)
        rw [hret]
        refine ⟨fun _ => .refl s, fun h => absurd h (show ¬0 ≤ -EINVAL by decide), fun _ heq => ?_⟩
        obtain ⟨hlt', -⟩ := openFile_isSome.1 hsome
        exact absurd (heq ▸ hlt') hlt

/-- Descriptor 3 is open, and descriptor 7 is not. -/
def oneOpen : Files Unit where
  file := fun f => if f.val = 0 then ⟨1, 0, 1, some (), 0⟩ else ⟨0, 0, 0, none, 0⟩
  task := fun t => ⟨true, fun fd => if t.val = 1 ∧ fd.val = 3 then some ⟨0, Nat.succ_pos 63⟩ else none,
    fun _ => false, false, -1⟩
  given := fun _ => []
  put := fun _ => []

/-- A copy of descriptor 7 to descriptor 3 fails and closes descriptor 3. -/
theorem dup2_closes_target : ¬oneOpen.Dup2Right 1 7 3 := by
  intro h
  have hlt : 3 < NR_OPEN := by decide
  have hopen : (oneOpen.task 1).filp ⟨3, hlt⟩ = some ⟨0, Nat.succ_pos 63⟩ := rfl
  have hsome := ((dup2_target_open hlt hopen).1 h).2.1
  cases hsome

end Dup

end Files

end MyJavaExample.Fs
