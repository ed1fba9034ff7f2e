import MyJavaExample.Blk.HardDisk

/-!
# The hard disk driver completes each request once

`Ready` is the state in which `do_hd_request` is called and `Inv` the one in
which the driver waits for the controller.  Between two waits there is one
answer of the controller, and every answer makes `work` smaller.

The invariant needs that no request fails for the seventh time: `bad_rw_intr`
ends such a request and then looks at `CURRENT->errors`, which belongs to the
next request or to none.  It also needs that a request is taken again after a
failure, which is not so for the last sector of a partition.
-/

namespace MyJavaExample.Blk

open Lib

variable {d : Drives} {s : Hd} {j : Job} {rest : List Job}

/-! ## Requests in progress -/

/-- A request of this device that the driver can execute. -/
structure Job.Good (j : Job) : Prop where
  major_eq : major j.dev = 3
  cmd : j.cmd = READ ∨ j.cmd = WRITE

/-- All but the last `nrSectors` sectors are transferred. -/
structure Job.Partial (j : Job) : Prop extends Job.Good j where
  pos : 0 < j.nrSectors
  le : j.nrSectors ≤ j.count
  sector_eq : j.sector = j.firstSector + (j.count - j.nrSectors)
  buffer_eq : j.buffer = j.firstBuffer + 512 * (j.count - j.nrSectors)
  moved_eq : j.moved = (List.range (j.count - j.nrSectors)).map fun i =>
    (j.firstSector + i, j.firstBuffer + 512 * i)
  errors_lt : j.errors < MAX_ERRORS

/-- A request that waits for its turn. -/
structure Job.Fresh (d : Drives) (j : Job) : Prop extends Job.Partial j where
  errors_eq : j.errors = 0
  accepts : Hd.Accepts d j.toRequest

/-- One more sector was transferred. -/
theorem Job.Partial.moved_concat (h : j.Partial) :
    j.moved ++ [(j.sector, j.buffer)] =
      (List.range (j.count - (j.nrSectors - 1))).map fun i =>
        (j.firstSector + i, j.firstBuffer + 512 * i) := by
  have hpos := h.pos
  have hle := h.le
  have hsucc : j.count - (j.nrSectors - 1) = (j.count - j.nrSectors) + 1 := by omega
  rw [hsucc, List.range_succ, List.map_append, h.moved_eq, h.sector_eq, h.buffer_eq]
  rfl

/-- The request after one more sector of several. -/
theorem Job.Partial.advance (h : j.Partial) (hmore : j.nrSectors - 1 ≠ 0) {errors : ℤ}
    (herrors : errors < MAX_ERRORS) :
    Job.Partial
      { j with
        errors := errors
        buffer := j.buffer + 512
        sector := j.sector + 1
        nrSectors := j.nrSectors - 1
        moved := (List.range (j.count - (j.nrSectors - 1))).map fun i =>
          (j.firstSector + i, j.firstBuffer + 512 * i) } := by
  have hpos := h.pos
  have hle := h.le
  have hsector := h.sector_eq
  have hbuffer := h.buffer_eq
  refine ⟨⟨h.major_eq, h.cmd⟩, Nat.pos_of_ne_zero hmore, ?_, ?_, ?_, rfl, herrors⟩ <;>
    dsimp only <;> omega

/-- The request after its last sector. -/
theorem Job.complete_of_last (hlast : ¬j.nrSectors - 1 ≠ 0) {k : Job} (hcount : k.count = j.count)
    (hsector : k.firstSector = j.firstSector) (hbuffer : k.firstBuffer = j.firstBuffer)
    (hmoved : k.moved = (List.range (j.count - (j.nrSectors - 1))).map fun i =>
      (j.firstSector + i, j.firstBuffer + 512 * i)) : k.Complete := by
  have hzero : j.count - (j.nrSectors - 1) = j.count := by omega
  rw [Job.Complete, hmoved, hcount, hsector, hbuffer, hzero]

namespace Hd

/-! ## Waiting for the controller -/

/-- What the driver waits for while it works on `j`. -/
inductive Armed (d : Drives) (s : Hd) (j : Job) : Prop where
  | drq (hwait : s.waitDrq = true) (hdo : s.doHd = some .write) (haccepts : Accepts d j.toRequest)
  | read (hwait : s.waitDrq = false) (hdo : s.doHd = some .read)
  | write (hwait : s.waitDrq = false) (hdo : s.doHd = some .write) (hsent : s.sent = some j.buffer)
  | recal (hwait : s.waitDrq = false) (hdo : s.doHd = some .recal)
      (haccepts : Accepts d j.toRequest)

/-- What holds of the requests, whatever the driver does. -/
structure Jobs (d : Drives) (s : Hd) : Prop where
  once : Once s
  panicked : s.panicked = false
  first : ∀ j ∈ s.queue.head?, j.Partial
  others : ∀ j ∈ s.queue.tail, j.Fresh d

/-- `do_hd_request` is called. -/
structure Ready (d : Drives) (s : Hd) : Prop extends Jobs d s where
  wait : s.waitDrq = false
  idle : s.queue = [] → s.doHd = none
  accepts : ∀ j ∈ s.queue.head?, Accepts d j.toRequest

/-- The driver waits, or has nothing to do. -/
structure Inv (d : Drives) (s : Hd) : Prop extends Jobs d s where
  idle : s.queue = [] → s.waitDrq = false ∧ s.doHd = none
  armed : ∀ j ∈ s.queue.head?, Armed d s j ∧ s.reset = false

theorem minor_lt {dev : ℤ} (h : minor dev < 5 * d.nrHd) : minor dev / 5 < d.nrHd := by omega

/-- A command to an existing drive is given. -/
theorem hdOut_eq {c : HdCommand} {intr : Intr} (hdrive : c.drive < d.nrHd) (hhead : c.head < 16) :
    s.hdOut c intr = { s with doHd := some intr, command := some c } := by
  have hnr := d.nrHd_le
  rw [hdOut, if_neg]
  simp only [MAX_HD] at hnr
  omega

/-- `do_hd_request` gives a command and leaves the requests alone. -/
theorem start_spec (hgood : j.Good) (haccepts : Accepts d j.toRequest) (hidle : s.waitDrq = false) :
    Armed d (start d s j) j ∧ (start d s j).reset = false ∧
      ((start d s j).queue, (start d s j).ended, (start d s j).added, (start d s j).misused,
        (start d s j).panicked) = (s.queue, s.ended, s.added, s.misused, s.panicked) ∧
      (start d s j).phase ≤ if s.reset then 4 else if s.recalibrate then 3 else 2 := by
  have hdrive := minor_lt haccepts.1
  have hpos := d.head_pos _ hdrive
  have hle := d.head_le _ hdrive
  have hmod : ∀ n, n % (d.info (minor j.dev / 5)).head < 16 := fun n =>
    Nat.lt_of_lt_of_le (Nat.mod_lt n hpos) hle
  have hout : ∀ (s : Hd) (c : HdCommand) (intr : Intr), c.drive = minor j.dev / 5 → c.head < 16 →
      s.hdOut c intr = { s with doHd := some intr, command := some c } :=
    fun s c intr h₁ h₂ => hdOut_eq (h₁ ▸ hdrive) h₂
  unfold start
  cases hreset : s.reset with
  | true =>
      simp only [if_true]
      rw [hout _ _ _ rfl (by simp only; omega)]
      exact ⟨.recal hidle rfl haccepts, rfl, rfl, by simp [phase, hidle]⟩
  | false =>
      simp only [Bool.false_eq_true, if_false]
      cases hrecal : s.recalibrate with
      | true =>
          simp only [if_true]
          rw [hout _ _ _ rfl (by simp)]
          exact ⟨.recal hidle rfl haccepts, rfl, rfl, by simp [phase, hidle]⟩
      | false =>
          simp only [Bool.false_eq_true, if_false]
          rcases hgood.cmd with hcmd | hcmd
          · rw [if_neg (by rw [hcmd]; decide), if_pos hcmd, hout _ _ _ rfl (hmod _)]
            exact ⟨.read hidle rfl, hreset, rfl, by simp [phase, hidle]⟩
          · rw [if_pos hcmd, hout _ _ _ rfl (hmod _)]
            exact ⟨.drq rfl rfl haccepts, rfl, rfl, by simp [phase]⟩

theorem doHdRequest_nil (h : s.queue = []) : doHdRequest d s = s := by
  rw [doHdRequest, h, repeatRequest, ← h]

theorem doHdRequest_cons (h : s.queue = j :: rest) (hgood : j.Good)
    (haccepts : Accepts d j.toRequest) : doHdRequest d s = start d s j := by
  rw [doHdRequest, h, repeatRequest, if_neg (not_not_intro hgood.major_eq),
    if_neg (not_not_intro haccepts), ← h]

/-- Jobs are about the queue and what was ended. -/
theorem Jobs.congr {s' : Hd} (h : Jobs d s)
    (heq : (s'.queue, s'.ended, s'.added, s'.misused, s'.panicked) =
      (s.queue, s.ended, s.added, s.misused, s.panicked)) : Jobs d s' := by
  obtain ⟨h₁, h₂, h₃, h₄, h₅⟩ : s'.queue = s.queue ∧ s'.ended = s.ended ∧ s'.added = s.added ∧
      s'.misused = s.misused ∧ s'.panicked = s.panicked := by simpa using heq
  refine ⟨⟨?_, ?_, ?_, ?_⟩, ?_, ?_, ?_⟩ <;> simp only [h₁, h₂, h₃, h₄, h₅]
  exacts [h.once.nodup, h.once.perm, h.once.ended, h.once.misused, h.panicked, h.first, h.others]

/-- After `do_hd_request` the driver waits, with the same queue. -/
theorem Ready.doHdRequest (h : Ready d s) :
    Inv d (doHdRequest d s) ∧ (s.doHdRequest d).queue = s.queue ∧
      (s.doHdRequest d).phase ≤ if s.reset then 4 else if s.recalibrate then 3 else 2 := by
  cases hq : s.queue with
  | nil =>
      rw [doHdRequest_nil hq]
      refine ⟨⟨h.toJobs, fun _ => ⟨h.wait, h.idle hq⟩, fun j hj => ?_⟩, hq, ?_⟩
      · rw [hq] at hj
        cases hj
      · rw [phase, h.wait, h.idle hq]
        exact Nat.zero_le _
  | cons j rest =>
      have hj : j ∈ s.queue.head? := by rw [hq]; rfl
      have hgood := (h.first j hj).toGood
      rw [doHdRequest_cons hq hgood (h.accepts j hj)]
      obtain ⟨harmed, hreset, heq, hphase⟩ := start_spec hgood (h.accepts j hj) h.wait
      have hqueue : (start d s j).queue = j :: rest := (Prod.mk.inj heq).1.trans hq
      refine ⟨⟨h.toJobs.congr heq, fun hnil => ?_, fun k hk => ?_⟩, hqueue, hphase⟩
      · rw [hqueue] at hnil
        cases hnil
      · rw [hqueue] at hk
        cases hk
        exact ⟨harmed, hreset⟩

theorem Ready.phase_le (h : Ready d s) : (s.doHdRequest d).phase ≤ 4 := by
  obtain ⟨-, -, hphase⟩ := h.doHdRequest
  refine Nat.le_trans hphase ?_
  split
  · exact Nat.le_refl 4
  · split <;> decide

/-! ## What an answer does -/

/-- A failure that is not the last one is counted. -/
theorem badRwIntr_eq (h : s.queue = j :: rest) (hlt : j.errors + 1 < MAX_ERRORS) (null : ℤ) :
    s.badRwIntr null =
      { s with
        queue := { j with errors := j.errors + 1 } :: rest
        reset := s.reset || decide (MAX_ERRORS / 2 < j.errors + 1) } := by
  unfold badRwIntr
  rw [h]
  dsimp only
  rw [if_neg (by omega)]

/-- The requests after a step that changes the first one but not its number. -/
theorem Jobs.setFirst (h : Jobs d s) (hq : s.queue = j :: rest) {k : Job} (hk : k.Partial)
    (hid : k.id = j.id) {s' : Hd}
    (heq : (s'.queue, s'.ended, s'.added, s'.misused, s'.panicked) =
      (k :: rest, s.ended, s.added, s.misused, s.panicked)) : Jobs d s' := by
  obtain ⟨h₁, h₂, h₃, h₄, h₅⟩ : s'.queue = k :: rest ∧ s'.ended = s.ended ∧ s'.added = s.added ∧
      s'.misused = s.misused ∧ s'.panicked = s.panicked := by simpa using heq
  have hids : s'.queue.map (·.id) = s.queue.map (·.id) := by
    rw [h₁, hq, List.map_cons, List.map_cons, hid]
  refine ⟨⟨?_, ?_, ?_, ?_⟩, ?_, ?_, ?_⟩
  · rw [hids, h₂]
    exact h.once.nodup
  · rw [hids, h₂, h₃]
    exact h.once.perm
  · rw [h₂]
    exact h.once.ended
  · rw [h₄]
    exact h.once.misused
  · rw [h₅]
    exact h.panicked
  · rw [h₁]
    rintro x ⟨⟩
    exact hk
  · have := h.others
    rw [hq] at this
    rw [h₁]
    exact this

/-- A failure is followed by a new attempt. -/
theorem Jobs.fail (h : Jobs d s) (hq : s.queue = j :: rest) (hwait : s.waitDrq = false)
    (hretries : Retries d s) (null : ℤ) :
    Inv d ((s.badRwIntr null).doHdRequest d) ∧
      ((s.badRwIntr null).doHdRequest d).work < cost s.queue := by
  obtain ⟨hlt, haccepts⟩ := hretries j (by rw [hq]; rfl)
  have hj := h.first j (by rw [hq]; rfl)
  have hk : Job.Partial { j with errors := j.errors + 1 } :=
    ⟨⟨hj.major_eq, hj.cmd⟩, hj.pos, hj.le, hj.sector_eq, hj.buffer_eq, hj.moved_eq, hlt⟩
  have hready : Ready d (s.badRwIntr null) := by
    rw [badRwIntr_eq hq hlt]
    refine ⟨h.setFirst hq hk rfl rfl, hwait, fun hnil => absurd hnil (List.cons_ne_nil _ _), ?_⟩
    rintro x ⟨⟩
    exact haccepts
  obtain ⟨hinv, hqueue, -⟩ := hready.doHdRequest
  refine ⟨hinv, ?_⟩
  have hphase := hready.phase_le
  rw [work, hqueue, badRwIntr_eq hq hlt, hq]
  simp only [cost]
  simp only [MAX_ERRORS] at hlt
  rw [badRwIntr_eq hq hlt] at hphase
  omega

/-- The first request is ended after its last sector. -/
theorem Jobs.finish (h : Jobs d s) (hq : s.queue = j :: rest)
    (hidle : s.waitDrq = false ∧ s.doHd = none) {k : Job} (hid : k.id = j.id) (hk : k.Complete) :
    Inv d ((s.endRequest k rest true).doHdRequest d) ∧
      ((s.endRequest k rest true).doHdRequest d).work < cost s.queue := by
  have hothers := h.others
  rw [hq] at hothers
  have hids : (s.ended ++ [(k, true)]).map (·.1.id) ++ rest.map (·.id) =
      s.ended.map (·.1.id) ++ s.queue.map (·.id) := by
    rw [hq, List.map_append, List.append_assoc]
    simp [hid]
  have hready : Ready d (s.endRequest k rest true) := by
    refine ⟨⟨⟨?_, ?_, fun e he => ?_, h.once.misused⟩, h.panicked, fun x hx => ?_, fun x hx => ?_⟩,
      hidle.1, fun _ => hidle.2, fun x hx => ?_⟩
    · exact hids ▸ h.once.nodup
    · exact hids ▸ h.once.perm
    · rcases List.mem_append.1 he with he | he
      · exact h.once.ended e he
      · rw [List.mem_singleton.1 he]
        exact Or.inl ⟨rfl, hk⟩
    · exact (hothers x (List.mem_of_mem_head? hx)).toPartial
    · exact hothers x (List.mem_of_mem_tail hx)
    · exact (hothers x (List.mem_of_mem_head? hx)).accepts
  obtain ⟨hinv, hqueue, -⟩ := hready.doHdRequest
  refine ⟨hinv, ?_⟩
  have hphase := hready.phase_le
  have hpos := (h.first j (by rw [hq]; rfl)).pos
  have hrest : cost rest + 4 ≤ (rest.map fun k => 35 * k.nrSectors + 34).sum + 4 := by
    cases rest with
    | nil => exact Nat.le_refl _
    | cons x rest =>
        have hx := (hothers x List.mem_cons_self).errors_eq
        simp only [cost, List.map_cons, List.sum_cons, hx]
        omega
  rw [work, hqueue, hq]
  simp only [cost]
  change cost rest + _ < _
  omega

/-- The answer to a read command. -/
theorem Jobs.readIntr (h : Jobs d s) (hq : s.queue = j :: rest)
    (hidle : s.waitDrq = false ∧ s.doHd = none) (hreset : s.reset = false) (null : ℤ) {ok : Bool}
    (hretries : ok = false → Retries d s) :
    Inv d (s.readIntr d null ok) ∧ (s.readIntr d null ok).work < cost s.queue + 1 := by
  have hj := h.first j (by rw [hq]; rfl)
  unfold Hd.readIntr
  cases ok with
  | false =>
      obtain ⟨hinv, hwork⟩ := h.fail hq hidle.1 (hretries rfl) null
      exact ⟨hinv, Nat.lt_succ_of_lt hwork⟩
  | true =>
      have hpos := hj.pos
      simp only [Bool.not_true, Bool.false_eq_true, if_false]
      rw [hq]
      dsimp only
      rw [hj.moved_concat]
      split
      next hmore =>
        refine ⟨⟨h.setFirst hq (hj.advance hmore (by decide)) rfl rfl,
          fun hnil => absurd hnil (List.cons_ne_nil _ _), ?_⟩, ?_⟩
        · rintro x ⟨⟩
          exact ⟨.read hidle.1 rfl, hreset⟩
        · simp only [work, cost, phase, hidle.1, Bool.false_eq_true, if_false]
          omega
      next hlast =>
        rw [← hq]
        refine And.imp_right Nat.lt_succ_of_lt (h.finish hq hidle ?_ ?_)
        · rfl
        · exact Job.complete_of_last hlast rfl rfl rfl rfl

/-- The answer to a write command. -/
theorem Jobs.writeIntr (h : Jobs d s) (hq : s.queue = j :: rest)
    (hidle : s.waitDrq = false ∧ s.doHd = none) (hreset : s.reset = false)
    (hsent : s.sent = some j.buffer) (null : ℤ) {ok : Bool}
    (hretries : ok = false → Retries d s) :
    Inv d (s.writeIntr d null ok) ∧ (s.writeIntr d null ok).work < cost s.queue + 1 := by
  have hj := h.first j (by rw [hq]; rfl)
  unfold Hd.writeIntr
  cases ok with
  | false =>
      obtain ⟨hinv, hwork⟩ := h.fail hq hidle.1 (hretries rfl) null
      exact ⟨hinv, Nat.lt_succ_of_lt hwork⟩
  | true =>
      have hpos := hj.pos
      simp only [Bool.not_true, Bool.false_eq_true, if_false]
      rw [hq]
      dsimp only
      rw [hsent, Option.toList_some, List.map_singleton, hj.moved_concat]
      split
      next hmore =>
        refine ⟨⟨h.setFirst hq (hj.advance hmore hj.errors_lt) rfl rfl,
          fun hnil => absurd hnil (List.cons_ne_nil _ _), ?_⟩, ?_⟩
        · rintro x ⟨⟩
          exact ⟨.write hidle.1 rfl rfl, hreset⟩
        · simp only [work, cost, phase, hidle.1, Bool.false_eq_true, if_false]
          omega
      next hlast =>
        rw [← hq]
        refine And.imp_right Nat.lt_succ_of_lt (h.finish hq hidle ?_ ?_)
        · rfl
        · exact Job.complete_of_last hlast rfl rfl rfl rfl

/-- The answer to a recalibration. -/
theorem Jobs.recalIntr (h : Jobs d s) (hq : s.queue = j :: rest)
    (hidle : s.waitDrq = false ∧ s.doHd = none) (hreset : s.reset = false)
    (haccepts : Accepts d j.toRequest) (null : ℤ) {ok : Bool}
    (hretries : ok = false → Retries d s) :
    Inv d (s.recalIntr d null ok) ∧
      (s.recalIntr d null ok).work < cost s.queue + if s.recalibrate then 4 else 3 := by
  unfold Hd.recalIntr
  cases ok with
  | false =>
      obtain ⟨hinv, hwork⟩ := h.fail hq hidle.1 (hretries rfl) null
      exact ⟨hinv, Nat.lt_of_lt_of_le hwork (Nat.le_add_right _ _)⟩
  | true =>
      have hready : Ready d s := by
        refine ⟨h, hidle.1, fun _ => hidle.2, fun x hx => ?_⟩
        rw [hq] at hx
        cases hx
        exact haccepts
      obtain ⟨hinv, hqueue, hphase⟩ := hready.doHdRequest
      refine ⟨hinv, ?_⟩
      simp only [Bool.not_true, Bool.false_eq_true, if_false]
      rw [work, hqueue]
      rw [hreset] at hphase
      cases hrecal : s.recalibrate with
      | true =>
          simp only [hrecal, Bool.false_eq_true, if_false, if_true] at hphase ⊢
          omega
      | false =>
          simp only [hrecal, Bool.false_eq_true, if_false] at hphase ⊢
          omega

/-- The answer to the wait for `DRQ`. -/
theorem Jobs.drq (h : Jobs d s) (hq : s.queue = j :: rest) (hdo : s.doHd = some .write)
    (hreset : s.reset = false) (null : ℤ) {ready : Bool} (hretries : ready = false → Retries d s) :
    Inv d (s.drq d null ready) ∧ (s.drq d null ready).work < cost s.queue + 2 := by
  have h' : Jobs d { s with waitDrq := false } := h.congr rfl
  unfold Hd.drq
  cases ready with
  | false =>
      obtain ⟨hinv, hwork⟩ := h'.fail hq rfl (hretries rfl) null
      exact ⟨hinv, Nat.lt_of_lt_of_le hwork (Nat.le_add_right _ _)⟩
  | true =>
      simp only [Bool.not_true, Bool.false_eq_true, if_false, hq]
      refine ⟨⟨h.setFirst hq (h.first j (by rw [hq]; rfl)) rfl rfl,
        fun hnil => absurd hnil (List.cons_ne_nil _ _), ?_⟩, ?_⟩
      · rintro x ⟨⟩
        exact ⟨.write rfl hdo rfl, hreset⟩
      · simp only [work, phase, hdo, Bool.false_eq_true, if_false]
        omega

/-! ## Runs -/

/-- An interrupt keeps the invariant and brings the work forward. -/
theorem Inv.hdInterrupt (h : Inv d s) (hwait : s.waitDrq = false) {ok : Bool} (null : ℤ)
    (hretries : ok = false → s.doHd ≠ none → Retries d s) :
    Inv d (s.hdInterrupt d null ok) ∧ (s.queue ≠ [] → (s.hdInterrupt d null ok).work < s.work) := by
  have hjobs : Jobs d { s with doHd := none } := h.toJobs.congr rfl
  by_cases hq : s.queue = []
  · have heq : s.hdInterrupt d null ok = s := by rw [Hd.hdInterrupt, (h.idle hq).2]
    rw [heq]
    exact ⟨h, fun hne => absurd hq hne⟩
  · obtain ⟨j, rest, hq⟩ := List.exists_cons_of_ne_nil hq
    obtain ⟨harmed, hreset⟩ := h.armed j (by rw [hq]; rfl)
    cases harmed with
    | drq hw _ _ =>
        rw [hwait] at hw
        cases hw
    | read _ hdo =>
        have heq : s.hdInterrupt d null ok = { s with doHd := none }.readIntr d null ok := by
          rw [Hd.hdInterrupt, hdo]
        have hwork : s.work = cost s.queue + 1 := by simp [work, phase, hwait, hdo]
        rw [heq, hwork]
        exact (hjobs.readIntr hq ⟨hwait, rfl⟩ hreset null fun hr =>
          hretries hr (by rw [hdo]; exact Option.some_ne_none _)).imp_right fun hlt _ => hlt
    | write _ hdo hsent =>
        have heq : s.hdInterrupt d null ok = { s with doHd := none }.writeIntr d null ok := by
          rw [Hd.hdInterrupt, hdo]
        have hwork : s.work = cost s.queue + 1 := by simp [work, phase, hwait, hdo]
        rw [heq, hwork]
        exact (hjobs.writeIntr hq ⟨hwait, rfl⟩ hreset hsent null fun hr =>
          hretries hr (by rw [hdo]; exact Option.some_ne_none _)).imp_right fun hlt _ => hlt
    | recal _ hdo haccepts =>
        have heq : s.hdInterrupt d null ok = { s with doHd := none }.recalIntr d null ok := by
          rw [Hd.hdInterrupt, hdo]
        have hwork : s.work = cost s.queue + if s.recalibrate then 4 else 3 := by
          simp [work, phase, hwait, hdo]
        rw [heq, hwork]
        exact (hjobs.recalIntr hq ⟨hwait, rfl⟩ hreset haccepts null fun hr =>
          hretries hr (by rw [hdo]; exact Option.some_ne_none _)).imp_right fun hlt _ => hlt

/-- The end of the wait for `DRQ` does as well. -/
theorem Inv.drq (h : Inv d s) (hwait : s.waitDrq = true) {ready : Bool} (null : ℤ)
    (hretries : ready = false → Retries d s) :
    Inv d (s.drq d null ready) ∧ (s.drq d null ready).work < s.work := by
  cases hq : s.queue with
  | nil =>
      rw [(h.idle hq).1] at hwait
      cases hwait
  | cons j rest =>
      obtain ⟨harmed, hreset⟩ := h.armed j (by rw [hq]; rfl)
      have hno : s.waitDrq ≠ false := by
        rw [hwait]
        decide
      cases harmed with
      | drq _ hdo _ =>
          have hwork : s.work = cost s.queue + 2 := by simp [work, phase, hwait]
          rw [hwork]
          exact h.toJobs.drq hq hdo hreset null hretries
      | read hw _ => exact absurd hw hno
      | write hw _ _ => exact absurd hw hno
      | recal hw _ _ => exact absurd hw hno

theorem make_fresh {id : ℕ} {dev cmd : ℤ} {sector nrSectors buffer : ℕ} (hmajor : major dev = 3)
    (hcmd : cmd = READ ∨ cmd = WRITE) (hpos : 0 < nrSectors)
    (haccepts : Accepts d (Job.make 0 dev cmd sector nrSectors buffer).toRequest) :
    (Job.make id dev cmd sector nrSectors buffer).Fresh d where
  major_eq := hmajor
  cmd := hcmd
  pos := hpos
  le := Nat.le_refl _
  sector_eq := by simp [Job.make]
  buffer_eq := by simp [Job.make]
  moved_eq := by simp [Job.make]
  errors_lt := by simp [Job.make, MAX_ERRORS]
  errors_eq := rfl
  accepts := haccepts

/-- The numbers of the requests when one is added. -/
theorem Once.add (h : Once s) (hnew : j.id ∉ s.added) {queue : List Job}
    (hqueue : queue.Perm (j :: s.queue)) {s' : Hd}
    (heq : (s'.queue, s'.ended, s'.added, s'.misused) =
      (queue, s.ended, j.id :: s.added, s.misused)) : Once s' := by
  obtain ⟨h₁, h₂, h₃, h₄⟩ : s'.queue = queue ∧ s'.ended = s.ended ∧ s'.added = j.id :: s.added ∧
      s'.misused = s.misused := by simpa using heq
  have hids : (s'.ended.map (·.1.id) ++ s'.queue.map (·.id)).Perm
      (j.id :: (s.ended.map (·.1.id) ++ s.queue.map (·.id))) := by
    rw [h₁, h₂]
    exact ((hqueue.map (·.id)).append_left _).trans List.perm_middle
  refine ⟨?_, ?_, ?_, ?_⟩
  · rw [hids.nodup_iff, List.nodup_cons]
    exact ⟨fun hmem => hnew (h.perm.mem_iff.1 hmem), h.nodup⟩
  · rw [h₃]
    exact hids.trans (h.perm.cons _)
  · rw [h₂]
    exact h.ended
  · rw [h₄]
    exact h.misused

theorem Inv.addRequest (h : Inv d s) (hj : j.Fresh d) (hnew : j.id ∉ s.added) (at' : ℕ) :
    Inv d (s.addRequest d j at') := by
  by_cases hq : s.queue = []
  · have heq : s.addRequest d j at' =
        { s with added := j.id :: s.added, queue := [j] }.doHdRequest d := by
      simp only [Hd.addRequest, hq]
    have hready : Ready d { s with added := j.id :: s.added, queue := [j] } := by
      refine ⟨⟨h.once.add hnew (hq ▸ .refl _) rfl, h.panicked, ?_, ?_⟩, (h.idle hq).1,
        fun hnil => absurd hnil (List.cons_ne_nil _ _), ?_⟩
      · rintro x ⟨⟩
        exact hj.toPartial
      · exact fun x hx => absurd hx List.not_mem_nil
      · rintro x ⟨⟩
        exact hj.accepts
    rw [heq]
    exact hready.doHdRequest.1
  · obtain ⟨k, rest, hq⟩ := List.exists_cons_of_ne_nil hq
    have heq : s.addRequest d j at' =
        { s with
          added := j.id :: s.added
          queue := k :: (rest.take at' ++ j :: rest.drop at') } := by
      simp only [Hd.addRequest, hq]
    have hperm : (k :: (rest.take at' ++ j :: rest.drop at')).Perm (j :: s.queue) := by
      rw [hq]
      refine (List.perm_middle.cons k).trans ?_
      rw [List.take_append_drop]
      exact List.Perm.swap j k rest
    have hothers := h.others
    rw [hq] at hothers
    rw [heq]
    refine ⟨⟨h.once.add hnew hperm rfl, h.panicked, ?_, fun x hx => ?_⟩,
      fun hnil => absurd hnil (List.cons_ne_nil _ _), ?_⟩
    · rintro x ⟨⟩
      exact h.first k (by rw [hq]; rfl)
    · rcases List.mem_append.1 hx with hx | hx
      · exact hothers x (List.mem_of_mem_take hx)
      · rcases List.mem_cons.1 hx with rfl | hx
        · exact hj
        · exact hothers x (List.mem_of_mem_drop hx)
    · rintro x ⟨⟩
      obtain ⟨harmed, hreset⟩ := h.armed k (by rw [hq]; rfl)
      refine ⟨?_, hreset⟩
      cases harmed with
      | drq hw hdo ha => exact .drq hw hdo ha
      | read hw hdo => exact .read hw hdo
      | write hw hdo hs => exact .write hw hdo hs
      | recal hw hdo ha => exact .recal hw hdo ha

theorem Inv.next (h : Inv d s) {a : HdAction} (hok : s.Valid a ∧ s.Recovers d a) :
    Inv d (s.next d a) := by
  obtain ⟨hvalid, hok⟩ := hok
  have hpanicked : ¬s.panicked = true := by
    rw [h.panicked]
    decide
  unfold Hd.next
  rw [if_neg hpanicked]
  cases a with
  | add id dev cmd sector nrSectors buffer at' =>
      obtain ⟨hnew, hmajor, hcmd, hpos⟩ := hvalid
      exact h.addRequest (make_fresh hmajor hcmd hpos hok) hnew at'
  | interrupt ok null =>
      dsimp only
      split
      next => exact h
      next hwait =>
        have hw := Bool.eq_false_of_not_eq_true hwait
        exact (h.hdInterrupt hw null fun hr => hok hr hw).1
  | drq ready null =>
      dsimp only
      split
      next hwait => exact (h.drq hwait null fun hr => hok hr hwait).1
      next => exact h

/-- The answer that the driver waits for. -/
theorem Inv.answer (h : Inv d s) {ok : Bool} (hok : s.Recovers d (s.answer ok)) :
    Inv d (s.next d (s.answer ok)) ∧
      (s.queue ≠ [] → (s.next d (s.answer ok)).work < s.work) := by
  refine ⟨h.next ⟨?_, hok⟩, fun hne => ?_⟩
  · unfold Hd.answer
    split <;> trivial
  · have hpanicked : ¬s.panicked = true := by
      rw [h.panicked]
      decide
    cases hwait : s.waitDrq with
    | true =>
        simp only [Hd.answer, hwait, if_true] at hok ⊢
        simp only [Hd.next, if_neg hpanicked, hwait, if_true]
        exact (h.drq hwait 0 fun hr => hok hr hwait).2
    | false =>
        simp only [Hd.answer, hwait, Bool.false_eq_true, if_false] at hok ⊢
        simp only [Hd.next, if_neg hpanicked, hwait, Bool.false_eq_true, if_false]
        exact (h.hdInterrupt hwait 0 fun hr => hok hr hwait).2 hne

/-- With as many answers as there is work, all requests are ended. -/
theorem Inv.finishes (h : Inv d s) {oks : List Bool} (hlen : s.work ≤ oks.length)
    (hok : EachStep (fun s ok => s.next d (s.answer ok)) (fun s ok => s.Recovers d (s.answer ok))
      s oks) : (oks.foldl (fun s ok => s.next d (s.answer ok)) s).queue = [] := by
  induction oks generalizing s with
  | nil =>
      by_contra hq
      obtain ⟨j, rest, hq⟩ := List.exists_cons_of_ne_nil hq
      have hpos := (h.first j (by rw [List.foldl_nil] at hq; rw [hq]; rfl)).pos
      rw [List.foldl_nil] at hq
      rw [work, hq, cost, List.length_nil] at hlen
      omega
  | cons ok oks ih =>
      obtain ⟨hinv, hlt⟩ := h.answer hok.1
      by_cases hq : s.queue = []
      · obtain ⟨hwait, hdo⟩ := h.idle hq
        have hsame : s.next d (s.answer ok) = s := by
          simp [Hd.answer, Hd.next, hwait, Hd.hdInterrupt, hdo]
        have hzero : s.work = 0 := by simp [work, hq, cost, phase, hwait, hdo]
        have hok' := hok.2
        rw [List.foldl_cons, hsame]
        simp only [hsame] at hok'
        exact ih h (by omega) hok'
      · refine ih hinv (Nat.le_of_lt_succ (Nat.lt_of_lt_of_le (hlt hq) ?_)) hok.2
        rwa [List.length_cons] at hlen

/-- If requests are inside their partitions, no request fails seven times and no
failure is at the last sector of a partition, each request is ended once, after
all its sectors, and the answers of the controller lead to its end. -/
theorem hd_completes_once (d : Drives) (as : List HdAction)
    (hvalid : EachStep (next d) Valid boot as) (h : EachStep (next d) (Recovers d) boot as) :
    Always (next d) Once boot as ∧
      ∀ oks : List Bool, (as.foldl (next d) boot).work ≤ oks.length →
        EachStep (fun s ok => s.next d (s.answer ok)) (fun s ok => s.Recovers d (s.answer ok))
          (as.foldl (next d) boot) oks →
        (oks.foldl (fun s ok => s.next d (s.answer ok)) (as.foldl (next d) boot)).queue = [] := by
  have hboot : Inv d boot := by
    refine ⟨⟨⟨List.nodup_nil, .refl _, fun e he => absurd he List.not_mem_nil, rfl⟩, rfl,
      fun j hj => ?_, fun j hj => absurd hj List.not_mem_nil⟩, fun _ => ⟨rfl, rfl⟩, fun j hj => ?_⟩
    · cases hj
    · cases hj
  have hinv := (hvalid.and h).always (P := Inv d) (fun _ hs => hs) (fun _ _ hs hok => hs.next hok) hboot
  refine ⟨(hvalid.and h).always (fun _ hs => hs.once) (fun _ _ hs hok => hs.next hok) hboot, ?_⟩
  exact fun oks hlen hok => hinv.last.finishes hlen hok

/-- One drive with one partition. -/
def oneDrive : Drives where
  nrHd := 1
  info _ := ⟨4, 17, 615⟩
  startSect n := if n = 1 then 1 else 0
  nrSects n := if n ≤ 1 then 41820 - n else 0
  nrHd_le := by decide
  sect_pos _ _ := by decide
  head_pos _ _ := by decide
  head_le _ _ := by decide

/-- A write that fails once, and a read that is added meanwhile. -/
theorem hd_completes_once_two :
    let as := [.add 1 0x301 WRITE 4 2 0 0, .interrupt true 0, .interrupt true 0, .drq true 0,
      .add 2 0x301 READ 8 2 1024 0, .interrupt false 0, .drq true 0, .interrupt true 0,
      .interrupt true 0, .interrupt true 0]
    (EachStep (next oneDrive) Valid boot as ∧ EachStep (next oneDrive) (Recovers oneDrive) boot as) ∧
      Always (next oneDrive) Once boot as :=
  have hvalid : EachStep (next oneDrive) Valid boot [.add 1 0x301 WRITE 4 2 0 0, .interrupt true 0,
      .interrupt true 0, .drq true 0, .add 2 0x301 READ 8 2 1024 0, .interrupt false 0, .drq true 0,
      .interrupt true 0, .interrupt true 0, .interrupt true 0] := by decide +kernel
  have h : EachStep (next oneDrive) (Recovers oneDrive) boot [.add 1 0x301 WRITE 4 2 0 0,
      .interrupt true 0, .interrupt true 0, .drq true 0, .add 2 0x301 READ 8 2 1024 0,
      .interrupt false 0, .drq true 0, .interrupt true 0, .interrupt true 0, .interrupt true 0] := by
    decide +kernel
  ⟨⟨hvalid, h⟩, (hd_completes_once oneDrive _ hvalid h).1⟩

/-- When the only request fails for the seventh time, `bad_rw_intr` reads the
errors of no request. -/
theorem hd_uses_null_request :
    ¬∀ d as, EachStep (next d) Valid boot as → Always (next d) Once boot as := by
  intro h
  have hlast := (h oneDrive (.add 1 0x301 READ 4 2 0 0 :: List.replicate 7 (.interrupt false 0))
    (by decide +kernel)).last.misused
  revert hlast
  decide +kernel

end Hd

end MyJavaExample.Blk
