import Mathlib.Data.Finset.Card
import MyJavaExample.Kernel.Sem
import MyJavaExample.Lib.Exec

/-!
# What `sys_sem_open` returns

A run of `sys_sem_open` calls is read as a history: the calls with the values
they returned.  `TableInv` says how the table stands to the names opened so
far: every used slot holds one of them, every one of them has exactly one slot,
and an unused slot has an empty name.  It is kept by every call
(`sysSemOpen_fresh`, `sysSemOpen_again`).

The call that opens a name for the first time stores it in a free slot and
returns the loop variable, which is `MAX_SEM_NUM` and designates no slot.  A
later open of the same name finds the slot.  So the returned value designates
the semaphore exactly when the name was opened before.
-/

namespace MyJavaExample.Kernel

open Lib

/-! ## Histories -/

/-- One call `sys_sem_open(name, value)`. -/
structure OpenCall where
  name : CString
  value : ℤ

/-- A call with the value it returned. -/
abbrev OpenEvent : Type := OpenCall × ℤ

/-- One call of `sys_sem_open`, with the value it returns. -/
def openStep (s : SemState) (e : OpenEvent) (s' : SemState) : Prop :=
  sysSemOpen (some e.1.name) e.1.value s = some (e.2, s')

/-- The names opened by a history. -/
def opened (h : List OpenEvent) : List CString := h.map fun e => e.1.name

@[simp] theorem opened_append (h : List OpenEvent) (e : OpenEvent) :
    opened (h ++ [e]) = opened h ++ [e.1.name] := by
  simp [opened]

/-- The calls the semaphores are meant for: non-empty names that fit their
array with a terminator, values of an initial count, and no more names than
slots. -/
structure ValidCalls (cs : List OpenCall) : Prop where
  nonempty : ∀ c ∈ cs, c.name.1 ≠ []
  length : ∀ c ∈ cs, strlen c.name ≤ 9
  value : ∀ c ∈ cs, 0 ≤ c.value
  names : (cs.map OpenCall.name).toFinset.card ≤ MAX_SEM_NUM

/-- The value `i` is the index of a used slot that holds the name. -/
def Designates (s : SemState) (i : ℤ) (name : CString) : Prop :=
  ∃ k : SemId, i = k ∧ (s.ksem k).use ≠ 0 ∧ cstr (s.ksem k).name = name.1

/-- What a call that returns `i` after the history `pre` should do. -/
structure CallMeets (pre : List OpenEvent) (s : SemState) (c : OpenCall) (i : ℤ)
    (s' : SemState) : Prop where
  designates : Designates s' i c.name
  first : c.name ∉ opened pre → ∀ k : SemId, i = k → (s'.ksem k).semV = c.value
  later : c.name ∈ opened pre → s'.ksem = s.ksem
  same : ∀ e ∈ pre, e.1.name = c.name → e.2 = i
  other : ∀ e ∈ pre, e.1.name ≠ c.name → e.2 ≠ i

/-- The calls run one after the other from boot, and each does what it
should. -/
def SemIdentity (cs : List OpenCall) : Prop :=
  ∃ h s, Exec openStep .boot h s ∧ h.map Prod.fst = cs ∧
    ∀ pre c i post s s', h = pre ++ (c, i) :: post → Exec openStep .boot pre s →
      openStep s (c, i) s' → CallMeets pre s c i s'

/-! ## Names in their arrays -/

theorem cstr_replicate (k : ℕ) : cstr (List.replicate k 0) = [] := by
  cases k with
  | zero => rfl
  | succ k => simp [cstr, List.replicate_succ]

/-- A C string copied to the front of a zeroed array is read back. -/
theorem cstr_strncpy (n : CString) (k : ℕ) :
    cstr (strncpy (List.replicate k 0) n (strlen n)) = n.1 := by
  have htake : (n.1 ++ List.replicate (strlen n) 0).take (strlen n) = n.1 := by
    simp [strlen]
  have hne : ∀ b ∈ n.1, decide (b ≠ 0) = true := by
    intro b hb
    have : b ≠ 0 := fun h0 => n.2 (h0 ▸ hb)
    simpa using this
  unfold strncpy
  rw [htake, List.drop_replicate]
  unfold cstr
  rw [List.takeWhile_append_of_pos hne]
  have := cstr_replicate (k - strlen n)
  unfold cstr at this
  rw [this, List.append_nil]

/-! ## The table and the names opened -/

/-- How the table stands to the names opened so far. -/
structure TableInv (ksem : SemId → SemSt) (names : List CString) : Prop where
  free : ∀ i, (ksem i).use = 0 → (ksem i).name = List.replicate MAX_NAME_LEN 0
  used : ∀ i, (ksem i).use ≠ 0 → ∃ n ∈ names, cstr (ksem i).name = n.1
  stored : ∀ n ∈ names, ∃ i, (ksem i).use ≠ 0 ∧ cstr (ksem i).name = n.1
  inj : ∀ i j, (ksem i).use ≠ 0 → (ksem j).use ≠ 0 →
    cstr (ksem i).name = cstr (ksem j).name → i = j

/-- A slot that reads a non-empty name is used. -/
theorem TableInv.use_of_name {ksem : SemId → SemSt} {names : List CString}
    (h : TableInv ksem names) {i : SemId} {n : CString} (hn : n.1 ≠ [])
    (hi : cstr (ksem i).name = n.1) : (ksem i).use ≠ 0 := by
  intro h0
  rw [h.free i h0, cstr_replicate] at hi
  exact hn hi.symm

/-- While fewer names than slots are open, a slot is free. -/
theorem TableInv.exists_free {ksem : SemId → SemSt} {names : List CString}
    (h : TableInv ksem names) (hc : names.toFinset.card < MAX_SEM_NUM) :
    ∃ i, (ksem i).use = 0 := by
  by_contra hall
  push Not at hall
  -- every slot is used, so the slots map injectively into the names
  choose f hf using fun i => h.used i (hall i)
  have hcard : (Finset.univ : Finset SemId).card ≤ names.toFinset.card := by
    refine Finset.card_le_card_of_injOn f (fun i _ => by simpa using (hf i).1) ?_
    intro i _ j _ hij
    exact h.inj i j (hall i) (hall j) (by rw [(hf i).2, (hf j).2, hij])
  rw [Finset.card_univ, Fintype.card_fin] at hcard
  omega

/-- Storing a new name in a free slot keeps the invariant. -/
theorem TableInv.store {ksem : SemId → SemSt} {names : List CString} (h : TableInv ksem names)
    {n : CString} (hnew : n ∉ names) {u : SemId} (hu : (ksem u).use = 0) {x : SemSt}
    (hx : x.use ≠ 0) (hxn : cstr x.name = n.1) :
    TableInv (Function.update ksem u x) (names ++ [n]) := by
  have hother : ∀ i, (ksem i).use ≠ 0 → cstr (ksem i).name ≠ n.1 := by
    intro i hi heq
    obtain ⟨m, hm, hmi⟩ := h.used i hi
    exact hnew (Subtype.ext (heq ▸ hmi) ▸ hm)
  constructor
  · intro i hi
    by_cases hiu : i = u
    · subst hiu
      simp [hx] at hi
    · rw [Function.update_of_ne hiu] at hi ⊢
      exact h.free i hi
  · intro i hi
    by_cases hiu : i = u
    · subst hiu
      exact ⟨n, by simp, by simpa using hxn⟩
    · rw [Function.update_of_ne hiu] at hi ⊢
      obtain ⟨m, hm, hmi⟩ := h.used i hi
      exact ⟨m, by simp [hm], hmi⟩
  · intro m hm
    rcases List.mem_append.1 hm with hm | hm
    · obtain ⟨i, hi, hmi⟩ := h.stored m hm
      have hiu : i ≠ u := by rintro rfl; exact hi hu
      exact ⟨i, by rwa [Function.update_of_ne hiu], by rwa [Function.update_of_ne hiu]⟩
    · rw [List.mem_singleton] at hm
      subst hm
      exact ⟨u, by simpa using hx, by simpa using hxn⟩
  · intro i j hi hj hij
    by_cases hiu : i = u <;> by_cases hju : j = u
    · rw [hiu, hju]
    · subst hiu
      rw [Function.update_of_ne hju] at hj hij
      rw [Function.update_self, hxn] at hij
      exact absurd hij.symm (hother j hj)
    · subst hju
      rw [Function.update_of_ne hiu] at hi hij
      rw [Function.update_self, hxn] at hij
      exact absurd hij (hother i hi)
    · rw [Function.update_of_ne hiu] at hi hij
      rw [Function.update_of_ne hju] at hj hij
      exact h.inj i j hi hj hij

/-- The state between two calls of a run that opened `names`. -/
structure OpenInv (s : SemState) (names : List CString) : Prop where
  table : TableInv (initKsem s).ksem names
  init : names ≠ [] → s.init = true

theorem initKsem_of_init {s : SemState} (h : s.init = true) : initKsem s = s := by
  simp [initKsem, h]

theorem initKsem_init (s : SemState) : (initKsem s).init = true := by
  unfold initKsem
  split
  next h => exact h
  next => rfl

theorem initKsem_cli_ksem (s : SemState) : (initKsem (cli s)).ksem = (initKsem s).ksem := by
  unfold initKsem cli
  by_cases h : s.init = true <;> simp [h]

theorem OpenInv.boot : OpenInv .boot [] := by
  refine ⟨⟨?_, ?_, ?_, ?_⟩, by simp⟩ <;> simp [initKsem, SemState.boot]

/-! ## One call -/

section Call

variable {s : SemState} {names : List CString} {c : OpenCall}

/-- The first open of a name stores it in a free slot and returns the length
of the table. -/
theorem sysSemOpen_fresh (h : OpenInv s names) (hn : c.name.1 ≠ []) (hl : strlen c.name ≤ 9)
    (hv : 0 ≤ c.value) (hnew : c.name ∉ names) (hc : names.toFinset.card < MAX_SEM_NUM) :
    ∃ s', sysSemOpen (some c.name) c.value s = some ((MAX_SEM_NUM : ℤ), s') ∧
      OpenInv s' (names ++ [c.name]) := by
  have hguard : ¬(strlen c.name = 0 ∨ c.value < 0) := by
    rintro (h0 | h0)
    · exact hn (List.length_eq_zero_iff.1 h0)
    · omega
  have ht : TableInv (initKsem (cli s)).ksem names := initKsem_cli_ksem s ▸ h.table
  cases hs : search (initKsem (cli s)).ksem c.name (List.finRange MAX_SEM_NUM) none with
  | found i =>
      have hi := search_found hs
      obtain ⟨m, hm, hmi⟩ := ht.used i (ht.use_of_name hn hi)
      exact absurd (Subtype.ext (hi ▸ hmi) ▸ hm) hnew
  | missing w =>
      obtain ⟨-, hw, hnone⟩ := search_missing hs (by simp)
      cases w with
      | none =>
          obtain ⟨i, hi⟩ := ht.exists_free hc
          exact absurd hi (hnone rfl i (List.mem_finRange i))
      | some u =>
          have hu : ((initKsem (cli s)).ksem u).use = 0 := hw u rfl
          have hlen : ¬MAX_NAME_LEN < strlen c.name := by
            unfold MAX_NAME_LEN
            omega
          refine ⟨_, by simp only [sysSemOpen, if_neg hguard, hs, if_neg hlen]; rfl, ?_⟩
          refine ⟨?_, fun _ => by simpa using initKsem_init _⟩
          rw [initKsem_of_init (by simpa using initKsem_init _)]
          refine ht.store hnew hu (by simp) ?_
          rw [ht.free u hu]
          exact cstr_strncpy c.name _

/-- A later open of a name returns its slot and changes no semaphore. -/
theorem sysSemOpen_again (h : OpenInv s names) (hn : c.name.1 ≠ []) (hv : 0 ≤ c.value)
    (hold : c.name ∈ names) :
    ∃ (k : SemId) (s' : SemState), sysSemOpen (some c.name) c.value s = some ((k : ℤ), s') ∧
      s'.ksem = s.ksem ∧ Designates s' k c.name ∧ OpenInv s' (names ++ [c.name]) := by
  have hguard : ¬(strlen c.name = 0 ∨ c.value < 0) := by
    rintro (h0 | h0)
    · exact hn (List.length_eq_zero_iff.1 h0)
    · omega
  have hinit : s.init = true := h.init (List.ne_nil_of_mem hold)
  have hks : (initKsem (cli s)).ksem = s.ksem := by
    rw [initKsem_cli_ksem, initKsem_of_init hinit]
  have ht : TableInv s.ksem names := by
    have := h.table
    rwa [initKsem_of_init hinit] at this
  cases hs : search (initKsem (cli s)).ksem c.name (List.finRange MAX_SEM_NUM) none with
  | missing w =>
      obtain ⟨i, -, hi⟩ := ht.stored c.name hold
      obtain ⟨hno, -, -⟩ := search_missing hs (by simp)
      rw [hks] at hno
      exact absurd hi (hno i (List.mem_finRange i))
  | found i =>
      have hi := search_found hs
      rw [hks] at hi
      refine ⟨i, initKsem (cli s), by simp only [sysSemOpen, if_neg hguard, hs], hks, ?_, ?_⟩
      · exact ⟨i, rfl, by rw [hks]; exact ht.use_of_name hn hi, by rw [hks]; exact hi⟩
      · refine ⟨?_, fun _ => initKsem_init _⟩
        rw [initKsem_of_init (initKsem_init _), hks]
        refine ⟨ht.free, fun j hj => ?_, fun m hm => ?_, ht.inj⟩
        · obtain ⟨m, hm, hmj⟩ := ht.used j hj
          exact ⟨m, List.mem_append_left _ hm, hmj⟩
        · rcases List.mem_append.1 hm with hm | hm
          · exact ht.stored m hm
          · rw [List.mem_singleton] at hm
            exact hm ▸ ht.stored c.name hold

end Call

/-! ## Runs -/

/-- A name opened for the first time leaves room for itself among the names. -/
theorem card_opened_lt {h : List OpenEvent} {c : OpenCall} {cs : List OpenCall}
    (hv : ValidCalls cs) (hcs : h.map Prod.fst ++ [c] <+: cs) (hnew : c.name ∉ opened h) :
    (opened h).toFinset.card < MAX_SEM_NUM := by
  have hsub : insert c.name (opened h).toFinset ⊆ (cs.map OpenCall.name).toFinset := by
    have hmap : opened h ++ [c.name] ⊆ cs.map OpenCall.name := by
      have := (hcs.map OpenCall.name).subset
      simpa [opened, Function.comp_def] using this
    intro n hn
    rw [List.mem_toFinset]
    apply hmap
    simpa [or_comm] using hn
  have hins : (insert c.name (opened h).toFinset).card = (opened h).toFinset.card + 1 :=
    Finset.card_insert_of_notMem (by simpa using hnew)
  have := Finset.card_le_card hsub
  have := hv.names
  omega

/-- One call of a valid run, after the history `h`. -/
theorem openStep_spec {h : List OpenEvent} {s s' : SemState} {c : OpenCall} {i : ℤ}
    {cs : List OpenCall} (hv : ValidCalls cs) (hcs : h.map Prod.fst ++ [c] <+: cs)
    (hs : OpenInv s (opened h)) (hstep : openStep s (c, i) s') :
    OpenInv s' (opened h ++ [c.name]) ∧
      (c.name ∉ opened h → i = MAX_SEM_NUM) ∧
      (c.name ∈ opened h → s'.ksem = s.ksem ∧ Designates s' i c.name) := by
  have hc : c ∈ cs := hcs.subset (by simp)
  by_cases hold : c.name ∈ opened h
  · obtain ⟨k, t, hret, hk, hd, ht⟩ :=
      sysSemOpen_again hs (hv.nonempty c hc) (hv.value c hc) hold
    obtain ⟨rfl, rfl⟩ : (k : ℤ) = i ∧ t = s' := by
      simpa using hret.symm.trans hstep
    exact ⟨ht, fun hno => absurd hold hno, fun _ => ⟨hk, hd⟩⟩
  · obtain ⟨t, hret, ht⟩ := sysSemOpen_fresh hs (hv.nonempty c hc) (hv.length c hc)
      (hv.value c hc) hold (card_opened_lt hv hcs hold)
    obtain ⟨rfl, rfl⟩ : (MAX_SEM_NUM : ℤ) = i ∧ t = s' := by
      simpa using hret.symm.trans hstep
    exact ⟨ht, fun _ => rfl, fun hyes => absurd hyes hold⟩

theorem OpenInv.of_exec {cs : List OpenCall} (hv : ValidCalls cs) {h : List OpenEvent}
    {s : SemState} (hr : Exec openStep .boot h s) (hcs : h.map Prod.fst <+: cs) :
    OpenInv s (opened h) := by
  induction hr with
  | refl => exact .boot
  | tail hr hstep ih =>
      rw [List.map_append, List.map_singleton] at hcs
      rw [opened_append]
      exact (openStep_spec hv hcs (ih ((List.prefix_append _ _).trans hcs)) hstep).1

/-- Every valid sequence of calls runs to its end. -/
theorem exists_openRun {cs : List OpenCall} (hv : ValidCalls cs) :
    ∀ {pre : List OpenCall}, pre <+: cs →
      ∃ h s, Exec openStep .boot h s ∧ h.map Prod.fst = pre := by
  intro pre
  induction pre using List.reverseRecOn with
  | nil => exact fun _ => ⟨[], .boot, .refl, rfl⟩
  | append_singleton pre c ih =>
      intro hpre
      obtain ⟨h, s, hr, rfl⟩ := ih ((List.prefix_append _ _).trans hpre)
      have hs : OpenInv s (opened h) := .of_exec hv hr ((List.prefix_append _ _).trans hpre)
      have hc : c ∈ cs := hpre.subset (by simp)
      by_cases hold : c.name ∈ opened h
      · obtain ⟨k, s', hret, -⟩ :=
          sysSemOpen_again hs (hv.nonempty c hc) (hv.value c hc) hold
        exact ⟨h ++ [(c, (k : ℤ))], s', .tail hr hret, by simp⟩
      · obtain ⟨s', hret, -⟩ := sysSemOpen_fresh hs (hv.nonempty c hc) (hv.length c hc)
          (hv.value c hc) hold (card_opened_lt hv hpre hold)
        exact ⟨h ++ [(c, (MAX_SEM_NUM : ℤ))], s', .tail hr hret, by simp⟩

theorem not_designates_MAX_SEM_NUM (s : SemState) (n : CString) :
    ¬Designates s MAX_SEM_NUM n := by
  rintro ⟨k, hk, -⟩
  have := k.2
  omega

/-- In every valid sequence of calls, the value a call returns designates its
semaphore exactly when an earlier call opened the name, and then the call
changes no semaphore.  So a sequence does what it should only when it is
empty. -/
theorem semIdentity_iff {cs : List OpenCall} (hv : ValidCalls cs) :
    (∃ h s, Exec openStep .boot h s ∧ h.map Prod.fst = cs ∧
      ∀ pre c i post s s', h = pre ++ (c, i) :: post → Exec openStep .boot pre s →
        openStep s (c, i) s' →
        (Designates s' i c.name ↔ c.name ∈ opened pre) ∧
          (c.name ∈ opened pre → s'.ksem = s.ksem)) ∧
      (SemIdentity cs ↔ cs = []) := by
  refine ⟨?_, ?_, ?_⟩
  · obtain ⟨h, s, hr, hcs⟩ := exists_openRun hv (List.prefix_refl cs)
    refine ⟨h, s, hr, hcs, ?_⟩
    intro pre c i post t t' hh hpre hstep
    have hpc : pre.map Prod.fst ++ [c] <+: cs := by
      rw [← hcs, hh]
      exact ⟨post.map Prod.fst, by simp⟩
    have ht := OpenInv.of_exec hv hpre ((List.prefix_append _ _).trans hpc)
    obtain ⟨-, hfirst, hlater⟩ := openStep_spec hv hpc ht hstep
    refine ⟨⟨fun hd => ?_, fun hold => (hlater hold).2⟩, fun hold => (hlater hold).1⟩
    by_contra hnew
    exact not_designates_MAX_SEM_NUM t' c.name (hfirst hnew ▸ hd)
  · rintro ⟨h, s, hr, hcs, hall⟩
    cases h with
    | nil => exact hcs.symm
    | cons e post =>
        -- the first call of a run opens a fresh name
        have hr' : Exec openStep .boot ([] ++ e :: post) s := hr
        obtain ⟨t, t', ht, hstep⟩ := hr'.step_at
        have hpc : ([] : List OpenEvent).map Prod.fst ++ [e.1] <+: cs := by
          rw [← hcs]
          exact ⟨post.map Prod.fst, by simp⟩
        have hmeets := hall [] e.1 e.2 post t t' rfl ht hstep
        have hinv := OpenInv.of_exec hv ht (List.nil_prefix)
        obtain ⟨-, hfirst, -⟩ := openStep_spec hv hpc hinv hstep
        have hi := hfirst (by simp [opened])
        exact absurd (hi ▸ hmeets.designates) (not_designates_MAX_SEM_NUM t' e.1.name)
  · rintro rfl
    exact ⟨[], .boot, .refl, rfl, by simp⟩

/-- The calls `sem_open("jz", 1)` of `semtest.c`, made twice. -/
def semtestCalls : List OpenCall :=
  [⟨⟨[106, 122], by decide⟩, 1⟩, ⟨⟨[106, 122], by decide⟩, 1⟩]

theorem semtestCalls_valid : ValidCalls semtestCalls := by
  constructor <;> decide

theorem semIdentity_semtest :
    ValidCalls semtestCalls ∧ (SemIdentity semtestCalls ↔ semtestCalls = []) :=
  ⟨semtestCalls_valid, (semIdentity_iff semtestCalls_valid).2⟩

/-- The first call of `semtest.c` returns 10, which is no index of the
table. -/
theorem semtest_not_semIdentity : ValidCalls semtestCalls ∧ ¬SemIdentity semtestCalls := by
  refine ⟨semtestCalls_valid, ?_⟩
  rintro ⟨h, s, hr, hcs, hall⟩
  cases h with
  | nil => simp [semtestCalls] at hcs
  | cons e post =>
      have hr' : Exec openStep .boot ([] ++ e :: post) s := hr
      obtain ⟨t, t', ht, hstep⟩ := hr'.step_at
      have hmeets := hall [] e.1 e.2 post t t' rfl ht hstep
      have he : e.1 = ⟨⟨[106, 122], by decide⟩, 1⟩ := (List.cons.inj hcs).1
      have hboot : t = .boot := ht.eq_of_nil
      have hret : (sysSemOpen (some ⟨[106, 122], by decide⟩) 1 .boot).map Prod.fst = some 10 := by
        decide
      have hi : e.2 = MAX_SEM_NUM := by
        rw [openStep, he, hboot] at hstep
        rw [hstep] at hret
        simpa [MAX_SEM_NUM] using hret
      exact not_designates_MAX_SEM_NUM t' e.1.name (hi ▸ hmeets.designates)

end MyJavaExample.Kernel
