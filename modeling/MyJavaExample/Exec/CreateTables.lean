import MyJavaExample.Exec.ArgPages
import MyJavaExample.Lib.LittleEndian

/-!
# What a new program finds on its stack: `change_ldt` and `create_tables`

`change_ldt` maps the argument pages at the top of the segment of 64 MB, and
`create_tables` goes over the strings again, upwards, and puts their addresses
into the two tables below them.

A memory here is what the new program reads in its data segment.  There is memory
for the page tables and for the pages of the stack, so that every byte is there.
-/

namespace MyJavaExample.Exec

open Lib

/-- `data_limit`, the size of the data segment. -/
def SEGMENT_SIZE : ℕ := 67108864

/-- `put_page`, seen in the segment. -/
def putPage (page : ArgPage) (address : ℕ) (m : ℕ → UInt8) : ℕ → UInt8 :=
  fun a => if address ≤ a ∧ a < address + PAGE_SIZE then page.data (a - address) else m a

/-- `data_base` in the round for the page `i`. -/
def dataBase (i : ℕ) : ℕ := SEGMENT_SIZE - (MAX_ARG_PAGES - i) * PAGE_SIZE

/-- One round of the loop of `change_ldt`. -/
def putArgPage (page : Fin MAX_ARG_PAGES → Option ArgPage) (i : Fin MAX_ARG_PAGES)
    (m : ℕ → UInt8) : ℕ → UInt8 :=
  match page i with
  | none => m
  | some g => putPage g (dataBase i.val) m

/-- The loop of `change_ldt`, from the last page to the first. -/
def changeLdt (page : Fin MAX_ARG_PAGES → Option ArgPage) (m : ℕ → UInt8) : ℕ → UInt8 :=
  (List.finRange MAX_ARG_PAGES).foldr (putArgPage page) m

def putFsLong (m : ℕ → UInt8) (val addr : ℕ) : ℕ → UInt8 := writeLE 4 m val addr

def getFsLong (m : ℕ → UInt8) (addr : ℕ) : ℕ := readLE 4 m addr

/-- `while (get_fs_byte(p++))`, which faults at the end of the segment, after
`room` bytes. -/
def skipString (m : ℕ → UInt8) : ℕ → ℕ → Option ℕ
  | 0, _ => none
  | room + 1, p => if m p = 0 then some (p + 1) else skipString m room (p + 1)

/-- The addresses of the next `n` strings, and a zero. -/
def putPointers : ℕ → (ℕ → UInt8) → ℕ → ℕ → Option ((ℕ → UInt8) × ℕ)
  | 0, m, p, table => some (putFsLong m 0 table, p)
  | n + 1, m, p, table => do
      let m := putFsLong m p table
      putPointers n m (← skipString m (SEGMENT_SIZE - p) p) (table + 4)

/-- `create_tables`; the result is the stack pointer. -/
def createTables (m : ℕ → UInt8) (p argc envc : ℕ) : Option ((ℕ → UInt8) × ℕ) := do
  let sp := p / 4 * 4
  let envp := sp - 4 * (envc + 1)
  let argv := envp - 4 * (argc + 1)
  let m := putFsLong m envp (argv - 4)
  let m := putFsLong m argv (argv - 8)
  let m := putFsLong m argc (argv - 12)
  let (m, p) ← putPointers argc m p argv
  let (m, _) ← putPointers envc m p envp
  pure (m, argv - 12)

namespace ExecArgs

variable (e : ExecArgs)

/-- `argc` as it is in the end, counted again for a script. -/
def argc : ℕ :=
  match e.script with
  | none => e.argv.length
  | some script => e.argv.length + 1 + script.i_arg.toList.length

/-- The memory and the stack pointer that the program begins with; `m` is what is
in the segment without the argument pages. -/
def newStack (c : Copy) (m : ℕ → UInt8) : Option ((ℕ → UInt8) × ℕ) :=
  createTables (changeLdt c.page m) (c.p.toNat + SEGMENT_SIZE - MAX_ARG_PAGES * PAGE_SIZE) e.argc
    e.envp.length

end ExecArgs

/-! ## What is delivered -/

/-- The words from `table` on are the addresses of strings equal to `strs`, one after
the other between `low` and `high`, and a zero. -/
structure TableOf (m : ℕ → UInt8) (table low high : ℕ) (strs : List CString) : Prop where
  string : ∀ k s, strs[k]? = some s → HoldsAt m (getFsLong m (table + 4 * k)) s.terminated
  above : ∀ k < strs.length, low ≤ getFsLong m (table + 4 * k)
  below : ∀ k s, strs[k]? = some s →
    getFsLong m (table + 4 * k) + s.terminated.length ≤ high
  apart : ∀ j k s, j < k → k < strs.length → strs[j]? = some s →
    getFsLong m (table + 4 * j) + s.terminated.length ≤ getFsLong m (table + 4 * k)
  zero : getFsLong m (table + 4 * strs.length) = 0

/-- `argc`, `argv` and `envp` are at `sp`; above them are the two tables, and above
these the strings. -/
structure Delivered (m : ℕ → UInt8) (sp : ℕ) (argv envp : List CString) : Prop where
  argc : getFsLong m sp = argv.length
  words : sp + 12 ≤ getFsLong m (sp + 4)
  tables : getFsLong m (sp + 4) + 4 * (argv.length + 1) ≤ getFsLong m (sp + 8)
  strings : ∃ low mid high, getFsLong m (sp + 8) + 4 * (envp.length + 1) ≤ low ∧
    TableOf m (getFsLong m (sp + 4)) low mid argv ∧
    TableOf m (getFsLong m (sp + 8)) mid high envp ∧ high ≤ SEGMENT_SIZE

/-! ## The pages in the segment -/

section

variable {m : ℕ → UInt8} {c : Copy} {page : Fin MAX_ARG_PAGES → Option ArgPage}
  {i j : Fin MAX_ARG_PAGES} {g : ArgPage} {q : ℕ} {b : UInt8} {bs : List UInt8}

theorem dataBase_eq (i : Fin MAX_ARG_PAGES) : dataBase i.val = 66977792 + i.val * 4096 := by
  have hi : i.val < 32 := i.isLt
  generalize i.val = k at hi ⊢
  simp only [dataBase, SEGMENT_SIZE, MAX_ARG_PAGES, PAGE_SIZE]
  omega

theorem putArgPage_self (hi : q / 4096 = i.val) (hg : page i = some g) :
    putArgPage page i m (66977792 + q) = g.data (q % 4096) := by
  have hoff : 66977792 + q - (66977792 + i.val * 4096) = q % 4096 := by omega
  simp only [putArgPage, hg, putPage, dataBase_eq, PAGE_SIZE, hoff]
  exact if_pos ⟨by omega, by omega⟩

theorem putArgPage_of_ne (hi : q / 4096 = i.val) (hj : j ≠ i) :
    putArgPage page j m (66977792 + q) = m (66977792 + q) := by
  have hne : j.val ≠ i.val := fun h => hj (Fin.ext h)
  cases hg : page j with
  | none => simp only [putArgPage, hg]
  | some g =>
      simp only [putArgPage, hg, putPage, dataBase_eq, PAGE_SIZE]
      exact if_neg (by omega)

theorem foldr_putArgPage {l : List (Fin MAX_ARG_PAGES)} (hi : q / 4096 = i.val)
    (hg : page i = some g) (hl : i ∈ l) :
    l.foldr (putArgPage page) m (66977792 + q) = g.data (q % 4096) := by
  induction l with
  | nil => cases hl
  | cons j l ih =>
      rw [List.foldr_cons]
      by_cases hj : j = i
      · rw [hj]
        exact putArgPage_self hi hg
      · rw [putArgPage_of_ne hi hj]
        exact ih ((List.mem_cons.mp hl).resolve_left fun h => hj h.symm)

theorem changeLdt_of_byteAt (h : c.byteAt q = some b) :
    changeLdt c.page m (66977792 + q) = b := by
  by_cases hlt : q / 4096 < 32
  · rw [Copy.byteAt_of_page (i := ⟨q / 4096, hlt⟩) rfl] at h
    obtain ⟨g, hg, rfl⟩ := Option.map_eq_some_iff.mp h
    exact foldr_putArgPage rfl hg (List.mem_finRange _)
  · have hout : ¬q / PAGE_SIZE < MAX_ARG_PAGES := hlt
    simp [Copy.byteAt, hout] at h

/-- What was copied lies in the segment. -/
theorem Copied.holdsAt {getFreePage : ℕ → Option ℕ} (h : Copied getFreePage bs c) :
    HoldsAt (changeLdt c.page m) (66977792 + c.p.toNat) bs := by
  intro k b hk
  have hlt : k < bs.length := (List.getElem?_eq_some_iff.mp hk).1
  rw [Nat.add_assoc]
  exact changeLdt_of_byteAt ((h.data k hlt).trans hk)

end

/-! ## The tables -/

section

variable {m m' : ℕ → UInt8} {p table room : ℕ} {bs : List UInt8} {argv envp : List CString}

theorem skipString_eq (hz : ∀ b ∈ bs, b ≠ 0) (hm : HoldsAt m p (bs ++ [0]))
    (hroom : bs.length < room) : skipString m room p = some (p + bs.length + 1) := by
  induction bs generalizing p room with
  | nil =>
      obtain ⟨room, rfl⟩ := Nat.exists_eq_succ_of_ne_zero (Nat.ne_of_gt hroom)
      rw [skipString, if_pos (holdsAt_cons.mp hm).1]
      rfl
  | cons b bs ih =>
      obtain ⟨room, rfl⟩ := Nat.exists_eq_succ_of_ne_zero (Nat.ne_of_gt (Nat.zero_lt_of_lt hroom))
      obtain ⟨hb, hbs⟩ := holdsAt_cons.mp hm
      have hne : m p ≠ 0 := hb ▸ hz b List.mem_cons_self
      rw [skipString, if_neg hne, ih (fun b hb => hz b (List.mem_cons_of_mem _ hb)) hbs
        (Nat.lt_of_succ_lt_succ hroom), List.length_cons]
      congr 1
      omega

theorem getFsLong_putFsLong {val addr : ℕ} (h : val < 4294967296) :
    getFsLong (putFsLong m val addr) addr = val :=
  readLE_writeLE h

theorem getFsLong_putFsLong_of_disjoint {val addr addr' : ℕ}
    (h : addr + 4 ≤ addr' ∨ addr' + 4 ≤ addr) :
    getFsLong (putFsLong m val addr') addr = getFsLong m addr :=
  readLE_writeLE_of_disjoint h

/-- The strings `argv` lie from `p` on and their addresses in a table, with a zero
after them. -/
structure Tabled (m : ℕ → UInt8) (table p : ℕ) (argv : List CString) : Prop where
  pointer : ∀ k < argv.length, getFsLong m (table + 4 * k) = p + size (argv.take k)
  zero : getFsLong m (table + 4 * argv.length) = 0

theorem putPointers_eq (hm : HoldsAt m p (argBytes argv))
    (htable : table + 4 * (argv.length + 1) ≤ p) (hp : p + size argv ≤ 67108864) :
    ∃ m', putPointers argv.length m p table = some (m', p + size argv) ∧
      (∀ a, a < table ∨ table + 4 * (argv.length + 1) ≤ a → m' a = m a) ∧
      Tabled m' table p argv := by
  induction argv generalizing m p table with
  | nil =>
      refine ⟨putFsLong m 0 table, rfl, fun a ha => ?_, fun k hk => (Nat.not_lt_zero k hk).elim, ?_⟩
      · rcases ha with ha | ha
        · exact writeLE_of_lt ha
        · exact writeLE_of_le (by simpa using ha)
      · exact getFsLong_putFsLong (by decide)
  | cons str argv ih =>
      rw [size_cons] at hp
      rw [List.length_cons] at htable
      have hm₁ : HoldsAt (putFsLong m p table) p (str.terminated ++ argBytes argv) :=
        hm.congr fun b hb => writeLE_of_le (by omega)
      obtain ⟨hstr, hrest⟩ := holdsAt_append.mp hm₁
      rw [str.length_terminated, ← Nat.add_assoc] at hrest
      have hskip : skipString (putFsLong m p table) (SEGMENT_SIZE - p) p =
          some (p + str.bytes.length + 1) :=
        skipString_eq str.noZero hstr (by rw [SEGMENT_SIZE]; omega)
      obtain ⟨m', heq, hframe, htabled⟩ := @ih (putFsLong m p table) (p + str.bytes.length + 1)
        (table + 4) hrest (by omega) (by omega)
      refine ⟨m', ?_, fun a ha => ?_, fun k hk => ?_, ?_⟩
      · rw [List.length_cons, putPointers, hskip, size_cons, ← Nat.add_assoc, ← Nat.add_assoc]
        exact heq
      · rw [List.length_cons] at ha
        rw [hframe a (by omega)]
        rcases ha with ha | ha
        · exact writeLE_of_lt ha
        · exact writeLE_of_le (by omega)
      · cases k with
        | zero =>
            rw [Nat.mul_zero, Nat.add_zero, List.take_zero, size_nil, Nat.add_zero]
            have hsame : getFsLong m' table = getFsLong (putFsLong m p table) table :=
              readLE_congr fun i hi => hframe _ (by omega)
            rw [hsame, getFsLong_putFsLong (by omega)]
        | succ k =>
            have hpointer := htabled.pointer k (Nat.lt_of_succ_lt_succ hk)
            rw [List.take_succ_cons, size_cons]
            rw [show table + 4 * (k + 1) = table + 4 + 4 * k by omega, hpointer]
            omega
      · rw [List.length_cons, show table + 4 * (argv.length + 1) = table + 4 + 4 * argv.length by omega]
        exact htabled.zero

theorem Tabled.congr (h : Tabled m table p argv)
    (hm : ∀ a < table + 4 * (argv.length + 1), m' a = m a) : Tabled m' table p argv where
  pointer k hk := by
    rw [← h.pointer k hk]
    exact readLE_congr fun i hi => hm _ (by omega)
  zero := by
    rw [← h.zero]
    exact readLE_congr fun i hi => hm _ (by omega)

theorem size_take_succ {k : ℕ} {s : CString} (hs : argv[k]? = some s) :
    size (argv.take (k + 1)) = size (argv.take k) + s.terminated.length := by
  rw [List.take_add_one, hs, size_append, s.length_terminated, Option.toList_some, size_cons,
    size_nil]

theorem size_take_le {j k : ℕ} (h : j ≤ k) : size (argv.take j) ≤ size (argv.take k) := by
  have hsplit := congrArg size (List.take_append_drop j (argv.take k))
  rw [size_append, List.take_take, Nat.min_eq_left h] at hsplit
  omega

theorem size_take_le_size {k : ℕ} : size (argv.take k) ≤ size argv := by
  have hsplit := congrArg size (List.take_append_drop k argv)
  rw [size_append] at hsplit
  omega

theorem holdsAt_take {k : ℕ} {s : CString} (hm : HoldsAt m p (argBytes argv))
    (hs : argv[k]? = some s) : HoldsAt m (p + size (argv.take k)) s.terminated := by
  rw [← List.take_append_drop (k + 1) argv, argBytes_append, List.take_add_one, hs,
    argBytes_append] at hm
  simpa [argBytes, size] using (holdsAt_append.mp (holdsAt_append.mp hm).1).2

theorem Tabled.tableOf (h : Tabled m table p argv) (hm : HoldsAt m p (argBytes argv)) :
    TableOf m table p (p + size argv) argv where
  string k s hs := by
    rw [h.pointer k (List.getElem?_eq_some_iff.mp hs).1]
    exact holdsAt_take hm hs
  above k hk := by
    rw [h.pointer k hk]
    exact Nat.le_add_right _ _
  below k s hs := by
    have hle := @size_take_le_size argv (k + 1)
    rw [size_take_succ hs] at hle
    rw [h.pointer k (List.getElem?_eq_some_iff.mp hs).1]
    omega
  apart j k s hjk hk hs := by
    have hle := @size_take_le argv _ _ (Nat.succ_le_of_lt hjk)
    rw [size_take_succ hs] at hle
    rw [h.pointer k hk, h.pointer j (Nat.lt_trans hjk hk)]
    omega
  zero := h.zero

theorem createTables_delivers (hm : HoldsAt m p (argBytes argv ++ argBytes envp))
    (hroom : 4 * (argv.length + envp.length + 6) ≤ p)
    (hp : p + size argv + size envp ≤ SEGMENT_SIZE) :
    ∃ m' sp, createTables m p argv.length envp.length = some (m', sp) ∧
      Delivered m' sp argv envp := by
  rw [SEGMENT_SIZE] at hp
  -- the table of `envp` is at `e`, that of `argv` at `a + 12`, and the stack pointer is `a`
  obtain ⟨e, he⟩ : ∃ e, p / 4 * 4 - 4 * (envp.length + 1) = e := ⟨_, rfl⟩
  obtain ⟨a, ha⟩ : ∃ a, e - 4 * (argv.length + 1) = a + 12 :=
    ⟨e - 4 * (argv.length + 1) - 12, by omega⟩
  generalize hm₁ : putFsLong (putFsLong (putFsLong m e (a + 8)) (a + 12) (a + 4)) argv.length a = m₁
  have hargc : getFsLong m₁ a = argv.length := by
    rw [← hm₁]
    exact getFsLong_putFsLong (by omega)
  have hargv : getFsLong m₁ (a + 4) = a + 12 := by
    rw [← hm₁, getFsLong_putFsLong_of_disjoint (.inr (by omega))]
    exact getFsLong_putFsLong (by omega)
  have henvp : getFsLong m₁ (a + 8) = e := by
    rw [← hm₁, getFsLong_putFsLong_of_disjoint (.inr (by omega)),
      getFsLong_putFsLong_of_disjoint (.inr (by omega))]
    exact getFsLong_putFsLong (by omega)
  have habove : ∀ b, p ≤ b → m₁ b = m b := by
    intro b hb
    rw [← hm₁, putFsLong, writeLE_of_le (by omega), putFsLong, writeLE_of_le (by omega),
      putFsLong, writeLE_of_le (by omega)]
  obtain ⟨hholds, hholds'⟩ := holdsAt_append.mp (hm.congr habove)
  rw [← size] at hholds'
  obtain ⟨m₂, hloop, hframe, htabled⟩ :=
    @putPointers_eq _ _ (a + 12) _ hholds (by omega) (by omega)
  have hholds₂ : HoldsAt m₂ (p + size argv) (argBytes envp) :=
    hholds'.congr fun b hb => hframe b (by omega)
  obtain ⟨m₃, hloop', hframe', htabled'⟩ :=
    @putPointers_eq _ _ e _ hholds₂ (by omega) (by omega)
  have hsame : ∀ b < e, m₃ b = m₂ b := fun b hb => hframe' b (.inl hb)
  have hstrings : ∀ b, p ≤ b → m₃ b = m₂ b := fun b hb => hframe' b (by omega)
  have hwords : ∀ w, w + 4 ≤ a + 12 → getFsLong m₃ w = getFsLong m₁ w := by
    intro w hw
    refine readLE_congr fun i hi => ?_
    rw [hsame _ (by omega), hframe _ (by omega)]
  refine ⟨m₃, a, ?_, ?_⟩
  · simp only [createTables, he, ha, Nat.add_sub_cancel, show a + 12 - 4 = a + 8 by omega,
      show a + 12 - 8 = a + 4 by omega, hm₁, hloop, hloop', Option.bind_eq_bind, Option.bind_some]
    rfl
  · have hargv₃ := (hwords (a + 4) (by omega)).trans hargv
    have henvp₃ := (hwords (a + 8) (by omega)).trans henvp
    have hargv_holds : HoldsAt m₃ p (argBytes argv) := by
      refine hholds.congr fun b hb => ?_
      rw [hstrings b hb, hframe b (by omega)]
    have henvp_holds : HoldsAt m₃ (p + size argv) (argBytes envp) :=
      hholds₂.congr fun b hb => hstrings b (by omega)
    refine ⟨(hwords a (by omega)).trans hargc, by omega, by omega, p, p + size argv,
      p + size argv + size envp, by omega, ?_, ?_, hp⟩
    · rw [hargv₃]
      exact (htabled.congr fun b hb => hsame b (by omega)).tableOf hargv_holds
    · rw [henvp₃]
      exact htabled'.tableOf henvp_holds

theorem length_le_size : argv.length ≤ size argv := by
  induction argv with
  | nil => exact Nat.le_refl 0
  | cons str argv ih =>
      rw [List.length_cons, size_cons]
      omega

end

namespace ExecArgs

variable {e : ExecArgs} {getFreePage : ℕ → Option ℕ} {c : Copy}

theorem calls_of_no_script (h : e.script = none) : e.calls = [e.envp, e.argv] := by
  rw [calls, h]

/-- The copying succeeds when there is room and memory. -/
theorem doExecve_of_size_lt (hscript : e.script = none)
    (hmem : ∀ k < 32, (getFreePage k).isSome) (hsize : size (e.argv ++ e.envp) < ARG_SIZE) :
    ∃ c, e.doExecve getFreePage = .pointOfNoReturn c ∧
      Copied getFreePage (argBytes e.argv ++ argBytes e.envp) c := by
  have hneed : size e.calls.flatten < ARG_SIZE := by
    rw [calls_of_no_script hscript]
    simpa [Nat.add_comm] using hsize
  have hends := @copyArgs_ends e getFreePage
  cases hr : e.copyArgs getFreePage with
  | error _ =>
      rw [hr] at hends
      have hgt := hends.1.lt_size
      omega
  | ok c =>
      rw [hr] at hends
      have hp : c.p ≠ 0 := by
        intro hzero
        rcases hends.zero hzero with ⟨k, hk, hnone⟩ | ⟨hge, -⟩
        · have hsome := hmem k hk
          simp [hnone] at hsome
        · simp only [List.length_nil] at hge
          omega
      refine ⟨c, by simp [doExecve, hr, hp, hscript], ?_⟩
      simpa [calls_of_no_script hscript] using hends.copied hp

theorem newStack_delivers (m : ℕ → UInt8) (hscript : e.script = none)
    (hmem : ∀ k < 32, (getFreePage k).isSome) (hsize : size (e.argv ++ e.envp) < ARG_SIZE) :
    ∃ c m' sp, e.doExecve getFreePage = .pointOfNoReturn c ∧
      e.newStack c m = some (m', sp) ∧ Delivered m' sp e.argv e.envp := by
  obtain ⟨c, hexec, hcopied⟩ := doExecve_of_size_lt hscript hmem hsize
  have hlow := hcopied.p
  rw [List.length_append, ← size, ← size] at hlow
  have hargc := @length_le_size e.argv
  have henvc := @length_le_size e.envp
  have hstart : c.p.toNat + SEGMENT_SIZE - MAX_ARG_PAGES * PAGE_SIZE = 66977792 + c.p.toNat := by
    simp only [SEGMENT_SIZE, MAX_ARG_PAGES, PAGE_SIZE]
    omega
  obtain ⟨m', sp, htables, hdelivered⟩ := createTables_delivers (hcopied.holdsAt (m := m))
    (by omega) (by rw [SEGMENT_SIZE]; omega)
  refine ⟨c, m', sp, hexec, ?_, hdelivered⟩
  rw [newStack, argc, hscript, hstart]
  exact htables

/-- The program `a` with the arguments `a` and `aa` and nothing in the environment. -/
theorem newStack_delivers_two :
    ∃ c m' sp,
      doExecve ⟨letters 1, [letters 1, letters 2], [], none⟩ (fun k => some (256 + k)) =
        .pointOfNoReturn c ∧
      newStack ⟨letters 1, [letters 1, letters 2], [], none⟩ c (fun _ => 0) = some (m', sp) ∧
      Delivered m' sp [letters 1, letters 2] [] :=
  newStack_delivers (e := ⟨letters 1, [letters 1, letters 2], [], none⟩) _ rfl (fun _ _ => rfl)
    (by decide)

end ExecArgs

end MyJavaExample.Exec
