import MyJavaExample.Lib.Outcome
import MyJavaExample.Mm.Runs

/-!
# Bytes of a task from the kernel: `include/asm/segment.h`

`get_fs_byte` and `put_fs_byte` go through the data segment of the task.  Behind
its limit the task gets a general protection fault and exits.  A page that is not
there is brought in by `do_no_page`.

In the kernel the processor does not look at the protection of a page, so
`put_fs_byte` writes to a page that is shared copy-on-write; `verify_area` is
there to copy such a page first.
-/

namespace MyJavaExample.Mm

open Lib

/-- The task that makes a call, with what its faults need: the number of users of
its executable, and what `bread_page` reads for each page. -/
structure Caller where
  nr : ℕ
  current : Task
  iCount : ℕ
  content : ℕ → ℕ → UInt8

/-- What ends an access. -/
inductive Fault where
  | exits
  | panics (message : String)

namespace Caller

variable (c : Caller)

/-- The linear address of an address of the segment. -/
def linear (x : ℕ) : ℕ := c.current.startCode + x

/-- The page of the address is there afterwards. -/
def touch (x : ℕ) (s : Sys) : Except (Fault × Sys) Sys :=
  if c.current.dataLimit ≤ x then .error (.exits, s)
  else if (s.mem.lookup (c.linear x)).isSome then .ok s
  else
    match doNoPage s c.nr c.current c.iCount (c.content (x / PAGE_SIZE)) x with
    | .done mem => .ok { s with mem }
    | .oom mem => .error (.exits, { s with mem })
    | .panic message => .error (.panics message, s)

def getFsByte (x : ℕ) (s : Sys) : Except (Fault × Sys) (UInt8 × Sys) := do
  let s ← c.touch x s
  pure ((s.mem.read (c.linear x)).getD 0, s)

def putFsByte (v : UInt8) (x : ℕ) (s : Sys) : Except (Fault × Sys) Sys := do
  let s ← c.touch x s
  pure { s with mem := s.mem.store (c.linear x) v }

end Caller

/-! ## What a fault leaves -/

/-- The bytes of the tasks that were there are there, unchanged. -/
def Memory.Keeps (m m' : Memory) : Prop :=
  ∀ a, 2 ^ 24 ≤ a → a < 2 ^ 32 → ∀ v, m.read a = some v → m'.read a = some v

section Keeps

variable {bounds : Bounds} {lost : List ℕ} {held : List ℕ} {m m' m'' : Memory} {a b : ℕ} {v : UInt8}

theorem Memory.Keeps.refl (m : Memory) : m.Keeps m := fun _ _ _ _ h => h

theorem Memory.Keeps.trans (h : m.Keeps m') (h' : m'.Keeps m'') : m.Keeps m'' :=
  fun a ha ha' v hv => h' a ha ha' v (h a ha ha' v hv)

/-- The entries that were there have their frames, and the pages in use their
bytes. -/
theorem Consistent.keeps (hc : Consistent bounds m held)
    (hframe : ∀ x e, entryAt m x = some e → (entryAt m' x).map Entry.frame = some e.frame)
    (hkeeps : KeepsUsed m m') : m.Keeps m' := by
  intro a ha ha' v hv
  rw [read_linear ha ha', byteAt, Option.map_eq_some_iff] at hv
  obtain ⟨e, he, rfl⟩ := hv
  obtain ⟨e', he', hframe'⟩ := Option.map_eq_some_iff.1 (hframe _ e he)
  rw [read_linear ha ha', byteAt, he', Option.map_some, hframe', hkeeps e.frame (hc.entry_used he)]

theorem entryAt_eq_of_tables (hpg : m'.pgDir = m.pgDir) (htable : m'.table = m.table) :
    entryAt m' = entryAt m := by
  funext x
  rw [entryAt, entryAt, dirRef, dirRef, hpg, htable]

/-- A page that could not be put is freed; the rest stays. -/
theorem freeAndOom_oom {p : ℕ} (h : freeAndOom p m = .oom m') :
    entryAt m' = entryAt m ∧ m'.bytes = m.bytes := by
  unfold freeAndOom at h
  split at h
  next m₁ hfree =>
    cases h
    unfold freePage at hfree
    split at hfree
    next => cases hfree; exact ⟨rfl, rfl⟩
    next =>
      split at hfree
      next => cases hfree
      next =>
        split at hfree
        next => cases hfree; exact ⟨entryAt_eq_of_tables rfl rfl, rfl⟩
        next => cases hfree
  next => cases h

/-- A fault that runs out of memory keeps the entries, and the bytes of the pages
in use. -/
theorem doNoPage_oom {s : Sys} {nr iCount x : ℕ} {current : Task} {content : ℕ → UInt8}
    (hc : Consistent bounds s.mem held) (h : doNoPage s nr current iCount content x = .oom m') :
    entryAt m' = entryAt s.mem ∧ KeepsUsed s.mem m' := by
  have hsame : entryAt s.mem = entryAt s.mem ∧ KeepsUsed s.mem s.mem := ⟨rfl, fun _ _ => rfl⟩
  unfold doNoPage at h
  dsimp only at h
  split at h
  next =>
    unfold getEmptyPage at h
    split at h
    next => cases h; exact hsame
    next p m hget =>
      have hp := hc.handed hget
      split at h
      next => cases h
      next =>
        obtain ⟨hentry, hbytes⟩ := freeAndOom_oom h
        exact ⟨hentry.trans hp.entryAt, fun q hq => by rw [hbytes, hp.keepsUsed q hq]⟩
  next =>
    split at h
    next => cases h
    next => cases h; exact hsame
    next => cases h
    next =>
      split at h
      next => cases h; exact hsame
      next p m hget =>
        have hp := hc.handed hget
        split at h
        next => cases h
        next =>
          obtain ⟨hentry, hbytes⟩ := freeAndOom_oom h
          refine ⟨hentry.trans ?_, fun q hq => ?_⟩
          · exact (entryAt_eq_of_tables rfl rfl).trans hp.entryAt
          · rw [hbytes]
            exact (Function.update_of_ne (hp.ne_of_used hq) ..).trans (hp.keepsUsed q hq)

end Keeps

/-! ## The buffer of a call -/

/-- `buf + i`. -/
def bufAddr (buf i : ℕ) : ℕ := (buf + i) % 2 ^ 32

/-- The task and its buffer of `n` bytes at `buf`.  The pages of the system are
counted right, or all pages of the buffer are there. -/
structure Caller.Ready (c : Caller) (buf n : ℕ) (s : Sys) : Prop where
  task : TaskOk c.nr c.current
  pos : 1 ≤ c.nr
  pages : (∃ bounds lost, s.Inv bounds lost ∧ s.live c.nr = some c.current) ∨
    ∀ i < n, bufAddr buf i < c.current.dataLimit →
      (s.mem.lookup (c.linear (bufAddr buf i))).isSome

section Ready

variable {c : Caller} {buf n i x : ℕ} {s s' : Sys} {f : Fault} {v : UInt8}

/-- In every state that a run without `sys_shmget` reaches, the pages are counted
right. -/
theorem Sys.Inv.ready {bounds : Bounds} {lost : List ℕ} (h : s.Inv bounds lost)
    (hlive : s.live c.nr = some c.current) : c.Ready buf n s := by
  obtain ⟨htask, hpos, -⟩ := Sys.live_eq_some.1 hlive
  exact ⟨h.tasks _ _ htask, hpos, .inl ⟨bounds, lost, h, hlive⟩⟩

theorem Caller.Ready.linear_bounds (h : c.Ready buf n s) (hx : x < c.current.dataLimit) :
    2 ^ 24 ≤ c.linear x ∧ c.linear x < 2 ^ 32 := by
  have hpos := h.pos
  have hlt : c.nr < 64 := h.task.lt
  have hlimit : c.current.dataLimit ≤ 2 ^ 26 := h.task.dataLimit
  have hstart : c.current.startCode = c.nr * 2 ^ 26 := h.task.startCode
  unfold Caller.linear
  rw [hstart]
  omega

/-- What is there after an access to the buffer. -/
structure Caller.Touched (c : Caller) (buf n x : ℕ) (s s' : Sys) : Prop where
  lt : x < c.current.dataLimit
  ready : c.Ready buf n s'
  keeps : s.mem.Keeps s'.mem
  present : (s'.mem.lookup (c.linear x)).isSome

/-- A fault for a page of the buffer that is not there. -/
theorem Caller.Ready.touch (h : c.Ready buf n s) (hi : i < n) :
    Ends (c.Touched buf n (bufAddr buf i) s) (fun e => s.mem.Keeps e.2.mem)
      (c.touch (bufAddr buf i) s) := by
  unfold Caller.touch
  refine .ite (fun _ => .throw (.refl _)) fun hlimit => .ite (fun hsome => ?_) fun hno => ?_
  · exact .pure ⟨Nat.not_le.1 hlimit, h, .refl _, hsome⟩
  · have hx := Nat.not_le.1 hlimit
    obtain ⟨bounds, lost, hinv, hlive⟩ := h.pages.resolve_right fun hall => hno (hall i hi hx)
    obtain ⟨held, hc, hheld⟩ := hinv.pages
    have habsent : s.absent c.current (bufAddr buf i) := ⟨hx, Option.not_isSome_iff_eq_none.1 hno⟩
    have hmapped := hinv.doNoPage hlive habsent hc c.iCount (c.content (bufAddr buf i / PAGE_SIZE))
    obtain ⟨hlookup, -, -, -, howned⟩ := hinv.lookup hlive hx s.mem
    split
    next m hm =>
      rw [hm] at hmapped
      obtain ⟨hc', hdir, hframes, hpresent, hkeeps⟩ := hmapped
      have hinv' : Sys.Inv bounds lost { s with mem := m } :=
        hinv.setMem hc' hheld (hinv.owned_of_ne howned hdir)
      refine .pure ⟨hx, ⟨h.task, h.pos, .inl ⟨bounds, lost, hinv', hlive⟩⟩, ?_, ?_⟩
      · refine hc.keeps (fun y e he => ?_) hkeeps
        have hy : y ≠ place c.nr (bufAddr buf i) := by
          rintro rfl
          rw [← hlookup, habsent.2] at he
          cases he
        rw [hframes y hy, he, Option.map_some]
      · rw [show c.linear (bufAddr buf i) = c.current.startCode + bufAddr buf i from rfl,
          (hinv.lookup hlive hx m).1]
        exact Option.isSome_iff_ne_none.2 hpresent
    next m hm =>
      obtain ⟨hentry, hkeeps⟩ := doNoPage_oom hc hm
      exact .throw (hc.keeps (fun y e he => by rw [hentry, he, Option.map_some]) hkeeps)
    next => exact .throw (.refl _)

/-- The byte that `get_fs_byte` gets is the one that is there afterwards. -/
theorem Caller.Ready.getFsByte (h : c.Ready buf n s) (hi : i < n) :
    Ends (fun r => c.Touched buf n (bufAddr buf i) s r.2 ∧
      r.2.mem.read (c.linear (bufAddr buf i)) = some r.1) (fun e => s.mem.Keeps e.2.mem)
      (c.getFsByte (bufAddr buf i) s) := by
  refine (h.touch hi).bind fun s' hs' => .pure ⟨hs', ?_⟩
  have hsome : (s'.mem.read (c.linear (bufAddr buf i))).isSome := by
    rw [Memory.read, Option.isSome_map]
    exact hs'.present
  exact (Option.getD_of_ne_none (Option.isSome_iff_ne_none.1 hsome) 0).symm ▸
    (Option.some_get hsome).symm ▸ rfl

theorem Caller.touch_present (hx : x < c.current.dataLimit)
    (hpresent : (s.mem.lookup (c.linear x)).isSome) : c.touch x s = .ok s := by
  rw [Caller.touch, if_neg (Nat.not_le.2 hx), if_pos hpresent]

/-! ## `put_fs_byte` -/

/-- A store leaves the frames of all entries. -/
theorem store_table (m : Memory) (a : ℕ) (v : UInt8) (t i : ℕ) :
    ((m.store a v).table t i).present = (m.table t i).present ∧
      ((m.store a v).table t i).frame = (m.table t i).frame := by
  let t₀ := (m.pgDir (dirIndex a)).frame
  have htable : (m.store a v).table = (m.setEntry t₀ (tableIndex a)
      { m.table t₀ (tableIndex a) with dirty := true }).table := rfl
  rw [htable]
  by_cases ht : t = t₀
  · subst ht
    rw [setEntry_table_self]
    by_cases hi : i = tableIndex a
    · subst hi
      rw [Function.update_self]
      exact ⟨rfl, rfl⟩
    · rw [Function.update_of_ne hi]
      exact ⟨rfl, rfl⟩
  · rw [setEntry_table_ne m ht]
    exact ⟨rfl, rfl⟩

theorem store_lookup (m : Memory) (a : ℕ) (v : UInt8) (b : ℕ) :
    ((m.store a v).lookup b).map Entry.frame = (m.lookup b).map Entry.frame := by
  obtain ⟨hpresent, hframe⟩ :=
    store_table m a v (m.pgDir (dirIndex b)).frame (tableIndex b)
  have hdir : (m.store a v).pgDir = m.pgDir := rfl
  unfold Memory.lookup
  dsimp only
  rw [hdir, hpresent]
  split
  next => rw [Option.map_some, Option.map_some, hframe]
  next => rfl

theorem read_eq_of_frame {m m' : Memory} {b : ℕ}
    (h : (m'.lookup b).map Entry.frame = (m.lookup b).map Entry.frame) :
    m'.read b = (m.lookup b).map fun e => m'.bytes e.frame (b % PAGE_SIZE) := by
  have hmap := congrArg (Option.map fun p => m'.bytes p (b % PAGE_SIZE)) h
  rw [Option.map_map, Option.map_map] at hmap
  exact hmap

/-- The bytes after a store. -/
theorem store_bytes {m : Memory} {a : ℕ} {e : Entry} (he : m.lookup a = some e) (v : UInt8) :
    (m.store a v).bytes = Function.update m.bytes e.frame
      (Function.update (m.bytes e.frame) (a % PAGE_SIZE) v) := by
  unfold Memory.lookup at he
  dsimp only at he
  split at he
  next => cases he; rfl
  next => cases he

/-- What is stored is read, at the address and at every other address of the same
byte; nothing else changes. -/
theorem store_read_self {m : Memory} {a : ℕ} (ha : (m.lookup a).isSome) (v : UInt8) :
    (m.store a v).read a = some v := by
  obtain ⟨e, he⟩ := Option.isSome_iff_exists.1 ha
  rw [read_eq_of_frame (store_lookup m a v a), he, Option.map_some, store_bytes he,
    Function.update_self, Function.update_self]

theorem store_read {m : Memory} {a b : ℕ} (ha : (m.lookup a).isSome) {v w : UInt8}
    (hb : m.read b = some w) :
    (m.store a v).read b = some v ∨ (m.store a v).read b = some w := by
  obtain ⟨e, he⟩ := Option.isSome_iff_exists.1 ha
  obtain ⟨e', he', rfl⟩ := Option.map_eq_some_iff.1 hb
  rw [read_eq_of_frame (store_lookup m a v b), he', Option.map_some, store_bytes he]
  by_cases hframe : e'.frame = e.frame
  · rw [hframe, Function.update_self]
    by_cases hoffset : b % PAGE_SIZE = a % PAGE_SIZE
    · rw [hoffset, Function.update_self]
      exact .inl rfl
    · rw [Function.update_of_ne hoffset]
      exact .inr rfl
  · rw [Function.update_of_ne hframe]
    exact .inr rfl

/-- A store to a page that is there leaves the task ready. -/
theorem Caller.Ready.store (h : c.Ready buf n s) (hx : x < c.current.dataLimit)
    (hpresent : (s.mem.lookup (c.linear x)).isSome) (v : UInt8) :
    c.Ready buf n { s with mem := s.mem.store (c.linear x) v } := by
  refine ⟨h.task, h.pos, h.pages.imp ?_ fun hall i hi hlt => ?_⟩
  · rintro ⟨bounds, lost, hinv, hlive⟩
    obtain ⟨held, hc, hheld⟩ := hinv.pages
    obtain ⟨hlookup, hd, hi, -, -⟩ := hinv.lookup hlive hx s.mem
    obtain ⟨e, he⟩ := Option.isSome_iff_exists.1 hpresent
    exact ⟨bounds, lost, hinv.setMem (hc.store hd hi (hlookup ▸ he) v) hheld hinv.dirs, hlive⟩
  · have hframe := store_lookup s.mem (c.linear x) v (c.linear (bufAddr buf i))
    have hsome := congrArg Option.isSome hframe
    rw [Option.isSome_map, Option.isSome_map] at hsome
    exact hsome.trans (hall i hi hlt)

end Ready

end MyJavaExample.Mm
