import MyJavaExample.Mm.Runs

/-!
# Page counts with shared memory

`sys_shmget` gives a process the page of another one without counting the new
entry, and puts its page over whatever the caller has at the address.  The
counts are right as long as neither happens: the key is new or the caller's own,
and the entry that is overwritten is not that of a shared page.
-/

namespace MyJavaExample.Mm

open Lib

/-! ## One call -/

/-- The address is in the data segment and no shared page is mapped there. -/
def Sys.Vacant (s : Sys) (current : Task) (x : ℕ) : Prop :=
  x < current.dataLimit ∧ ∀ e ∈ s.mem.lookup (current.startCode + x), LOW_MEM ≤ e.frame →
    s.mem.memMap e.frame = 1

instance (s : Sys) (current : Task) (x : ℕ) : Decidable (s.Vacant current x) :=
  inferInstanceAs (Decidable (_ ∧ ∀ e ∈ s.mem.lookup (current.startCode + x), _))

/-- The key is the caller's own, or it is new and the address is vacant. -/
def Sys.KeySafe (s : Sys) (current : Task) (key : ℤ) : Prop :=
  (∀ i ∈ s.shm.initKeyArrIfNot.getShmid key,
    (s.shm.initKeyArrIfNot.shareMemoryArr i).pid = current.pid) ∧
  (s.shm.initKeyArrIfNot.getShmid key = none → s.Vacant current current.shmAddress)

instance (s : Sys) (current : Task) (key : ℤ) : Decidable (s.KeySafe current key) :=
  inferInstanceAs (Decidable ((∀ i ∈ s.shm.initKeyArrIfNot.getShmid key, _) ∧ _))

/-- What the counts need of a call of `sys_shmget`. -/
def Sys.ShmSafe (s : Sys) : Action → Prop
  | .shmget nr key size => ∀ current ∈ s.live nr, size ≤ PAGE_SIZE → s.KeySafe current key
  | _ => True

instance (s : Sys) : (a : Action) → Decidable (s.ShmSafe a)
  | .shmget nr key size =>
      inferInstanceAs (Decidable (∀ current ∈ s.live nr, size ≤ PAGE_SIZE → s.KeySafe current key))
  | .allocate | .free _ | .fill _ _ | .put _ _ _ | .getEmptyPage _ _ | .tryToShare _ _ _
  | .doNoPage _ _ _ _ | .doWpPage _ _ | .writeVerify _ _ | .write _ _ _ _ _ | .fork _ _ _
  | .exit _ | .release _ | .execve _ _ _ _ | .shmat _ _ => inferInstanceAs (Decidable True)

section Call

variable {bounds : Bounds} {lost : List ℕ} {s : Sys} {nr : ℕ} {current : Task}
variable {m : Memory} {held : List ℕ} {address p : ℕ} {d i : Fin 1024}

/-- A page the kernel holds is put over an entry whose page is not shared.  That
page is lost. -/
theorem putPage_over (hc : Consistent bounds m (p :: held)) (hd : dirIndex address = d.val)
    (hi : tableIndex address = i.val) (hd4 : 4 ≤ d.val)
    (hvacant : ∀ e, entryAt m (d, i) = some e → LOW_MEM ≤ e.frame → m.memMap e.frame = 1)
    {m' : Memory} (hput : putPage p address m = some m') :
    ∃ lost', Consistent bounds m' (lost' ++ held) ∧ ∀ y, y ≠ d → dirRef m' y = dirRef m y := by
  cases he : entryAt m (d, i) with
  | none =>
      obtain ⟨hc', hdir, -, -⟩ := putPage_spec hc hd hi hd4 he hput
      exact ⟨[], hc', hdir⟩
  | some e =>
      obtain ⟨t, hdir, hpresent, rfl⟩ := entryAt_eq_some.1 he
      dsimp only at hdir hpresent he
      obtain ⟨-, hdpresent, hframe⟩ := dirRef_eq_some.1 hdir
      have hcleared : entryAt (m.setEntry t i .zero) (d, i) = none := by
        rw [entryAt_setEntry hc hdir, Function.update_self]
        rfl
      -- the entry is cleared first, and then the page is put
      have hput' : putPage p address (m.setEntry t i .zero) = some m' := by
        have hpg : (m.setEntry t i .zero).pgDir = m.pgDir := rfl
        rw [putPage, hd, hi, if_pos hdpresent, hframe] at hput
        rw [putPage, hd, hi, hpg, if_pos hdpresent, hframe, setEntry_setEntry]
        exact hput
      rcases Nat.lt_or_ge (m.table t i).frame LOW_MEM with hlow | hlow
      · have hc₁ : Consistent bounds (m.setEntry t i .zero) (p :: held) := by
          refine hc.updateLow hdir (fun e₀ he₀ => ?_) fun hno => by cases hno
          cases he.symm.trans he₀
          exact hlow
        obtain ⟨hc', hdir', -, -⟩ := putPage_spec hc₁ hd hi hd4 hcleared hput'
        exact ⟨[], hc', hdir'⟩
      · have hc₁ := (hc.lose hdir he hlow (hvacant _ he hlow)).perm (List.Perm.swap p _ held)
        obtain ⟨hc', hdir', -, -⟩ := putPage_spec hc₁ hd hi hd4 hcleared hput'
        exact ⟨[(m.table t i).frame], hc', hdir'⟩

/-- The pages that are held may be more. -/
theorem Sys.Inv.lose (h : s.Inv bounds lost) {more : List ℕ} (hheld : s.Holds lost held)
    (hc : Consistent bounds m (more ++ held)) (hdirs : ∀ d t, dirRef m d = some t → s.Owned d)
    {n : ℕ} {shm : Shm} (hlive : s.live nr = some current) :
    ∃ lost', Sys.Inv bounds lost'
      { s with
        mem := m
        shm := shm
        task := Function.update s.task nr (some { current with shareMemoryNum := n }) } := by
  obtain ⟨ht, hpos, hz⟩ := Sys.live_eq_some.1 hlive
  have hok := h.tasks nr current ht
  have hheld' : s.Holds (more ++ lost) (more ++ held) := by
    refine ⟨fun q hq => List.mem_append_right _ (hheld.task q hq),
      fun q hq => List.mem_append_right _ (hheld.kernel q hq), fun q hq => ?_⟩
    rcases List.mem_append.1 hq with hq | hq
    · exact .inr (.inr (List.mem_append_left _ hq))
    · exact (hheld.only q hq).imp_right fun hq => hq.imp_right (List.mem_append_right _)
  have h' : s.Inv bounds (more ++ lost) := by
    obtain ⟨held₀, hc₀, hheld₀⟩ := h.pages
    refine ⟨⟨held₀, hc₀, hheld₀.task, hheld₀.kernel, fun q hq => ?_⟩, h.distinct, h.kernel, h.tasks,
      h.dirs⟩
    exact (hheld₀.only q hq).imp_right fun hq => hq.imp_right (List.mem_append_right _)
  have hok' : TaskOk nr { current with shareMemoryNum := n } :=
    ⟨hok.lt, hok.startCode, hok.codeLimit, hok.dataLimit, hok.first⟩
  refine ⟨more ++ lost, h'.setTask ht hc hheld' ?_ hok' fun d t hd => ?_⟩
  · rfl
  · obtain ⟨t', ht', hlt⟩ := hdirs d t hd
    by_cases heq : d.val / 16 = nr
    · subst heq
      cases hlive.symm.trans ht'
      exact ⟨_, Sys.live_eq_some.2 ⟨Function.update_self .., hpos, hz⟩, hlt⟩
    · exact ⟨t', by rw [Sys.live_update_of_ne heq, ht'], hlt⟩

/-- A safe call keeps the counts.  A page may be lost. -/
theorem Sys.Inv.shmget (h : s.Inv bounds lost) (hlive : s.live nr = some current) {key : ℤ}
    {size : ℕ} (hsafe : s.ShmSafe (.shmget nr key size)) {r : ShmgetResult}
    (hr : sysShmget key size current s.mem s.shm = r) :
    ∃ lost', Sys.Inv bounds lost'
      { s with mem := r.mem, shm := r.shm, task := Function.update s.task nr (some r.current) } := by
  obtain ⟨held, hc, hheld⟩ := h.pages
  have hsame : ∀ shm, ∃ lost', Sys.Inv bounds lost'
      { s with mem := s.mem, shm := shm, task := Function.update s.task nr (some current) } :=
    fun shm => @Sys.Inv.lose bounds lost s nr current s.mem held h [] hheld hc h.dirs
      current.shareMemoryNum shm hlive
  rcases sysShmget_cases hr with ⟨-, hcurrent, -, hmem⟩ | ⟨i, -, -, -, rfl⟩ |
    ⟨index, page, m, hsize, hpage, hput, -, hcurrent, -⟩
  · rw [hcurrent]
    rcases hmem with hmem | ⟨p, hget⟩
    · rw [hmem]
      exact hsame _
    · have hp := hc.handed hget
      refine @Sys.Inv.lose bounds lost s nr current r.mem held h [p] hheld (hc.alloc hp) ?_
        current.shareMemoryNum r.shm hlive
      rw [hp.dirRef]
      exact h.dirs
  · exact hsame _
  · obtain ⟨hkey, hvacant⟩ := hsafe current hlive hsize
    rcases hpage with ⟨hid, -, -, hpid⟩ | ⟨hid, hget, -⟩
    · exact absurd (hkey index hid) hpid
    · obtain ⟨hx, hvacant⟩ := hvacant hid
      have hp := hc.handed hget
      obtain ⟨hlookup, hd, hi, hd4, howned⟩ := h.lookup hlive hx s.mem
      have hlinear : (current.startCode + current.shmAddress) % 2 ^ 32 =
          current.startCode + current.shmAddress := by
        obtain ⟨ht, -, -⟩ := Sys.live_eq_some.1 hlive
        have hok := h.tasks nr current ht
        have hlt : nr < 64 := hok.lt
        have hstart : current.startCode = nr * 2 ^ 26 := hok.startCode
        have hx : current.shmAddress < 2 ^ 26 := hx.trans_le hok.dataLimit
        omega
      rw [hlinear] at hput
      obtain ⟨more, hc', hdir⟩ := putPage_over (hc.alloc hp) hd hi hd4 (by
        intro e he hlow
        rw [hp.entryAt] at he
        rw [hp.memMap, Function.update_of_ne ((hc.free_ne hp.low hp.free).2.1 _ e he)]
        exact hvacant e (hlookup.trans he) hlow) hput
      rw [hcurrent]
      refine h.lose hheld hc' (h.owned_of_ne howned fun y hy => ?_) hlive
      rw [hdir y hy, hp.dirRef]

end Call

/-! ## Runs -/

namespace Sys

/-- The counts of the pages that are mapped are exact, and no such page is handed
out. -/
def ShmCounted (s : Sys) : Prop :=
  ∀ x e, entryAt s.mem x = some e → LOW_MEM ≤ e.frame →
    s.mem.memMap e.frame = refCount (fun y => (entryAt s.mem y).map Entry.frame) e.frame ∧
      ∀ p m, getFreePage s.mem = some (p, m) → p ≠ e.frame

/-- One action of a run.  A panic ends the run. -/
def next (r : Except String Sys) (a : Action) : Except String Sys := r >>= fun s => s.exec a

/-- The action is safe in the state it is executed in. -/
def SafeStep (r : Except String Sys) (a : Action) : Prop := ∀ s ∈ r.toOption, s.ShmSafe a

instance (r : Except String Sys) (a : Action) : Decidable (SafeStep r a) :=
  inferInstanceAs (Decidable (∀ s ∈ r.toOption, s.ShmSafe a))

end Sys

section Runs

variable {bounds : Bounds} {lost : List ℕ} {s : Sys} {start high : ℕ} {as : List Action}

theorem Sys.Inv.shmCounted (h : s.Inv bounds lost) : s.ShmCounted := by
  obtain ⟨held, hc, -⟩ := h.pages
  intro x e he hlow
  have href := refOf_entry he
  obtain ⟨hstart, hhigh⟩ := hc.counted.managed href hlow
  have hheld := List.count_eq_zero_of_not_mem (hc.counted.notMem_held href)
  have hdir : refCount (dirRef s.mem) e.frame = 0 :=
    refCount_eq_zero fun d hd => hc.entry_ne_table he hd rfl
  constructor
  · rw [hc.counted.counts e.frame hstart hhigh, hheld, refOf, refCount_elim, hdir]
    omega
  · rintro p m hget rfl
    have hfree := (hc.handed hget).free
    exact (hc.counted.count_pos href hlow).ne' hfree

theorem Sys.Inv.execSafe (h : s.Inv bounds lost) {a : Action} (hsafe : s.ShmSafe a) :
    ∃ s' lost', s.exec a = .ok s' ∧ s'.Inv bounds lost' := by
  by_cases ha : a.isShmget = false
  · obtain ⟨s', hexec, h'⟩ := h.exec ha
    exact ⟨s', lost, hexec, h'⟩
  · cases a with
    | shmget nr key size =>
        rw [Sys.exec]
        cases hlive : s.live nr with
        | none => exact ⟨s, lost, rfl, h⟩
        | some current =>
            obtain ⟨lost', h'⟩ := h.shmget hlive hsafe rfl
            exact ⟨_, lost', rfl, h'⟩
    | _ => exact absurd rfl ha

/-- In every run whose calls of `sys_shmget` are safe, no action panics and the
counts of the mapped pages are exact in every state. -/
theorem shm_page_counts (hstart : LOW_MEM ≤ start)
    (hsafe : EachStep Sys.next Sys.SafeStep (.ok (.boot start high)) as) :
    Always Sys.next (fun r => ∃ s, r = .ok s ∧ s.ShmCounted) (.ok (.boot start high)) as := by
  refine hsafe.always (I := fun r => ∃ s lost, r = .ok s ∧ s.Inv ⟨start, high⟩ lost) ?_ ?_
    ⟨_, [], rfl, Sys.inv_boot hstart⟩
  · rintro r ⟨s, lost, rfl, h⟩
    exact ⟨s, rfl, h.shmCounted⟩
  · rintro r a ⟨s, lost, rfl, h⟩ hok
    obtain ⟨s', lost', hexec, h'⟩ := h.execSafe (hok s rfl)
    exact ⟨s', lost', hexec, h'⟩

theorem shm_page_counts_two_keys : Always Sys.next (fun r => ∃ s, r = .ok s ∧ s.ShmCounted)
    (.ok (.boot 1024 4096))
    [.fork 0 1 1, .shmget 1 5 100, .shmget 1 6 100, .shmget 1 5 100, .exit 1] := by
  refine shm_page_counts (by decide) ⟨?_, ?_, ?_, ?_, ?_, trivial⟩
  all_goals decide +kernel

/-- The second process that gets a key maps the page again, and the count stays
1. -/
theorem shm_attach_not_counted : ¬Always Sys.next (fun r => ∃ s, r = .ok s ∧ s.ShmCounted)
    (.ok (.boot 1024 4096)) [.fork 0 1 1, .fork 0 2 2, .shmget 1 5 100, .shmget 2 5 100] := by
  rintro ⟨-, -, -, -, s, hs, hcounted⟩
  have hview : ((([.fork 0 1 1, .fork 0 2 2, .shmget 1 5 100, .shmget 2 5 100] : List Action).foldl
      Sys.next (.ok (.boot 1024 4096))).toOption.map fun s => (s.mem.memMap 4091,
        (s.mem.lookup (2 ^ 26)).map Entry.frame, (s.mem.lookup (2 ^ 27)).map Entry.frame)) =
      some (1, some 4091, some 4091) := by
    decide +kernel
  simp only [List.foldl_cons, List.foldl_nil] at hview
  rw [hs] at hview
  obtain ⟨hone, hfirst, hsecond⟩ : s.mem.memMap 4091 = 1 ∧
      (s.mem.lookup (2 ^ 26)).map Entry.frame = some 4091 ∧
      (s.mem.lookup (2 ^ 27)).map Entry.frame = some 4091 := by
    have hview := Option.some.inj hview
    exact ⟨congrArg Prod.fst hview, congrArg (fun v => v.2.1) hview, congrArg (fun v => v.2.2) hview⟩
  rw [lookup_linear (by omega) (by omega)] at hfirst hsecond
  obtain ⟨e, he, hframe⟩ := Option.map_eq_some_iff.1 hfirst
  obtain ⟨hcount, -⟩ := hcounted _ e he (by rw [hframe]; decide)
  rw [hframe, hone] at hcount
  have htwo := two_le_refCount (f := fun y => (entryAt s.mem y).map Entry.frame) hfirst hsecond
    (by decide)
  omega

end Runs

end MyJavaExample.Mm
