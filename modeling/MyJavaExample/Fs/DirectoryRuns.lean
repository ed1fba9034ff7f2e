import Mathlib.Data.Fintype.Basic
import MyJavaExample.Fs.DirectoryNames
import MyJavaExample.Lib.Run

/-!
# Calls that add names, in every order

The steps of `find_entry` and `add_entry` keep the invariant, so a name is new
when it is added, unless another call has added it where this one had looked
already.
-/

namespace MyJavaExample.Fs

open Lib

namespace Names

variable {τ : Type} [DecidableEq τ] {s : Names τ} {t u : τ} {c : CreateCall} {pc : CreatePc}
  {name : List UInt8}

/-! ## The steps of a call -/

/-- A task goes on to a point where it has nothing of its own. -/
theorem Inv.move (h : s.Inv) (hdir : s.dirs c.dir ≠ []) (hknows : s.Knows c pc)
    (hadding : ∀ inode block, pc = .adding inode block → c.kind.newInode = false)
    (hreturning : pc ≠ .returning true) : (s.setTask t (some (c, pc))).Inv := by
  refine h.setTask ?_ ?_ ?_ ?_
  · rintro _ ⟨⟩
    exact hdir
  · rintro _ ⟨⟩
    exact hknows
  · intro c' inode block hc' hnew
    cases hc'
    rw [hadding inode block rfl] at hnew
    cases hnew
  · intro c' hc'
    cases hc'
    exact absurd rfl hreturning

theorem Inv.fail (h : s.Inv) (hdir : s.dirs c.dir ≠ []) :
    (s.setTask t (some (c, .returning false))).Inv :=
  h.move hdir (fun hcreated => by cases hcreated) (fun _ _ hpc => by cases hpc)
    (fun hpc => by cases hpc)

theorem Inv.allocating (h : s.Inv) (hdir : s.dirs c.dir ≠ [])
    (hnot : ¬HasName (s.dirs c.dir) (padName c.basename)) :
    (s.setTask t (some (c, .allocating))).Inv :=
  h.move hdir hnot (fun _ _ hpc => by cases hpc) (fun hpc => by cases hpc)

theorem Inv.searching {entries block : ℕ} (h : s.Inv) (hdir : s.dirs c.dir ≠ [])
    (hknows : s.Knows c (.searching name entries block)) :
    (s.setTask t (some (c, .searching name entries block))).Inv :=
  h.move hdir hknows (fun _ _ hpc => by cases hpc) (fun hpc => by cases hpc)

omit [DecidableEq τ] in
theorem Inv.two_le (h : s.Inv) {d : ℕ} (hd : s.dirs d ≠ []) : 2 ≤ (s.dirs d).length := by
  obtain ⟨-, de, hde, -⟩ := h.dots d hd
  obtain ⟨hlt, -⟩ := List.getElem?_eq_some_iff.1 hde
  exact hlt

theorem Inv.findEntry (h : s.Inv) (hdir : s.dirs c.dir ≠ []) : (s.findEntry t c).Inv := by
  have htwo := h.two_le hdir
  unfold Names.findEntry
  dsimp only
  split
  next hname =>
    split
    next => exact h.searching hdir (Or.inl ⟨Or.inl rfl, htwo, rfl⟩)
    next =>
      split
      next d hmount => exact h.searching (h.imount c.dir d hmount) (Or.inl ⟨Or.inr hname, htwo, rfl⟩)
      next => exact h.searching hdir (Or.inl ⟨Or.inr hname, htwo, rfl⟩)
  next =>
    refine h.searching hdir (Or.inr ⟨rfl, fun i de hde _ _ => ⟨Nat.zero_le i, ?_⟩⟩)
    exact (List.getElem?_eq_some_iff.1 hde).1

theorem Inv.startCall (h : s.Inv) (hdir : s.dirs c.dir ≠ []) : (s.startCall t c).Inv := by
  unfold Names.startCall
  split
  next => exact h.fail hdir
  next =>
    split
    next => exact h.findEntry hdir
    next =>
      split
      next => exact h.findEntry hdir
      next => exact h.fail hdir

theorem Inv.notFound (h : s.Inv) (hdir : s.dirs c.dir ≠ [])
    (hnot : ¬HasName (s.dirs c.dir) (padName c.basename)) : (s.notFound t c).Inv := by
  unfold Names.notFound
  split
  next =>
    split
    next => exact h.allocating hdir hnot
    next => exact h.fail hdir
  next oldinode hkind =>
    have hnew : c.kind.newInode = false := by rw [hkind]; rfl
    refine h.move hdir ⟨hnot, Nat.zero_le _, fun h => ?_⟩ (fun _ _ _ => hnew) fun hpc => by cases hpc
    rw [hnew] at h
    cases h
  next => exact h.allocating hdir hnot

omit [DecidableEq τ] in
/-- A block without the name leaves only the later ones. -/
theorem Inv.searched {entries block : ℕ} (h : s.Inv)
    (ht : s.task t = some (c, .searching name entries block))
    (hnone : findInBlock (s.dirs c.dir) name entries block = none) :
    name = c.basename.take NAME_LEN ∧
      Within (s.dirs c.dir) (padName c.basename) (DIR_ENTRIES_PER_BLOCK * (block + 1)) entries := by
  rcases h.knows t c _ ht with ⟨hname, htwo, rfl⟩ | ⟨hname, hwithin⟩
  · obtain ⟨⟨x, hx, hdot⟩, y, hy, hdotDot⟩ := h.dots c.dir (h.dir t c _ ht)
    rcases hname with rfl | rfl
    · rw [findInBlock_eq_none hnone (by decide) (by decide) (by omega) hx] at hdot
      cases hdot
    · rw [findInBlock_eq_none hnone (by decide) (by decide) (by omega) hy] at hdotDot
      cases hdotDot
  · refine ⟨hname, fun i de hde hlive heq => ?_⟩
    obtain ⟨hlo, hhi⟩ := hwithin i de hde hlive heq
    refine ⟨?_, hhi⟩
    by_contra hlt
    have hmatch := findInBlock_eq_none hnone hlo (Nat.lt_of_not_le hlt) hhi hde
    rw [hname, matches_padName hlive heq] at hmatch
    cases hmatch

theorem Inv.search {entries block : ℕ} (h : s.Inv)
    (ht : s.task t = some (c, .searching name entries block)) :
    (s.search t c name entries block).Inv := by
  have hdir := h.dir t c _ ht
  unfold Names.search
  split
  next => exact h.fail hdir
  next hnone =>
    obtain ⟨hname, hwithin⟩ := h.searched ht hnone
    split
    next => exact h.searching hdir (Or.inr ⟨hname, hwithin⟩)
    next hlast =>
      refine h.notFound hdir ?_
      rintro ⟨i, de, hde, hlive, heq⟩
      have := hwithin i de hde hlive heq
      omega

theorem Inv.allocated {inode : ℕ} (h : s.Inv) (ht : s.task t = some (c, .allocating))
    (hzero : inode ≠ 0) (hfresh : inode ∉ s.inodes) : (s.allocated t c inode).Inv := by
  have hinodes : { s with inodes := inode :: s.inodes }.Inv :=
    h.setInodes (fun d hd => h.free d fun hmem => hd (List.mem_cons_of_mem _ hmem))
      fun _ _ _ _ _ _ => List.mem_cons_of_mem _
  refine hinodes.setTask ?_ ?_ ?_ ?_
  · rintro _ ⟨⟩
    exact h.dir t c _ ht
  · rintro _ ⟨⟩
    exact ⟨h.knows t c _ ht, Nat.zero_le _, fun _ => ⟨hzero, List.mem_cons_self, h.free inode hfresh⟩⟩
  · intro c' inode' block hc' hnew u c'' block' hu hadding
    cases hc'
    cases hkind : c''.kind.newInode with
    | false => rfl
    | true => exact absurd ((h.knows u c'' _ hadding).2.2 hkind).2.1 hfresh
  · intro c' hc'
    cases hc'

theorem setTask_setTask (s : Names τ) (t : τ) (x y : Option (CreateCall × CreatePc)) :
    (s.setTask t x).setTask t y = s.setTask t y := by
  simp only [setTask, Function.update_idem]

theorem newEntries_setTask (s : Names τ) (t : τ) (x : Option (CreateCall × CreatePc))
    (c : CreateCall) (inode : ℕ) :
    (s.setTask t x).newEntries c inode = (s.newEntries c inode).setTask t x := by
  unfold newEntries
  split <;> rfl

theorem dropInode_setTask (s : Names τ) (t : τ) (x : Option (CreateCall × CreatePc))
    (c : CreateCall) (inode : ℕ) :
    (s.setTask t x).dropInode c inode = (s.dropInode c inode).setTask t x := by
  unfold dropInode
  split <;> rfl

omit [DecidableEq τ] in
/-- The number that a call has taken is its own. -/
theorem Inv.adding_ne {inode block : ℕ} (h : s.Inv)
    (ht : s.task t = some (c, .adding inode block)) (hnew : c.kind.newInode = true) (hu : u ≠ t)
    {c' : CreateCall} {inode' block' : ℕ} (hu' : s.task u = some (c', .adding inode' block'))
    (hnew' : c'.kind.newInode = true) : inode' ≠ inode := by
  rintro rfl
  exact hu (h.fresh u t c' c inode' block' block hu' ht hnew' hnew)

theorem Inv.dropInode {inode block : ℕ} (h : s.Inv)
    (ht : s.task t = some (c, .adding inode block)) :
    ((s.dropInode c inode).setTask t (some (c, .returning false))).Inv := by
  have hfail : (s.setTask t (some (c, .returning false))).Inv := h.fail (h.dir t c _ ht)
  rw [← dropInode_setTask]
  unfold Names.dropInode
  split
  next hnew =>
    obtain ⟨-, -, hnil⟩ := (h.knows t c _ ht).2.2 hnew
    refine hfail.setInodes (fun d hd => ?_) fun u c' inode' block' hu hnew' hmem => ?_
    · by_cases hd' : d = inode
      · rw [hd']
        exact hnil
      · exact h.free d fun hmem => hd ((List.mem_erase_of_ne hd').2 hmem)
    · rw [task_setTask] at hu
      split at hu
      next => cases hu
      next hut => exact (List.mem_erase_of_ne (h.adding_ne ht hnew hut hu hnew')).2 hmem
  next => exact hfail

/-- The entry is written, and those of a new directory. -/
theorem Inv.written {inode block i : ℕ} (h : s.Inv)
    (ht : s.task t = some (c, .adding inode block))
    (hi : freeInBlock (s.dirs c.dir) block = some i)
    (hrival : ∀ u, u ≠ t → ¬s.Rival c i u) :
    (((s.setTask t (some (c, .returning false))).insertEntry c.dir i
      ⟨inode, padName c.basename⟩).newEntries c inode).Inv := by
  have hdir := h.dir t c _ ht
  obtain ⟨hnot, hlen, hinode⟩ := h.knows t c _ ht
  obtain ⟨hle, hfree⟩ := freeInBlock_eq_some hi hlen
  have hinsert : ((s.setTask t (some (c, .returning false))).insertEntry c.dir i
      ⟨inode, padName c.basename⟩).Inv := by
    refine (h.fail hdir).insertEntry hdir hle hfree hnot fun u c' pc hu hdir' hname hmissed => ?_
    rw [task_setTask] at hu
    split at hu
    next =>
      cases hu
      exact hmissed
    next hut => exact hrival u hut ⟨_, hu, hdir', hname, hmissed⟩
  unfold newEntries
  split
  next hkind =>
    have hnew : c.kind.newInode = true := by rw [hkind]; rfl
    obtain ⟨hzero, hmem, hnil⟩ := hinode hnew
    refine hinsert.makeDir ?_ hzero hmem ?_ fun u c' block' hu => ?_
    · rintro hd
      rw [hd] at hdir
      exact hdir h.zero
    · rw [dirs_insertEntry, if_neg]
      · exact hnil
      · rintro rfl
        exact hdir hnil
    · have hu' : (s.setTask t (some (c, .returning false))).task u =
          some (c', .adding inode block') := hu
      rw [task_setTask] at hu'
      split at hu'
      next => cases hu'
      next hut =>
        cases hnew' : c'.kind.newInode with
        | false => rfl
        | true => exact absurd rfl (h.adding_ne ht hnew hut hu' hnew')
  next => exact hinsert

omit [DecidableEq τ] in
theorem newEntries_frame (s : Names τ) (c : CreateCall) (inode : ℕ) :
    (s.newEntries c inode).task = s.task ∧ (s.newEntries c inode).created = s.created := by
  unfold newEntries
  split <;> exact ⟨rfl, rfl⟩

omit [DecidableEq τ] in
theorem newEntries_dir {inode : ℕ} (hne : c.dir ≠ inode) :
    (s.newEntries c inode).dirs c.dir = s.dirs c.dir := by
  unfold newEntries
  split
  next => exact Function.update_of_ne hne ..
  next => rfl

theorem Inv.addEntry {inode block : ℕ} (h : s.Inv)
    (ht : s.task t = some (c, .adding inode block)) {space : Bool}
    (hmissed : s.NoneMissed (.add t space)) : (s.addEntry t c inode block space).Inv := by
  have hdir := h.dir t c _ ht
  obtain ⟨hnot, hlen, hinode⟩ := h.knows t c _ ht
  unfold Names.addEntry
  split
  next i hi =>
    have hadds : s.adds t = some (c, i) := by
      rw [adds, ht]
      simp only [hi, Option.map_some]
    obtain ⟨hle, -⟩ := freeInBlock_eq_some hi hlen
    have hwritten := h.written ht hi (hmissed (c, i) hadds)
    obtain ⟨htask, hcreated⟩ := newEntries_frame ((s.setTask t (some (c, .returning false))).insertEntry
      c.dir i ⟨inode, padName c.basename⟩) c inode
    have hshape : ((s.insertEntry c.dir i ⟨inode, padName c.basename⟩).newEntries c inode).setTask t
        (some (c, .returning true)) = (((s.setTask t (some (c, .returning false))).insertEntry c.dir i
          ⟨inode, padName c.basename⟩).newEntries c inode).setTask t (some (c, .returning true)) := by
      show _ = (((s.insertEntry c.dir i ⟨inode, padName c.basename⟩).setTask t
        (some (c, .returning false))).newEntries c inode).setTask t (some (c, .returning true))
      rw [newEntries_setTask, setTask_setTask]
    show (((s.insertEntry c.dir i ⟨inode, padName c.basename⟩).newEntries c inode).setTask t
      (some (c, .returning true))).Inv
    rw [hshape]
    refine hwritten.setTask ?_ ?_ ?_ ?_
    · rintro _ ⟨⟩
      exact hwritten.dir t c (.returning false) (by rw [htask]; exact Function.update_self ..)
    · rintro _ ⟨⟩ - hkind
      have hnew : c.kind.newInode = true := by rw [hkind]; rfl
      obtain ⟨hzero, -, hnil⟩ := hinode hnew
      have hne : c.dir ≠ inode := fun heq => hdir (heq ▸ hnil)
      rw [newEntries_dir hne, dirs_insertEntry, if_pos rfl, hcreated]
      exact ⟨hasName_setEntry_self hle hzero, fun hmem => hnot (h.created _ hmem)⟩
    · intro c' inode' block' hc'
      cases hc'
    · rintro c' ⟨⟩ - u c' hu hreturning hkind' ⟨hsame, hname⟩
      rw [htask] at hreturning
      have hu' : s.task u = some (c', .returning true) := by
        rw [← hreturning]
        exact (Function.update_of_ne hu ..).symm
      have hhas := (h.knows u c' _ hu' rfl hkind').1
      rw [← hsame, ← hname] at hhas
      exact hnot hhas
  next hnone =>
    split
    next =>
      refine h.setTask ?_ ?_ ?_ ?_
      · rintro _ ⟨⟩
        exact hdir
      · rintro _ ⟨⟩
        exact ⟨hnot, freeInBlock_eq_none hnone, hinode⟩
      · intro c' inode' block' hc' hnew u c'' block'' hu hu'
        cases hc'
        cases hnew' : c''.kind.newInode with
        | false => rfl
        | true => exact absurd rfl (h.adding_ne ht hnew hu hu' hnew')
      · intro c' hc'
        cases hc'
    next => exact h.dropInode ht

/-- A call returns. -/
theorem Inv.leave {created : Bool} (h : s.Inv) (ht : s.task t = some (c, .returning created)) :
    (s.leave t c created).Inv := by
  have hnone : (s.setTask t none).Inv :=
    h.setTask (fun _ hy => by cases hy) (fun _ hy => by cases hy) (fun _ _ _ hx => by cases hx)
      fun _ hx => by cases hx
  unfold Names.leave
  dsimp only
  split
  next hexcl =>
    obtain ⟨hhas, hnotMem⟩ := h.knows t c _ ht hexcl.1 hexcl.2
    obtain rfl : created = true := hexcl.1
    refine ⟨hnone.unique, hnone.dots, hnone.imount, hnone.zero, hnone.free, hnone.dir,
      fun u c' pc hu => ?_, hnone.fresh, List.nodup_cons.2 ⟨hnotMem, h.nodup⟩, ?_, hnone.pending⟩
    · have hknows := hnone.knows u c' pc hu
      cases pc with
      | searching name entries block => exact hknows
      | allocating => exact hknows
      | adding inode block => exact hknows
      | returning created' =>
          intro hcreated' hkind'
          obtain ⟨hhas', hnotMem'⟩ := hknows hcreated' hkind'
          refine ⟨hhas', fun hmem => ?_⟩
          rcases List.mem_cons.1 hmem with heq | hmem
          · rw [task_setTask] at hu
            split at hu
            next => cases hu
            next hut =>
              subst hcreated'
              exact hut (h.pending u t c' c hu ht hkind' hexcl.2 (congrArg Prod.fst heq)
                (congrArg Prod.snd heq))
          · exact hnotMem' hmem
    · rintro x hx
      rcases List.mem_cons.1 hx with rfl | hx
      · exact hhas
      · exact h.created x hx
  next => exact hnone

/-- A step that adds no name another call has missed keeps the invariant. -/
theorem Inv.next (h : s.Inv) {a : CreateAction τ} (hmissed : s.NoneMissed a) : (s.next a).Inv := by
  cases a with
  | call t c =>
      unfold Names.next
      dsimp only
      split
      next =>
        split
        next => exact h
        next hdir => exact h.startCall hdir
      next => exact h
  | read t =>
      unfold Names.next
      dsimp only
      split
      next ht => exact h.search ht
      next => exact h
  | alloc t inode =>
      unfold Names.next
      dsimp only
      split
      next ht =>
        split
        next => exact h
        next hok =>
          rw [not_or] at hok
          exact h.allocated ht hok.1 hok.2
      next ht => exact h.fail (h.dir t _ _ ht)
      next => exact h
  | add t space =>
      unfold Names.next
      dsimp only
      split
      next ht => exact h.addEntry ht hmissed
      next => exact h
  | ret t =>
      unfold Names.next
      dsimp only
      split
      next ht => exact h.leave ht
      next => exact h

/-- A file system before any call: directories start with `.` and `..`, and have
no name twice. -/
structure Start (s : Names τ) : Prop where
  unique : ∀ d, UniqueNames (s.dirs d)
  dots : ∀ d, s.dirs d ≠ [] → Dots (s.dirs d)
  imount : ∀ d d', s.imount d = some d' → s.dirs d' ≠ []
  zero : s.dirs 0 = []
  free : ∀ d, d ∉ s.inodes → s.dirs d = []
  task : ∀ t, s.task t = none
  created : s.created = []

omit [DecidableEq τ] in
theorem Start.inv (h : s.Start) : s.Inv where
  unique := h.unique
  dots := h.dots
  imount := h.imount
  zero := h.zero
  free := h.free
  dir := fun t c pc ht => by
    rw [h.task] at ht
    cases ht
  knows := fun t c pc ht => by
    rw [h.task] at ht
    cases ht
  fresh := fun t u c c' inode block block' ht => by
    rw [h.task] at ht
    cases ht
  nodup := by rw [h.created]; exact List.nodup_nil
  created := fun x hx => by
    rw [h.created] at hx
    cases hx
  pending := fun t u c c' ht => by
    rw [h.task] at ht
    cases ht

end Names

end MyJavaExample.Fs
