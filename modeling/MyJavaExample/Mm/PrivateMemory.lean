import MyJavaExample.Lib.PrivateStore
import MyJavaExample.Mm.CopiedBytes
import MyJavaExample.Mm.Runs

/-!
# Private memories

Over the shared pages each task has a memory of its own: what it reads in pages
from `LOW_MEM` on.  Whatever the tasks do to their address spaces, it changes
only by the writes of the task: a fault lets bytes appear, `fork` gives the
child what the parent reads at that moment, and `exit` and `execve` clear one
memory.  The abstract machine is that of stores that each belong to one agent,
and every action is one of its steps.
-/

namespace MyJavaExample.Mm

open Lib

/-- The byte at a linear address, if its page is there and is one from `LOW_MEM`
on. -/
def Memory.readOwn (m : Memory) (address : ℕ) : Option UInt8 :=
  (m.lookup address).bind fun e =>
    if LOW_MEM ≤ e.frame then some (m.bytes e.frame (address % PAGE_SIZE)) else none

/-- The byte at the address `x` of the segment of a task that runs.  The first
task has no page from `LOW_MEM` on (`Sys.Inv.readOwn_first`). -/
def Sys.view (s : Sys) (nr x : ℕ) : Option UInt8 :=
  (s.live nr).bind fun t => if x < t.dataLimit then s.mem.readOwn (t.startCode + x) else none

/-- What a fault does: the task goes on, or it exits when memory runs out. -/
def Sys.faulted (s' : Sys) (nr : ℕ) (e : Effect ℕ ℕ UInt8) : Effect ℕ ℕ UInt8 :=
  if (s'.live nr).isSome then e else .clear nr

/-- What an action that leads from `s` to `s'` does to the private memories. -/
def Action.effect (a : Action) (s s' : Sys) : Effect ℕ ℕ UInt8 :=
  match a with
  | .allocate | .free _ | .fill _ _ | .release _ | .shmget _ _ _ | .shmat _ _ => .quiet
  | .put nr _ _ | .getEmptyPage nr _ | .tryToShare nr _ _ | .doNoPage nr _ _ _ | .doWpPage nr _
  | .writeVerify nr _ => s'.faulted nr (.load nr)
  | .write nr _ _ x v =>
      match s.live nr with
      | none => .quiet
      | some t => if x < t.dataLimit then s'.faulted nr (.write nr x v) else .quiet
  | .fork nr child _ =>
      if (s.task child).isNone ∧ (s'.task child).isSome then .clone nr child else .quiet
  | .exit nr => .clear nr
  | .execve nr aText aData _ => if aText + aData ≤ 0x3000000 then .clear nr else .quiet

section Views

variable {bounds : Bounds} {lost : List ℕ} {s s' : Sys} {nr b : ℕ} {current t : Task}

theorem Sys.view_of_dead (h : s.live nr = none) : s.view nr = fun _ => none := by
  funext x
  rw [Sys.view, h, Option.bind_none]

/-- The first task is not one of the user tasks. -/
theorem Sys.live_first (s : Sys) (hnr : nr = 0) : s.live nr = none := by
  rw [Sys.live, Option.bind_eq_none_iff]
  intro t _
  rw [if_neg fun hno => by omega]

/-- What is read at an address of a task lies in its own tables. -/
theorem Sys.Inv.readOwn_eq (h : s.Inv bounds lost) (hlive : s.live nr = some t) {x : ℕ}
    (hx : x < t.dataLimit) (m : Memory) :
    m.readOwn (t.startCode + x) = ownByteAt m (place nr x) (x % PAGE_SIZE) := by
  obtain ⟨ht, -, -⟩ := Sys.live_eq_some.1 hlive
  have hoffset : (t.startCode + x) % PAGE_SIZE = x % PAGE_SIZE := by
    rw [(h.tasks nr t ht).startCode]
    unfold TASK_SIZE PAGE_SIZE
    omega
  rw [Memory.readOwn, (h.lookup hlive hx m).1, hoffset]
  rfl

/-- The first task reads pages of the kernel only. -/
theorem Sys.Inv.readOwn_first (h : s.Inv bounds lost) (ht : s.task 0 = some t) {x : ℕ}
    (hx : x < t.dataLimit) : s.mem.readOwn (t.startCode + x) = none := by
  obtain ⟨held, hc, -⟩ := h.pages
  have hok := h.tasks 0 t ht
  rw [hok.first rfl] at hx
  have hdir : dirIndex (t.startCode + x) = 0 := by
    rw [hok.startCode, dirIndex]
    omega
  have htable : tableIndex (t.startCode + x) < 0xA0 := by
    rw [hok.startCode, tableIndex]
    omega
  rw [Memory.readOwn, Memory.lookup, hdir]
  split
  next =>
    rw [Option.bind_some, if_neg (Nat.not_le.2 (hc.kernel.2 _ htable))]
  next => rfl

theorem Sys.Inv.view_eq (h : s.Inv bounds lost) (hlive : s.live nr = some t) {x : ℕ} :
    s.view nr x =
      if x < t.dataLimit then ownByteAt s.mem (place nr x) (x % PAGE_SIZE) else none := by
  rw [Sys.view, hlive, Option.bind_some]
  split
  next hx => exact h.readOwn_eq hlive hx s.mem
  next => rfl

theorem Sys.Inv.place_div (h : s.Inv bounds lost) (hlive : s.live nr = some t) {x : ℕ}
    (hx : x < t.dataLimit) : (place nr x).1.val / 16 = nr := by
  obtain ⟨ht, -, -⟩ := Sys.live_eq_some.1 hlive
  have hok := h.tasks nr t ht
  have hx' : x < 2 ^ 26 := hx.trans_le hok.dataLimit
  have hlt : nr < 64 := hok.lt
  rw [place_dir hlt hx']
  omega

/-- The frame: a task whose pages read the same has the same memory. -/
theorem Sys.Inv.view_frame (h : s.Inv bounds lost) (hlive : s'.live b = s.live b)
    (hbytes : ∀ y, y.1.val / 16 = b → ownByteAt s'.mem y = ownByteAt s.mem y) :
    s'.view b = s.view b := by
  cases ht : s.live b with
  | none => rw [Sys.view_of_dead ht, Sys.view_of_dead (hlive.trans ht)]
  | some t =>
      funext x
      rw [h.view_eq ht, Sys.view, hlive, ht, Option.bind_some]
      split
      next hx => rw [h.readOwn_eq ht hx, hbytes _ (h.place_div ht hx)]
      next => rfl

/-- A task without tables has an empty memory. -/
theorem Sys.Inv.view_of_no_dirs (h : s.Inv bounds lost)
    (hnone : ∀ d : Fin 1024, d.val / 16 = nr → dirRef s.mem d = none) :
    s.view nr = fun _ => none := by
  cases ht : s.live nr with
  | none => exact Sys.view_of_dead ht
  | some t =>
      funext x
      rw [h.view_eq ht]
      split
      next hx => rw [ownByteAt_of_none (entryAt_of_dirRef_none (hnone _ (h.place_div ht hx)))]
      next => rfl

/-- What a fault of a task does to the pages. -/
structure Loads (nr : ℕ) (m m' : Memory) : Prop where
  others : ∀ y, y.1.val / 16 ≠ nr → ownByteAt m' y = ownByteAt m y
  kept : ∀ y o v, ownByteAt m y o = some v → ownByteAt m' y o = some v

theorem Loads.of_eq {m m' : Memory} (h : ownByteAt m' = ownByteAt m) : Loads nr m m' :=
  ⟨fun y _ => congrFun h y, fun y o v hy => by rw [h, hy]⟩

/-- One entry changes, and what it read stays. -/
theorem Loads.of_entry {m m' : Memory} {x : Fin 1024 × Fin 1024} (hx : x.1.val / 16 = nr)
    (hkept : ∀ o v, ownByteAt m x o = some v → ownByteAt m' x o = some v)
    (hsame : ∀ y, y ≠ x → ownByteAt m' y = ownByteAt m y) : Loads nr m m' := by
  refine ⟨fun y hy => hsame y ?_, fun y o v hv => ?_⟩
  · rintro rfl
    exact hy hx
  · by_cases hy : y = x
    · subst hy
      exact hkept o v hv
    · rw [hsame y hy, hv]

/-- A page is mapped where there was none. -/
theorem Loads.of_mapped {m m' : Memory} {x : Fin 1024 × Fin 1024} (hx : x.1.val / 16 = nr)
    (hnone : entryAt m x = none) (hsame : ∀ y, y ≠ x → ownByteAt m' y = ownByteAt m y) :
    Loads nr m m' := by
  refine .of_entry hx (fun o v hv => ?_) hsame
  rw [ownByteAt_of_none hnone] at hv
  cases hv

theorem Loads.step (h : s.Inv bounds lost) (hlive : s.live nr = some t) {m : Memory}
    (hloads : Loads nr s.mem m) : (Effect.load nr).Step s.view (Sys.view { s with mem := m }) := by
  refine ⟨fun b hb => h.view_frame rfl fun y hy => hloads.others y fun heq => hb ?_,
    fun x v _ hv => ?_⟩
  · exact hy.symm.trans heq
  · rw [h.view_eq hlive] at hv
    split at hv
    next hx =>
      rw [Sys.view, show Sys.live { s with mem := m } nr = some t from hlive, Option.bind_some,
        if_pos hx, h.readOwn_eq hlive hx]
      exact hloads.kept _ _ _ hv
    next => cases hv

/-- `do_exit` clears the memory of the task and no other. -/
theorem Sys.Inv.doExit_clears (h : s.Inv bounds lost) (hlive : s.live nr = some current)
    {m : Memory} {held : List ℕ} (hc : Consistent bounds m held)
    (hothers : ∀ y, y.1.val / 16 ≠ nr → ownByteAt m y = ownByteAt s.mem y)
    (hexit : Mm.doExit nr current { s with mem := m } = .ok s') :
    s'.live nr = none ∧ (Effect.clear nr).Step s.view s'.view := by
  obtain ⟨ht, hpos, -⟩ := Sys.live_eq_some.1 hlive
  obtain ⟨m', hfree, hs'⟩ := bind_eq_ok hexit
  cases hs'
  have hdead : Sys.live (Sys.mk m' (Function.update s.task nr
      (some { current with executable := none, zombie := true })) s.kernel s.shm) nr = none := by
    rw [Sys.live]
    dsimp only
    rw [Function.update_self]
    exact if_neg fun hno => hno.2 rfl
  refine ⟨hdead, funext fun b => ?_⟩
  by_cases hb : b = nr
  · rw [hb, Function.update_self]
    exact Sys.view_of_dead hdead
  · rw [Function.update_of_ne hb]
    refine h.view_frame (Sys.live_update_of_ne hb) fun y hy => ?_
    have hy' : y.1.val / 16 ≠ nr := fun heq => hb (hy.symm.trans heq)
    exact (freeSegments_own hc hpos (h.tasks nr current ht) hfree hy').trans (hothers y hy')

/-- The task exits from the memory as it is. -/
theorem Sys.Inv.exit_clears (h : s.Inv bounds lost) (hlive : s.live nr = some current)
    (hexit : Mm.doExit nr current s = .ok s') :
    s'.live nr = none ∧ (Effect.clear nr).Step s.view s'.view := by
  obtain ⟨held, hc, -⟩ := h.pages
  exact h.doExit_clears hlive hc (fun y _ => rfl) hexit

theorem Sys.Inv.execve_clears (h : s.Inv bounds lost) (hlive : s.live nr = some current)
    {aText aData inode : ℕ} (hsize : aText + aData ≤ 0x3000000)
    (hexec : Mm.doExecve nr aText aData inode current s = .ok s') :
    (Effect.clear nr).Step s.view s'.view := by
  obtain ⟨ht, hpos, -⟩ := Sys.live_eq_some.1 hlive
  have hok := h.tasks nr current ht
  obtain ⟨held, hc, -⟩ := h.pages
  obtain ⟨s₁, hexec₁, h'⟩ := h.doExecve hlive hsize inode
  cases hexec.symm.trans hexec₁
  obtain ⟨m', hfree, hs'⟩ := bind_eq_ok hexec
  cases hs'
  obtain ⟨m₁, hfree₁, -, hdir⟩ := freeSegments_spec hc hpos hok
  cases hfree.symm.trans hfree₁
  funext b
  by_cases hb : b = nr
  · subst hb
    rw [Function.update_self]
    refine h'.view_of_no_dirs fun d hd => ?_
    -- a table of the task would be left although its segment is freed
    by_contra hno
    obtain ⟨p, hp⟩ := Option.ne_none_iff_exists'.1 hno
    obtain ⟨-, hne, -⟩ := h.owned_freed hlive hdir hp
    exact hne hd
  · rw [Function.update_of_ne hb]
    refine h.view_frame (Sys.live_update_of_ne hb) fun y hy => ?_
    exact freeSegments_own hc hpos hok hfree fun heq => hb (hy.symm.trans heq)

/-! ## Faults -/

/-- What a fault leaves when memory runs out reads as before. -/
def OomKeeps (m : Memory) : Outcome → Prop
  | .oom m' => ownByteAt m' = ownByteAt m
  | _ => True

/-- The page that was handed out for the fault is given back. -/
theorem Consistent.freeAndOom_keeps {m m₁ : Memory} {held : List ℕ} {p : ℕ}
    (hc : Consistent bounds m held) (hp : Handed m m₁ p) (content : ℕ → UInt8) :
    OomKeeps m (freeAndOom p { m₁ with bytes := Function.update m₁.bytes p content }) := by
  unfold freeAndOom
  split
  next m' hfree =>
    refine (freePage_own hfree).trans (funext fun y => ownByteAt_of_frame ?_ fun e he => ?_)
    · change (entryAt m₁ y).map Entry.frame = _
      rw [hp.entryAt]
    · have hused := hc.entry_used he
      change Function.update m₁.bytes p content e.frame = _
      rw [Function.update_of_ne (hp.ne_of_used hused), hp.keepsUsed _ hused]
  next => trivial

theorem Consistent.getEmptyPage_keeps {m : Memory} {held : List ℕ} {address : ℕ}
    (hc : Consistent bounds m held) : OomKeeps m (getEmptyPage address m) := by
  unfold getEmptyPage
  split
  next => rfl
  next p m₁ hget =>
    split
    next => trivial
    next =>
      have hkeeps := hc.freeAndOom_keeps (hc.handed hget) (m₁.bytes p)
      rw [Function.update_eq_self] at hkeeps
      exact hkeeps

theorem Consistent.doNoPage_keeps {held : List ℕ} (hc : Consistent bounds s.mem held) (iCount : ℕ)
    (content : ℕ → UInt8) (x : ℕ) :
    OomKeeps s.mem (doNoPage s nr current iCount content x) := by
  unfold doNoPage
  dsimp only
  split
  next => exact hc.getEmptyPage_keeps
  next =>
    split
    next => trivial
    next => rfl
    next => trivial
    next =>
      split
      next => rfl
      next p m₁ hget =>
        split
        next => trivial
        next => exact hc.freeAndOom_keeps (hc.handed hget) _

/-- The outcome of a function that maps a page for a task is a step of the
abstract machine. -/
theorem Sys.Inv.settle_loads (h : s.Inv bounds lost) (hlive : s.live nr = some current)
    {l : List ℕ} {outcome : Outcome}
    (hdone : ∀ m, outcome = .done m → Loads nr s.mem m)
    (hoom : ∀ m, outcome = .oom m → Consistent bounds m l ∧ Loads nr s.mem m)
    (hsettle : s.settle nr current outcome = .ok s') :
    (s'.faulted nr (.load nr)).Step s.view s'.view := by
  cases outcome with
  | done m =>
      cases hsettle
      rw [Sys.faulted, show Sys.live { s with mem := m } nr = some current from hlive,
        if_pos (by rfl)]
      exact (hdone m rfl).step h hlive
  | oom m =>
      obtain ⟨hc, hloads⟩ := hoom m rfl
      obtain ⟨hdead, hstep⟩ := h.doExit_clears hlive hc hloads.others hsettle
      rw [Sys.faulted, hdead, if_neg (by simp)]
      exact hstep
  | panic message => cases hsettle

/-- A page is mapped for a fault, or memory runs out. -/
theorem Sys.Inv.mapped_loads (h : s.Inv bounds lost) (hlive : s.live nr = some current) {x : ℕ}
    (habsent : s.absent current x) {held : List ℕ} (hc : Consistent bounds s.mem held)
    {outcome : Outcome}
    (hmapped : Mapped bounds held s.mem (place nr x).1 (place nr x).2 outcome)
    (hkeeps : OomKeeps s.mem outcome) (hsettle : s.settle nr current outcome = .ok s') :
    (s'.faulted nr (.load nr)).Step s.view s'.view := by
  obtain ⟨hlookup, -⟩ := h.lookup hlive habsent.1 s.mem
  refine h.settle_loads (l := held) hlive (fun m hm => ?_) (fun m hm => ?_) hsettle
  · subst hm
    obtain ⟨-, -, hframes, -, hused⟩ := hmapped
    exact .of_mapped (h.place_div hlive habsent.1) (hlookup ▸ habsent.2) fun y hy =>
      hc.ownByteAt_mapped hframes hused hy
  · subst hm
    exact ⟨hmapped.1, .of_eq hkeeps⟩

/-- A fault for a page that is write-protected. -/
theorem Sys.Inv.unWp_loads (h : s.Inv bounds lost) (hlive : s.live nr = some current)
    {m : Memory} (hloads : Loads nr s.mem m) :
    (Sys.faulted { s with mem := m } nr (.load nr)).Step s.view (Sys.view { s with mem := m }) := by
  rw [Sys.faulted, show Sys.live { s with mem := m } nr = some current from hlive, if_pos (by rfl)]
  exact hloads.step h hlive

theorem Sys.Inv.exit_faulted (h : s.Inv bounds lost) (hlive : s.live nr = some current)
    (hexit : Mm.doExit nr current s = .ok s') (e : Effect ℕ ℕ UInt8) :
    (s'.faulted nr e).Step s.view s'.view := by
  obtain ⟨hdead, hstep⟩ := h.exit_clears hlive hexit
  rw [Sys.faulted, hdead, if_neg (by simp)]
  exact hstep

/-- Nothing happens on behalf of a task that does not run. -/
theorem Sys.faulted_of_dead (hdead : s.live nr = none) (e : Effect ℕ ℕ UInt8) :
    (s.faulted nr e).Step s.view s.view := by
  rw [Sys.faulted, hdead, if_neg (by simp)]
  exact (Function.update_eq_self_iff.2 (Sys.view_of_dead hdead).symm).symm

theorem Sys.faulted_self (hlive : s.live nr = some current) :
    (s.faulted nr (.load nr)).Step s.view s.view := by
  rw [Sys.faulted, hlive, if_pos (by rfl)]
  exact ⟨fun b _ => rfl, fun x y _ hy => hy⟩

/-! ## Writes -/

/-- A byte is written: the others of its page stay if they were there, and those
of other pages are as before. -/
structure OwnStored (m m' : Memory) (y : Fin 1024 × Fin 1024) (o : ℕ) (v : UInt8) : Prop where
  self : ownByteAt m' y o = some v
  kept : ∀ o' w, o' ≠ o → ownByteAt m y o' = some w → ownByteAt m' y o' = some w
  others : ∀ z, z ≠ y → ownByteAt m' z = ownByteAt m z

section Stores

variable {m m' : Memory} {held : List ℕ} {address t : ℕ} {d i : Fin 1024} {e : Entry}

/-- A page that can be written has no other entry. -/
theorem store_own (hc : Consistent bounds m held) (hd : dirIndex address = d.val)
    (hi : tableIndex address = i.val) (he : entryAt m (d, i) = some e) (hw : e.writable)
    (v : UInt8) : OwnStored m (m.store address v) (d, i) (address % PAGE_SIZE) v := by
  obtain ⟨hentry, hbytes⟩ := store_eq hc hd hi he v
  have hlow : LOW_MEM ≤ e.frame := (hc.writable _ _ he hw).1
  have he' : entryAt (m.store address v) (d, i) = some { e with dirty := true } := by
    rw [hentry, Function.update_self]
  refine ⟨ownByteAt_eq_some.2 ⟨_, he', hlow, ?_⟩, fun o' w ho hv => ?_, fun z hz => ?_⟩
  · rw [hbytes, Function.update_self, Function.update_self]
  · obtain ⟨e₁, he₁, -, hv⟩ := ownByteAt_eq_some.1 hv
    cases he.symm.trans he₁
    refine ownByteAt_eq_some.2 ⟨_, he', hlow, ?_⟩
    rw [hbytes, Function.update_self, Function.update_of_ne ho, hv]
  · refine ownByteAt_of_frame (by rw [hentry, Function.update_of_ne hz]) fun e₁ he₁ => ?_
    rw [hbytes, Function.update_of_ne]
    exact fun heq => hz (Sum.inr.inj (hc.writable_unique he hw (heq ▸ refOf_entry he₁)))

/-- The page that is made writable reads as before, on its place or in a copy. -/
theorem unWpPage_own (hc : Consistent bounds m held) (hd : dirRef m d = some t)
    (he : entryAt m (d, i) = some e) (hwp : unWpPage t i m = some m') :
    (∀ o v, ownByteAt m (d, i) o = some v → ownByteAt m' (d, i) o = some v) ∧
      ∀ y, y ≠ (d, i) → ownByteAt m' y = ownByteAt m y := by
  obtain ⟨hc', -, e', hw, hentry, hbytes⟩ := unWpPage_spec hc hd he hwp
  have he' : entryAt m' (d, i) = some e' := by rw [hentry, Function.update_self]
  refine ⟨fun o v hv => ?_, fun y hy => ?_⟩
  · obtain ⟨e₁, he₁, -, hv⟩ := ownByteAt_eq_some.1 hv
    cases he.symm.trans he₁
    refine ownByteAt_eq_some.2 ⟨e', he', (hc'.writable _ _ he' hw).1, ?_⟩
    rcases hbytes with ⟨hframe, hbytes⟩ | ⟨-, hbytes⟩
    · rw [hframe, hbytes, hv]
    · rw [hbytes, Function.update_self, hv]
  · refine ownByteAt_of_frame (by rw [hentry, Function.update_of_ne hy]) fun e₁ he₁ => ?_
    rcases hbytes with ⟨-, hbytes⟩ | ⟨hnew, hbytes⟩
    · rw [hbytes]
    · rw [hbytes, Function.update_of_ne (hnew y e₁ he₁)]

theorem storePresent_own (hc : Consistent bounds m held) (hd : dirIndex address = d.val)
    (hi : tableIndex address = i.val) (hd4 : 4 ≤ d.val) (he : entryAt m (d, i) = some e)
    {v : UInt8} (hstore : storePresent address v m = .done m') :
    OwnStored m m' (d, i) (address % PAGE_SIZE) v := by
  unfold storePresent at hstore
  rw [lookup_eq_entryAt hd hi hd4, he] at hstore
  dsimp only at hstore
  split at hstore
  next hw =>
    cases hstore
    exact store_own hc hd hi he hw v
  next =>
    obtain ⟨t, hdir, -, -⟩ := entryAt_eq_some.1 he
    rw [doWpPage, hd, hi, (dirRef_eq_some.1 hdir).2.2] at hstore
    split at hstore
    next => cases hstore
    next m₁ hwp =>
      cases hstore
      obtain ⟨hc₁, -, -, e', he', hw'⟩ := unWpPage_bytes hc hdir he hwp
      obtain ⟨hkept, hothers⟩ := unWpPage_own hc hdir he hwp
      have hstored := store_own hc₁ hd hi he' hw' v
      exact ⟨hstored.self, fun o w ho hv => hstored.kept o w ho (hkept o w hv),
        fun z hz => (hstored.others z hz).trans (hothers z hz)⟩

end Stores

/-- A write of a task, with its faults. -/
theorem Sys.Inv.userWrite_own (h : s.Inv bounds lost) (hlive : s.live nr = some current) {x : ℕ}
    (hx : x < current.dataLimit) {held : List ℕ} (hc : Consistent bounds s.mem held) {iCount : ℕ}
    {content : ℕ → UInt8} {v : UInt8} {m : Memory}
    (hwrite : Mm.userWrite s nr current iCount content x v = .done m) :
    OwnStored s.mem m (place nr x) ((current.startCode + x) % PAGE_SIZE) v := by
  obtain ⟨hlookup, hd, hi, hd4, -⟩ := h.lookup hlive hx s.mem
  unfold Mm.userWrite at hwrite
  split at hwrite
  next hsome =>
    rw [hlookup] at hsome
    obtain ⟨e, he⟩ := Option.isSome_iff_exists.1 hsome
    exact storePresent_own hc hd hi hd4 he hwrite
  next hno =>
    have hnone : s.mem.lookup (current.startCode + x) = none := by simpa using hno
    have hmapped := h.doNoPage hlive ⟨hx, hnone⟩ hc iCount content
    split at hwrite
    next m₁ hdone =>
      rw [hdone] at hmapped
      obtain ⟨hc₁, -, hframes, hpresent, hkeeps⟩ := hmapped
      obtain ⟨e, he⟩ := Option.ne_none_iff_exists'.1 hpresent
      have hstored := storePresent_own hc₁ hd hi hd4 he hwrite
      refine ⟨hstored.self, fun o w _ hv => ?_, fun z hz => ?_⟩
      · rw [ownByteAt_of_none (hlookup ▸ hnone)] at hv
        cases hv
      · exact (hstored.others z hz).trans (hc.ownByteAt_mapped hframes hkeeps hz)
    next houtcome => exact absurd hwrite (houtcome m)

/-- A place and an offset belong to one address of a task. -/
theorem Sys.Inv.place_inj (h : s.Inv bounds lost) (hlive : s.live nr = some t) {x z : ℕ}
    (hx : x < t.dataLimit) (hz : z < t.dataLimit) (hplace : place nr z = place nr x)
    (hoffset : z % PAGE_SIZE = x % PAGE_SIZE) : z = x := by
  obtain ⟨ht, -, -⟩ := Sys.live_eq_some.1 hlive
  have hok := h.tasks nr t ht
  have hlt : nr < 64 := hok.lt
  have hx' : x < 2 ^ 26 := hx.trans_le hok.dataLimit
  have hz' : z < 2 ^ 26 := hz.trans_le hok.dataLimit
  have hdir := place_dir hlt hx'
  have hdir' := place_dir hlt hz'
  have htable : (place nr z).2.val = (place nr x).2.val := by rw [hplace]
  rw [← hplace, hdir'] at hdir
  simp only [place] at htable
  unfold PAGE_SIZE at hoffset
  omega

/-- When memory runs out the other tasks read as before. -/
theorem Sys.Inv.userWrite_oom (h : s.Inv bounds lost) (hlive : s.live nr = some current) {x : ℕ}
    (hx : x < current.dataLimit) {held : List ℕ} (hc : Consistent bounds s.mem held) {iCount : ℕ}
    {content : ℕ → UInt8} {v : UInt8} {m : Memory}
    (hwrite : Mm.userWrite s nr current iCount content x v = .oom m) {y : Fin 1024 × Fin 1024}
    (hy : y.1.val / 16 ≠ nr) : ownByteAt m y = ownByteAt s.mem y := by
  obtain ⟨hlookup, hd, hi, hd4, -⟩ := h.lookup hlive hx s.mem
  have hstore : ∀ m₁, Consistent bounds m₁ held → entryAt m₁ (place nr x) ≠ none →
      storePresent (current.startCode + x) v m₁ = .oom m → m = m₁ := by
    intro m₁ hc₁ hpresent hoom
    obtain ⟨e, he⟩ := Option.ne_none_iff_exists'.1 hpresent
    have hstored := storePresent_spec hc₁ hd hi hd4 he v
    rw [hoom] at hstored
    exact hstored
  unfold Mm.userWrite at hwrite
  split at hwrite
  next hsome =>
    rw [hlookup] at hsome
    rw [hstore s.mem hc (Option.isSome_iff_ne_none.1 hsome) hwrite]
  next hno =>
    have hnone : s.mem.lookup (current.startCode + x) = none := by simpa using hno
    have hmapped := h.doNoPage hlive ⟨hx, hnone⟩ hc iCount content
    split at hwrite
    next m₁ hdone =>
      rw [hdone] at hmapped
      obtain ⟨hc₁, -, hframes, hpresent, hkeeps⟩ := hmapped
      rw [hstore m₁ hc₁ hpresent hwrite]
      refine hc.ownByteAt_mapped hframes hkeeps ?_
      rintro rfl
      exact hy (h.place_div hlive hx)
    next =>
      have hkeeps : OomKeeps s.mem (Mm.doNoPage s nr current iCount content x) :=
        hc.doNoPage_keeps iCount content x
      rw [hwrite] at hkeeps
      exact congrFun hkeeps y

theorem Sys.Inv.write_step (h : s.Inv bounds lost) (hlive : s.live nr = some current) {x : ℕ}
    (hx : x < current.dataLimit) {iCount : ℕ} {content : ℕ → UInt8} {v : UInt8}
    (hsettle : s.settle nr current (Mm.userWrite s nr current iCount content x v) = .ok s') :
    (s'.faulted nr (.write nr x v)).Step s.view s'.view := by
  obtain ⟨held, hc, -⟩ := h.pages
  have hwritten := h.userWrite hlive hx hc iCount content v
  cases houtcome : Mm.userWrite s nr current iCount content x v with
  | panic message =>
      rw [houtcome] at hwritten
      exact hwritten.elim
  | oom m =>
      rw [houtcome] at hwritten hsettle
      obtain ⟨hdead, hstep⟩ := h.doExit_clears hlive hwritten.1
        (fun y hy => h.userWrite_oom hlive hx hc houtcome hy) hsettle
      rw [Sys.faulted, hdead, if_neg (by simp)]
      exact hstep
  | done m =>
      rw [houtcome] at hsettle
      cases hsettle
      have hstored := h.userWrite_own hlive hx hc houtcome
      have hoffset : (current.startCode + x) % PAGE_SIZE = x % PAGE_SIZE := by
        obtain ⟨ht, -, -⟩ := Sys.live_eq_some.1 hlive
        rw [(h.tasks nr current ht).startCode]
        unfold TASK_SIZE PAGE_SIZE
        omega
      rw [hoffset] at hstored
      have hview : ∀ z, z < current.dataLimit → Sys.view { s with mem := m } nr z =
          ownByteAt m (place nr z) (z % PAGE_SIZE) := by
        intro z hz
        rw [Sys.view, show Sys.live { s with mem := m } nr = some current from hlive,
          Option.bind_some, if_pos hz, h.readOwn_eq hlive hz]
      rw [Sys.faulted, show Sys.live { s with mem := m } nr = some current from hlive,
        if_pos (by rfl)]
      refine ⟨(hview x hx).trans hstored.self, fun b hb => h.view_frame rfl fun y hy => ?_,
        fun z w hz hw => ?_⟩
      · refine hstored.others y ?_
        rintro rfl
        exact hb (hy.symm.trans (h.place_div hlive hx))
      · rw [h.view_eq hlive] at hw
        split at hw
        next hlimit =>
          rw [hview z hlimit]
          by_cases hplace : place nr z = place nr x
          · rw [hplace] at hw ⊢
            exact hstored.kept _ w (fun ho => hz (h.place_inj hlive hx hlimit hplace ho)) hw
          · rw [hstored.others _ hplace, hw]
        next => cases hw

/-! ## `fork` -/

/-- The tables of the child are copied: each of its pages reads as that of the
parent, and all others as before.  From the first task no page is read. -/
theorem copyPageTables_own {m m' : Memory} {held : List ℕ} (hc : Consistent bounds m held)
    (hok : TaskOk nr current) {child : ℕ} (hpos : 1 ≤ child) (hlt : child < 64) (hne : child ≠ nr)
    (hfree : ∀ y : Fin 1024, y.val / 16 = child → dirRef m y = none) {ok : Bool}
    (hcopy : copyPageTables current.startCode (child * TASK_SIZE) current.dataLimit m =
      .ok (ok, m')) :
    (∀ y, y.1.val / 16 ≠ child → ownByteAt m' y = ownByteAt m y) ∧
      (ok = true → ∀ x, x < current.dataLimit → ownByteAt m' (place child x) =
        if nr = 0 then fun _ => none else ownByteAt m (place nr x)) := by
  have hle := dirCount_le hok.dataLimit
  have hnr : nr < 64 := hok.lt
  unfold copyPageTables at hcopy
  rw [hok.startCode, if_neg (by unfold TASK_SIZE; omega), mul_taskSize_div child] at hcopy
  by_cases hzero : nr = 0
  · -- the first task copies the part of the kernel's table that it may use
    subst hzero
    have hone : dirCount 0xA0000 = 1 := by
      rw [dirCount_eq (by omega)]
      omega
    rw [hok.first rfl, hone, if_pos (Nat.zero_mul _), Nat.zero_mul, Nat.zero_div] at hcopy
    have hsame : ownByteAt m' = ownByteAt m :=
      @copyDirs_kernel_own _ _ _ ⟨16 * child, by omega⟩ hc (by dsimp only; omega)
        (hfree _ (by dsimp only; omega)) _ _ hcopy
    refine ⟨fun y _ => congrFun hsame y, fun _ x hx => ?_⟩
    rw [if_pos rfl, hsame, ownByteAt_of_none (entryAt_of_dirRef_none (hfree _ ?_))]
    have hx' : x < 2 ^ 26 := hx.trans_le hok.dataLimit
    rw [place_dir hlt hx']
    omega
  · rw [if_neg (by unfold TASK_SIZE; omega), mul_taskSize_div] at hcopy
    obtain ⟨hother, hcopied⟩ := copyDirs_own hc (by omega) (by omega) (by omega) (by omega)
      (by omega) (by omega) (fun y hy hy' => hfree y (by omega)) hcopy
    refine ⟨fun y hy => hother y (by omega), fun hyes x hx => ?_⟩
    rw [if_neg hzero]
    have hx' : x < 2 ^ 26 := hx.trans_le hok.dataLimit
    have hcount := lt_dirCount hok.dataLimit hx
    have hdir := place_dir hnr hx'
    have hdir' := place_dir hlt hx'
    exact hcopied hyes (place child x).1 (place nr x).1 (by omega) (by omega) (by omega) _

theorem copyMem_own {m m' : Memory} {held : List ℕ} (hc : Consistent bounds m held)
    (hok : TaskOk nr current) {child : ℕ} (hpos : 1 ≤ child) (hlt : child < 64) (hne : child ≠ nr)
    (hfree : ∀ y : Fin 1024, y.val / 16 = child → dirRef m y = none) {ok : Bool}
    (hcopy : copyMem child current m = .ok (ok, m')) :
    (∀ y, y.1.val / 16 ≠ child → ownByteAt m' y = ownByteAt m y) ∧
      (ok = true → ∀ x, x < current.dataLimit → ownByteAt m' (place child x) =
        if nr = 0 then fun _ => none else ownByteAt m (place nr x)) := by
  unfold copyMem at hcopy
  rw [if_neg (Nat.not_lt.2 hok.codeLimit)] at hcopy
  obtain ⟨⟨ok₁, m₁⟩, hcopy₁, hrest⟩ := bind_eq_ok hcopy
  obtain ⟨ok₂, m₂, hcopy₂, hc₁, -⟩ := copyPageTables_spec hc hok hpos hlt hne hfree
  cases hcopy₁.symm.trans hcopy₂
  obtain ⟨hother, hcopied⟩ := copyPageTables_own hc hok hpos hlt hne hfree hcopy₁
  cases ok₁ with
  | true =>
      cases hrest
      exact ⟨hother, hcopied⟩
  | false =>
      obtain ⟨m₃, hfreed, hpair⟩ := bind_eq_ok hrest
      cases hpair
      obtain ⟨-, hsame⟩ := freePageTables_own hc₁ hpos hlt hok.dataLimit hfreed
      exact ⟨fun y hy => (hsame y hy).trans (hother y hy), fun hno => by cases hno⟩

theorem Sys.Inv.fork_step (h : s.Inv bounds lost) (ht : s.task nr = some current) {child : ℕ}
    (hz : current.zombie = false) (hpos : 1 ≤ child) (hlt : child < NR_TASKS)
    (hnone : s.task child = none) {pid : ℤ}
    (hcopy : Mm.copyProcess child pid current s = .ok s') :
    (Action.effect (.fork nr child pid) s s').Step s.view s'.view := by
  obtain ⟨held, hc, -⟩ := h.pages
  have hok := h.tasks nr current ht
  have hne : child ≠ nr := by
    rintro rfl
    rw [ht] at hnone
    cases hnone
  have hdead : s.live child = none := by
    rw [Sys.live, hnone, Option.bind_none]
  obtain ⟨s₁, hcopy₁, h'⟩ := h.copyProcess ht hpos hlt hnone pid
  cases hcopy.symm.trans hcopy₁
  unfold Mm.copyProcess at hcopy
  cases hget : getFreePage s.mem with
  | none =>
      rw [hget] at hcopy
      cases hcopy
      rw [Action.effect, if_neg (by simp [hnone])]
      rfl
  | some handed =>
      obtain ⟨p, m⟩ := handed
      rw [hget] at hcopy
      have hp := hc.handed hget
      obtain ⟨⟨ok, m₁⟩, hmem, hrest⟩ := bind_eq_ok hcopy
      obtain ⟨hother, hcopied⟩ := copyMem_own (hc.alloc hp) hok hpos hlt hne
        (fun y hy => by rw [hp.dirRef, h.dirRef_none hnone hy]) hmem
      rw [hc.ownByteAt_handed hp] at hother hcopied
      cases ok with
      | false =>
          obtain ⟨m₂, hpage, hs'⟩ := bind_eq_ok hrest
          cases hs'
          rw [Action.effect, if_neg (by simp [hnone])]
          funext b
          by_cases hb : b = child
          · subst hb
            rw [Sys.view_of_dead hdead]
            exact Sys.view_of_dead hdead
          · refine h.view_frame rfl fun y hy => ?_
            exact (congrFun (freePage_own hpage) y).trans
              (hother y fun heq => hb (hy.symm.trans heq))
      | true =>
          cases hrest
          have hframe : ∀ (t₁ : Task) (b : ℕ), b ≠ child → Sys.view
              (Sys.mk m₁ (Function.update s.task child (some t₁)) s.kernel s.shm) b = s.view b :=
            fun t₁ b hb => h.view_frame (Sys.live_update_of_ne hb) fun y hy =>
              hother y fun heq => hb (hy.symm.trans heq)
          rw [Action.effect, if_pos (by simp [hnone])]
          funext b
          by_cases hb : b = child
          · subst hb
            rw [Function.update_self]
            funext x
            rw [h'.view_eq (Sys.live_eq_some.2 ⟨Function.update_self .., hpos, rfl⟩)]
            dsimp only
            by_cases hnr : nr = 0
            · rw [Sys.view_of_dead (s.live_first hnr)]
              split
              next hx => rw [hcopied rfl x hx, if_pos hnr]
              next => rfl
            · rw [h.view_eq (Sys.live_eq_some.2 ⟨ht, Nat.pos_of_ne_zero hnr, hz⟩)]
              split
              next hx => rw [hcopied rfl x hx, if_neg hnr]
              next => rfl
          · rw [Function.update_of_ne hb]
            exact hframe _ b hb

end Views

end MyJavaExample.Mm
