import MyJavaExample.Mm.PageCounts

/-!
# Isolation of the tasks

A write of a task changes one byte of what the tasks read.  A page that is
written has one entry: a page with more entries is write-protected, and the
fault copies it first.
-/

namespace MyJavaExample.Mm

section Writes

variable {bounds : Bounds} {lost : List ℕ} {s : Sys} {nr : ℕ} {current : Task}
variable {m : Memory} {held : List ℕ} {address : ℕ} {d i : Fin 1024}

/-- The byte at an offset of the page of an entry. -/
def byteAt (m : Memory) (x : Fin 1024 × Fin 1024) (o : ℕ) : Option UInt8 :=
  (entryAt m x).map fun e => m.bytes e.frame o

/-- What a write to a page that is there leaves: one byte changes. -/
def Stored (bounds : Bounds) (held : List ℕ) (m : Memory) (x : Fin 1024 × Fin 1024) (o : ℕ) (v : UInt8) :
    Outcome → Prop
  | .done m' => Consistent bounds m' held ∧ dirRef m' = dirRef m ∧ byteAt m' x o = some v ∧
      ∀ y o', (y, o') ≠ (x, o) → byteAt m' y o' = byteAt m y o'
  | .oom m' => m' = m
  | .panic _ => False

/-- A store only sets a bit in the entry. -/
theorem Consistent.store (hc : Consistent bounds m held) (hd : dirIndex address = d.val)
    (hi : tableIndex address = i.val) {e : Entry} (he : entryAt m (d, i) = some e) (v : UInt8) :
    Consistent bounds (m.store address v) held := by
  obtain ⟨t, hdir, hpresent, rfl⟩ := entryAt_eq_some.1 he
  dsimp only at hdir hpresent he
  have hframe : (m.pgDir d).frame = t := (dirRef_eq_some.1 hdir).2.2
  have hflag : Consistent bounds (m.setEntry t i { m.table t i with dirty := true }) held :=
    hc.reflag hdir he hpresent rfl fun hw => hc.writable _ _ he hw
  rw [Memory.store, hd, hi, hframe]
  exact hflag.of_eq rfl rfl rfl rfl rfl rfl

/-- A store sets a bit of one entry and changes one byte of its page. -/
theorem store_eq (hc : Consistent bounds m held) (hd : dirIndex address = d.val)
    (hi : tableIndex address = i.val) {e : Entry} (he : entryAt m (d, i) = some e) (v : UInt8) :
    entryAt (m.store address v) =
        Function.update (entryAt m) (d, i) (some { e with dirty := true }) ∧
      (m.store address v).bytes = Function.update m.bytes e.frame
        (Function.update (m.bytes e.frame) (address % PAGE_SIZE) v) := by
  obtain ⟨t, hdir, hpresent, rfl⟩ := entryAt_eq_some.1 he
  dsimp only at hdir hpresent he ⊢
  have hframe : (m.pgDir d).frame = t := (dirRef_eq_some.1 hdir).2.2
  rw [Memory.store, hd, hi, hframe]
  refine ⟨?_, rfl⟩
  exact (entryAt_setEntry hc hdir { m.table t i with dirty := true }).trans
    (by rw [Entry.get?, if_pos hpresent])

/-- The write itself. -/
theorem store_spec (hc : Consistent bounds m held) (hd : dirIndex address = d.val)
    (hi : tableIndex address = i.val) {e : Entry} (he : entryAt m (d, i) = some e) (hw : e.writable) (v : UInt8) :
    Stored bounds held m (d, i) (address % PAGE_SIZE) v (.done (m.store address v)) := by
  obtain ⟨hentry, hbytes⟩ := store_eq hc hd hi he v
  refine ⟨hc.store hd hi he v, ?_, ?_, ?_⟩
  · rw [Memory.store]
    rfl
  · rw [byteAt, hentry, hbytes, Function.update_self, Option.map_some, Function.update_self,
      Function.update_self]
  · intro y o' hne
    by_cases hy : y = (d, i)
    · subst hy
      have ho : o' ≠ address % PAGE_SIZE := fun ho => hne (by rw [ho])
      rw [byteAt, byteAt, hentry, hbytes, Function.update_self, he, Option.map_some,
        Option.map_some, Function.update_self, Function.update_of_ne ho]
    · rw [byteAt, byteAt, hentry, hbytes, Function.update_of_ne hy]
      -- a writable page has no other entry
      cases hey : entryAt m y with
      | none => rfl
      | some e' =>
          have hframe' : e'.frame ≠ e.frame := by
            intro heq
            exact hy (Sum.inr.inj (hc.writable_unique he hw (heq ▸ refOf_entry hey)))
          rw [Option.map_some, Option.map_some, Function.update_of_ne hframe']

/-- The fault for a page that is write-protected changes no byte. -/
theorem unWpPage_bytes (hc : Consistent bounds m held) {t : ℕ} (hd : dirRef m d = some t) {e : Entry}
    (he : entryAt m (d, i) = some e) {m' : Memory} (hwp : unWpPage t i m = some m') :
    Consistent bounds m' held ∧ dirRef m' = dirRef m ∧ byteAt m' = byteAt m ∧
      ∃ e', entryAt m' (d, i) = some e' ∧ e'.writable := by
  obtain ⟨hc', hdir, e', hw, hentry, hbytes⟩ := unWpPage_spec hc hd he hwp
  refine ⟨hc', hdir, ?_, e', by rw [hentry, Function.update_self], hw⟩
  funext y o
  by_cases hy : y = (d, i)
  · subst hy
    rw [byteAt, byteAt, hentry, Function.update_self, he, Option.map_some, Option.map_some]
    rcases hbytes with ⟨hframe, hbytes⟩ | ⟨-, hbytes⟩
    · rw [hframe, hbytes]
    · rw [hbytes, Function.update_self]
  · rw [byteAt, byteAt, hentry, Function.update_of_ne hy]
    cases hey : entryAt m y with
    | none => rfl
    | some e₁ =>
        rw [Option.map_some, Option.map_some]
        rcases hbytes with ⟨-, hbytes⟩ | ⟨hnew, hbytes⟩
        · rw [hbytes]
        · rw [hbytes, Function.update_of_ne (hnew y e₁ hey)]

theorem storePresent_spec (hc : Consistent bounds m held) (hd : dirIndex address = d.val)
    (hi : tableIndex address = i.val) (hd4 : 4 ≤ d.val) {e : Entry}
    (he : entryAt m (d, i) = some e) (v : UInt8) :
    Stored bounds held m (d, i) (address % PAGE_SIZE) v (storePresent address v m) := by
  unfold storePresent
  rw [lookup_eq_entryAt hd hi hd4, he]
  dsimp only
  split
  next hw => exact store_spec hc hd hi he hw v
  next hno =>
    obtain ⟨t, hdir, -, -⟩ := entryAt_eq_some.1 he
    have hwp : doWpPage address m = unWpPage t i m := by
      rw [doWpPage, hd, hi, (dirRef_eq_some.1 hdir).2.2]
    rw [hwp]
    split
    next => rfl
    next m' hm' =>
      obtain ⟨hc', hdir', hbytes, e', he', hw'⟩ := unWpPage_bytes hc hdir he hm'
      obtain ⟨h₁, h₂, h₃, h₄⟩ := store_spec hc' hd hi he' hw' v
      exact ⟨h₁, h₂.trans hdir', h₃, fun y o hy => by rw [h₄ y o hy, hbytes]⟩

/-- What a write leaves.  A byte that was there before stays, except for the one
that is written, and no page appears except for the page of that byte. -/
def Written (bounds : Bounds) (held : List ℕ) (m : Memory) (x : Fin 1024 × Fin 1024) (o : ℕ) (v : UInt8) :
    Outcome → Prop
  | .done m' => Consistent bounds m' held ∧ (∀ y, y ≠ x.1 → dirRef m' y = dirRef m y) ∧
      byteAt m' x o = some v ∧ ∀ y o', (y, o') ≠ (x, o) → y ≠ x ∨ entryAt m x ≠ none →
        byteAt m' y o' = byteAt m y o'
  | .oom m' => Consistent bounds m' held ∧ ∀ y, y ≠ x.1 → dirRef m' y = dirRef m y
  | .panic _ => False

theorem Written.settled {x : Fin 1024 × Fin 1024} {o : ℕ} {v : UInt8} {outcome : Outcome}
    (h : Written bounds held m x o v outcome) : Settled bounds held m x.1 outcome := by
  cases outcome with
  | done m' => exact ⟨h.1, h.2.1⟩
  | oom m' => exact h
  | panic message => exact h

/-- Mapping a page changes no byte of another page. -/
theorem Consistent.byteAt_mapped (hc : Consistent bounds m held) {m' : Memory}
    (hframes : SameFrames m m' (d, i)) (hkeeps : KeepsUsed m m') {y : Fin 1024 × Fin 1024}
    (hy : y ≠ (d, i)) (o : ℕ) : byteAt m' y o = byteAt m y o := by
  have hframe := hframes y hy
  rw [byteAt, byteAt]
  cases he : entryAt m y with
  | none =>
      rw [hframes.none hy he]
      rfl
  | some e =>
      rw [he, Option.map_some] at hframe
      obtain ⟨e', he', hframe'⟩ := Option.map_eq_some_iff.1 hframe
      rw [he', Option.map_some, Option.map_some, hframe', hkeeps e.frame (hc.entry_used he)]

/-- A write of a task, with its faults. -/
theorem Sys.Inv.userWrite (h : s.Inv bounds lost) (hlive : s.live nr = some current) {x : ℕ}
    (hx : x < current.dataLimit) (hc : Consistent bounds s.mem held) (iCount : ℕ)
    (content : ℕ → UInt8) (v : UInt8) :
    Written bounds held s.mem (place nr x) ((current.startCode + x) % PAGE_SIZE) v
      (userWrite s nr current iCount content x v) := by
  obtain ⟨hlookup, hd, hi, hd4, -⟩ := h.lookup hlive hx s.mem
  unfold Mm.userWrite
  split
  next hsome =>
    rw [hlookup] at hsome
    obtain ⟨e, he⟩ := Option.isSome_iff_exists.1 hsome
    have hstored := storePresent_spec hc hd hi hd4 he v
    cases houtcome : storePresent (current.startCode + x) v s.mem with
    | done m' =>
        rw [houtcome] at hstored
        obtain ⟨h₁, h₂, h₃, h₄⟩ := hstored
        exact ⟨h₁, fun y _ => congrFun h₂ y, h₃, fun y o' hne _ => h₄ y o' hne⟩
    | oom m' =>
        rw [houtcome] at hstored
        rw [show m' = s.mem from hstored]
        exact ⟨hc, fun y _ => rfl⟩
    | panic message =>
        rw [houtcome] at hstored
        exact hstored.elim
  next hno =>
    have hnone : s.mem.lookup (current.startCode + x) = none := by simpa using hno
    have hmapped := h.doNoPage hlive ⟨hx, hnone⟩ hc iCount content
    cases houtcome : Mm.doNoPage s nr current iCount content x with
    | oom m' =>
        rw [houtcome] at hmapped
        exact ⟨hmapped.1, fun y _ => congrFun hmapped.2 y⟩
    | panic message =>
        rw [houtcome] at hmapped
        exact hmapped.elim
    | done m₁ =>
        rw [houtcome] at hmapped
        obtain ⟨hc₁, hdir₁, hframes, hpresent, hkeeps⟩ := hmapped
        obtain ⟨e, he⟩ := Option.ne_none_iff_exists'.1 hpresent
        have hstored := storePresent_spec hc₁ hd hi hd4 he v
        dsimp only
        cases houtcome₂ : storePresent (current.startCode + x) v m₁ with
        | done m' =>
            rw [houtcome₂] at hstored
            obtain ⟨h₁, h₂, h₃, h₄⟩ := hstored
            refine ⟨h₁, fun y hy => (congrFun h₂ y).trans (hdir₁ y hy), h₃, fun y o' hne hor => ?_⟩
            have hy : y ≠ place nr x := hor.resolve_right fun hno => hno (hlookup ▸ hnone)
            rw [h₄ y o' hne, hc.byteAt_mapped hframes hkeeps hy]
        | oom m' =>
            rw [houtcome₂] at hstored
            rw [show m' = m₁ from hstored]
            exact ⟨hc₁, hdir₁⟩
        | panic message =>
            rw [houtcome₂] at hstored
            exact hstored.elim

end Writes

end MyJavaExample.Mm
