import MyJavaExample.Exec.CopyStrings
import MyJavaExample.Lib.Outcome

/-!
# The strings of `execve` in their pages

`Copied` is the invariant of the copying: the bytes that are done lie from `p` on,
the pages from that of `p` on are there and no others, and each of them took one
call of `get_free_page`.  A byte that finds room keeps it, and a byte that finds
none is the one for which `page` is read outside its bounds.
-/

namespace MyJavaExample.Exec

open Lib

namespace Copy

/-- The byte at a position of the pages. -/
def byteAt (c : Copy) (q : ℕ) : Option UInt8 :=
  if h : q / PAGE_SIZE < MAX_ARG_PAGES then
    (c.page ⟨q / PAGE_SIZE, h⟩).map fun g => g.data (q % PAGE_SIZE)
  else none

variable {c : Copy} {i j : Fin MAX_ARG_PAGES} {b : UInt8} {q : ℕ}

theorem byteAt_of_page (hi : q / 4096 = i.val) :
    c.byteAt q = (c.page i).map fun g => g.data (q % 4096) := by
  have hlt : q / PAGE_SIZE < MAX_ARG_PAGES := by
    rw [show q / PAGE_SIZE = i.val from hi]
    exact i.isLt
  have heq : (⟨q / PAGE_SIZE, hlt⟩ : Fin MAX_ARG_PAGES) = i := Fin.ext hi
  rw [byteAt, dif_pos hlt, heq]
  rfl

/-! ## A page that comes in and a byte that is stored -/

theorem frame_store : ((c.store b).page j).map ArgPage.frame = (c.page j).map ArgPage.frame := by
  cases hp : c.pag with
  | none => simp [store, hp]
  | some i =>
      by_cases hj : j = i
      · subst hj
        cases hg : c.page j <;> simp [store, hp, hg]
      · simp [store, hp, hj]

theorem freed_store : (c.store b).freed = c.freed := by
  simp only [freed, frame_store]

theorem isSome_store : ((c.store b).page j).isSome = (c.page j).isSome := by
  have h : (((c.store b).page j).map ArgPage.frame).isSome =
      ((c.page j).map ArgPage.frame).isSome := by rw [frame_store]
  simpa using h

theorem byteAt_store_self (hp : c.pag = some i) (hg : (c.page i).isSome) (hq : q / 4096 = i.val)
    (ho : c.offset.toNat = q % 4096) : (c.store b).byteAt q = some b := by
  obtain ⟨g, hg⟩ := Option.isSome_iff_exists.mp hg
  rw [byteAt_of_page hq]
  simp [store, hp, hg, ho]

theorem byteAt_store_of_ne (hp : c.pag = some i)
    (hq : q / 4096 = i.val → c.offset.toNat ≠ q % 4096) : (c.store b).byteAt q = c.byteAt q := by
  by_cases hlt : q / 4096 < 32
  · rw [byteAt_of_page (i := ⟨q / 4096, hlt⟩) rfl, byteAt_of_page (i := ⟨q / 4096, hlt⟩) rfl]
    by_cases hi : q / 4096 = i.val
    · have heq : (⟨q / 4096, hlt⟩ : Fin MAX_ARG_PAGES) = i := Fin.ext hi
      rw [heq]
      cases hg : c.page i with
      | none => simp [store, hp, hg]
      | some g => simp [store, hp, hg, Function.update_of_ne (hq hi).symm]
    · have hne : (⟨q / 4096, hlt⟩ : Fin MAX_ARG_PAGES) ≠ i := fun h => hi (congrArg Fin.val h)
      simp [store, hp, hne]
  · have hout : ¬q / PAGE_SIZE < MAX_ARG_PAGES := hlt
    simp [byteAt, hout]

/-- A page more in `page` is a frame more to be given back. -/
theorem freed_update {c' : Copy} {g : ArgPage} (hi : c.page i = none)
    (hc : c'.page = Function.update c.page i (some g)) : c'.freed.Perm (g.frame :: c.freed) := by
  have hmem : i ∈ List.finRange MAX_ARG_PAGES := List.mem_finRange i
  have hsplit := List.perm_cons_erase hmem
  have hsame : ∀ j ∈ (List.finRange MAX_ARG_PAGES).erase i,
      (c'.page j).map ArgPage.frame = (c.page j).map ArgPage.frame := by
    intro j hj
    have hne : j ≠ i := ((List.nodup_finRange _).mem_erase_iff.mp hj).1
    rw [hc, Function.update_of_ne hne]
  have hbefore : c.freed.Perm
      (((List.finRange MAX_ARG_PAGES).erase i).filterMap fun j => (c.page j).map ArgPage.frame) := by
    simpa [freed, hi] using hsplit.filterMap fun j => (c.page j).map ArgPage.frame
  have hafter : c'.freed.Perm (g.frame ::
      ((List.finRange MAX_ARG_PAGES).erase i).filterMap fun j => (c'.page j).map ArgPage.frame) := by
    simpa [freed, hc] using hsplit.filterMap fun j => (c'.page j).map ArgPage.frame
  rw [List.filterMap_congr hsame] at hafter
  exact hafter.trans (hbefore.symm.cons _)

theorem byteAt_update {c' : Copy} {g : ArgPage} (hc : c'.page = Function.update c.page i (some g))
    (hq : q / 4096 ≠ i.val) : c'.byteAt q = c.byteAt q := by
  by_cases hlt : q / 4096 < 32
  · have hne : (⟨q / 4096, hlt⟩ : Fin MAX_ARG_PAGES) ≠ i := fun h => hq (congrArg Fin.val h)
    rw [byteAt_of_page (i := ⟨q / 4096, hlt⟩) rfl, byteAt_of_page (i := ⟨q / 4096, hlt⟩) rfl, hc,
      Function.update_of_ne hne]
  · have hout : ¬q / PAGE_SIZE < MAX_ARG_PAGES := hlt
    simp [byteAt, hout]

end Copy

/-! ## The invariant -/

section

variable (getFreePage : ℕ → Option ℕ)

/-- What holds of the pages while the last byte that has a page is at `low`. -/
structure Paged (low : ℕ) (c : Copy) : Prop where
  present : ∀ i, (c.page i).isSome ↔ low < 131068 ∧ low < (i.val + 1) * 4096
  requests : low = 131068 ∧ c.requests = 0 ∨ low < 131068 ∧ c.requests + low / 4096 = 32
  granted : ∀ k < c.requests, (getFreePage k).isSome
  freed : c.freed.Perm c.allocated

/-- The bytes `done` lie from `p` on, up to the end. -/
structure Copied (done : List UInt8) (c : Copy) : Prop where
  paged : Paged getFreePage c.p.toNat c
  p : c.p.toNat + done.length = 131068
  data : ∀ k < done.length, c.byteAt (c.p.toNat + k) = done[k]?
  /-- `pag` and `offset` are those of `p`, or they are looked up next time. -/
  cached : c.offset = 0 ∨ c.offset = (c.p.toNat % 4096 : ℕ) ∧ c.p.toNat < 131068 ∧
    ∃ i, c.pag = some i ∧ i.val = c.p.toNat / 4096

/-- `pag` and `offset` are those of `p`, where the next byte goes. -/
structure Located (done : List UInt8) (c : Copy) : Prop where
  paged : Paged getFreePage c.p.toNat c
  p : c.p.toNat + 1 + done.length = 131068
  data : ∀ k < done.length, c.byteAt (c.p.toNat + 1 + k) = done[k]?
  offset : c.offset = (c.p.toNat % 4096 : ℕ)
  pag : ∃ i, c.pag = some i ∧ i.val = c.p.toNat / 4096

/-- A call of `get_free_page` has failed, or the bytes `done` do not fit and all
pages are there. -/
def Stopped (done : List UInt8) : Stop → Prop
  | .zero c => c.freed.Perm c.allocated ∧ ∃ k < 32, getFreePage k = none
  | .outside => ARG_SIZE < done.length ∧ ∀ k < 32, (getFreePage k).isSome

end

section

variable {getFreePage : ℕ → Option ℕ} {c c' : Copy} {done bs : List UInt8} {b : UInt8}
  {low frame : ℕ} {i : Fin MAX_ARG_PAGES}

namespace Paged

/-- One byte down in the same page. -/
theorem down (h : Paged getFreePage (low + 1) c) (hlow : low + 1 < 131068)
    (hin : (low + 1) % 4096 ≠ 0) : Paged getFreePage low c where
  present i := by
    rw [h.present i]
    omega
  requests := by
    have := h.requests
    omega
  granted := h.granted
  freed := h.freed

/-- The page of a byte is not there only where the byte before is in another one. -/
theorem above (h : Paged getFreePage (low + 1) c) (hi : i.val = low / 4096) (hlow : low < 131068)
    (hnone : c.page i = none) : low + 1 = 131068 ∨ low + 1 = (i.val + 1) * 4096 := by
  have habove : ¬(low + 1 < 131068 ∧ low + 1 < (i.val + 1) * 4096) := by
    rw [← h.present i, hnone]
    simp
  omega

/-- One byte down into a page that was not there. -/
theorem add (h : Paged getFreePage (low + 1) c) (hi : i.val = low / 4096) (hlow : low < 131068)
    (hnone : c.page i = none) (hframe : getFreePage c.requests = some frame)
    (hpage : c'.page = Function.update c.page i (some ⟨frame, fun _ => 0⟩))
    (hallocated : c'.allocated = frame :: c.allocated) (hrequests : c'.requests = c.requests + 1) :
    Paged getFreePage low c' := by
  have habove := h.above hi hlow hnone
  have hreq := h.requests
  refine ⟨fun j => ?_, .inr ⟨hlow, by omega⟩, fun k hk => ?_, ?_⟩
  · rw [hpage]
    by_cases hj : j = i
    · subst hj
      simp only [Function.update_self, Option.isSome_some, true_iff]
      omega
    · have hne : j.val ≠ i.val := fun h => hj (Fin.ext h)
      have hj32 : j.val < 32 := j.isLt
      rw [Function.update_of_ne hj, h.present j]
      omega
  · rcases Nat.lt_succ_iff_lt_or_eq.mp (hrequests ▸ hk) with hlt | heq
    · exact h.granted k hlt
    · rw [heq, hframe]
      rfl
  · rw [hallocated]
    exact (Copy.freed_update hnone hpage).trans (h.freed.cons frame)

/-- The page that the next byte goes to is the first without a call of
`get_free_page`. -/
theorem requests_lt (h : Paged getFreePage (low + 1) c) (hi : i.val = low / 4096)
    (hlow : low < 131068) (hnone : c.page i = none) : c.requests < 32 := by
  have habove := h.above hi hlow hnone
  have hreq := h.requests
  omega

end Paged

theorem Copied.start : Copied getFreePage [] .start where
  paged :=
    { present := by simp [Copy.start]
      requests := .inl ⟨rfl, rfl⟩
      granted := by simp [Copy.start]
      freed := by simp [Copy.freed, Copy.start] }
  p := rfl
  data := by simp
  cached := .inl rfl

theorem Located.store (h : Located getFreePage done c) :
    Copied getFreePage (b :: done) (c.store b) := by
  obtain ⟨i, hpag, hi⟩ := h.pag
  have hlow := h.p
  have hp : (c.store b).p = c.p := by simp [Copy.store, hpag]
  have hrequests : (c.store b).requests = c.requests := by simp [Copy.store, hpag]
  have hallocated : (c.store b).allocated = c.allocated := by simp [Copy.store, hpag]
  have hoffset : (c.store b).offset = c.offset := by simp [Copy.store, hpag]
  have hpag' : (c.store b).pag = some i := by simp [Copy.store, hpag]
  have hpresent : (c.page i).isSome := (h.paged.present i).mpr ⟨by omega, by omega⟩
  have hnat : c.offset.toNat = c.p.toNat % 4096 := by rw [h.offset, Int.toNat_natCast]
  refine ⟨⟨?_, ?_, ?_, ?_⟩, ?_, ?_, ?_⟩
  · intro j
    rw [Copy.isSome_store, hp]
    exact h.paged.present j
  · rw [hp, hrequests]
    exact h.paged.requests
  · rw [hrequests]
    exact h.paged.granted
  · rw [Copy.freed_store, hallocated]
    exact h.paged.freed
  · rw [hp, List.length_cons]
    omega
  · intro k hk
    rw [hp]
    cases k with
    | zero => exact Copy.byteAt_store_self hpag hpresent hi.symm hnat
    | succ k =>
        rw [Copy.byteAt_store_of_ne hpag (by omega), List.getElem?_cons_succ, ← h.data k (by simpa using hk)]
        congr 1
        omega
  · rw [hp, hoffset, hpag']
    exact .inr ⟨h.offset, by omega, i, rfl, hi⟩

theorem lookup_ends (h : Paged getFreePage (c.p.toNat + 1) c)
    (hp : c.p.toNat + 1 + done.length = 131068)
    (hdata : ∀ k < done.length, c.byteAt (c.p.toNat + 1 + k) = done[k]?) :
    Ends (Located getFreePage done) (Stopped getFreePage bs) (c.lookup getFreePage) := by
  have hlt : c.p.toNat / PAGE_SIZE < MAX_ARG_PAGES := by
    simp only [PAGE_SIZE, MAX_ARG_PAGES]
    omega
  rw [Copy.lookup, dif_pos hlt]
  generalize hi : (⟨c.p.toNat / PAGE_SIZE, hlt⟩ : Fin MAX_ARG_PAGES) = i
  have hival : i.val = c.p.toNat / 4096 := by rw [← hi]; rfl
  cases hpage : c.page i with
  | some g =>
      have hhere := (h.present i).mp (by rw [hpage]; rfl)
      have hdown := h.down hhere.1 (by omega)
      simp only [hpage]
      exact ⟨⟨hdown.present, hdown.requests, hdown.granted, hdown.freed⟩, hp, hdata, rfl,
        i, rfl, hival⟩
  | none =>
      simp only [hpage]
      cases hframe : getFreePage c.requests with
      | none => exact ⟨h.freed, c.requests, h.requests_lt hival (by omega) hpage, hframe⟩
      | some frame =>
          refine ⟨h.add hival (by omega) hpage hframe rfl rfl rfl, hp, fun k hk => ?_, rfl,
            i, rfl, hival⟩
          have habove := h.above hival (by omega) hpage
          rw [← hdata k hk]
          exact Copy.byteAt_update rfl (by dsimp only; omega)

/-- A byte finds room, or memory is short, or all pages are full. -/
theorem copyByte_ends (h : Copied getFreePage done c) :
    Ends (Copied getFreePage (b :: done)) (Stopped getFreePage (b :: done))
      (c.copyByte getFreePage b) := by
  have hp := h.p
  by_cases hroom : c.p.toNat = 0
  · have hwrap : (c.p - 1).toNat / PAGE_SIZE = 1048575 := by
      rw [show c.p = 0 from UInt32.toNat_inj.mp hroom]
      rfl
    have hoffset : c.offset - 1 < 0 := by
      have := h.cached
      omega
    have hreq := h.paged.requests
    simp only [Copy.copyByte, hoffset, if_true, Copy.lookup, hwrap, MAX_ARG_PAGES]
    refine ⟨?_, fun k hk => h.paged.granted k (by omega)⟩
    simp only [ARG_SIZE, List.length_cons]
    omega
  · have hp1 : (c.p - 1).toNat + 1 = c.p.toNat := by
      rw [UInt32.toNat_sub_of_le _ _ (UInt32.le_iff_toNat_le.mpr (by simp; omega))]
      simp
      omega
    have hlow : Paged getFreePage ((c.p - 1).toNat + 1) c := by
      rw [hp1]
      exact h.paged
    have hdata : ∀ k < done.length, c.byteAt ((c.p - 1).toNat + 1 + k) = done[k]? := by
      rw [hp1]
      exact h.data
    rw [Copy.copyByte]
    refine Ends.ite (fun _ => ?_) fun hoffset => ?_
    · have hlocated := @lookup_ends getFreePage { c with p := c.p - 1, offset := c.offset - 1 }
        done (b :: done) ⟨hlow.present, hlow.requests, hlow.granted, hlow.freed⟩ (by dsimp only; omega) hdata
      exact hlocated.bind fun c' hc' => Ends.pure hc'.store
    obtain hzero | ⟨ho, hlt, i, hpag, hi⟩ := h.cached
    · dsimp only at hoffset
      omega
    · dsimp only at hoffset
      have hdown := hlow.down (by omega) (by omega)
      have hlocated : Located getFreePage done { c with p := c.p - 1, offset := c.offset - 1 } :=
        ⟨⟨hdown.present, hdown.requests, hdown.granted, hdown.freed⟩, by dsimp only; omega,
          hdata, by dsimp only; omega, i, hpag, by dsimp only; omega⟩
      exact hlocated.store

theorem Stopped.mono {stop : Stop} (h : Stopped getFreePage done stop)
    (hle : done.length ≤ bs.length) : Stopped getFreePage bs stop := by
  cases stop with
  | zero c => exact h
  | outside => exact ⟨lt_of_lt_of_le h.1 hle, h.2⟩

theorem copyString_ends {str : CString} (h : Copied getFreePage done c) :
    Ends (Copied getFreePage (str.terminated ++ done))
      (Stopped getFreePage (str.terminated ++ done)) (c.copyString getFreePage str) := by
  -- the guard compares unsigned numbers
  have hguard : ¬c.p - UInt32.ofNat str.terminated.length < 0 := UInt32.not_lt_zero
  rw [Copy.copyString, if_neg hguard]
  have hloop := Ends.foldlM (l := str.terminated.reverse) (g := Copy.copyByte getFreePage)
    (I := fun bytes c => Copied getFreePage (bytes.reverse ++ done) c)
    (E := Stopped getFreePage (str.terminated ++ done)) (fun bytes b rest c hl hc => ?_) h
  · simpa using hloop
  · rw [List.reverse_append]
    refine (copyByte_ends hc).mono (fun _ => id) fun stop hstop => hstop.mono ?_
    have hlen := congrArg List.length hl
    simp only [List.length_reverse, List.length_append, List.length_cons] at hlen ⊢
    omega

end

/-! ## The calls of `copy_strings` -/

/-- The bytes of the strings in the order in which they lie in the pages. -/
def argBytes (argv : List CString) : List UInt8 := argv.flatMap CString.terminated

/-- What the strings need with their terminators. -/
def size (argv : List CString) : ℕ := (argBytes argv).length

/-- Some call begins with room left and needs more than there is, when `n` bytes are
there before the first. -/
def OverrunsFrom (n : ℕ) (calls : List (List CString)) : Prop :=
  ∃ before argv after, calls = before ++ argv :: after ∧ n + size before.flatten < ARG_SIZE ∧
    ARG_SIZE < n + size before.flatten + size argv

section

variable {getFreePage : ℕ → Option ℕ} {c : Copy} {done : List UInt8} {argv argv' : List CString}
  {calls : List (List CString)} {n : ℕ}

@[simp]
theorem argBytes_nil : argBytes [] = [] := rfl

@[simp]
theorem argBytes_append : argBytes (argv ++ argv') = argBytes argv ++ argBytes argv' :=
  List.flatMap_append

@[simp]
theorem size_nil : size [] = 0 := rfl

theorem CString.length_terminated (s : CString) : s.terminated.length = s.bytes.length + 1 := by
  simp [CString.terminated]

theorem size_cons {str : CString} : size (str :: argv) = str.bytes.length + 1 + size argv := by
  rw [size, argBytes, List.flatMap_cons, List.length_append, str.length_terminated]
  rfl

@[simp]
theorem size_append : size (argv ++ argv') = size argv + size argv' := by
  simp [size]

theorem size_flatten_reverse : size calls.reverse.flatten = size calls.flatten := by
  induction calls with
  | nil => rfl
  | cons argv calls ih =>
      rw [List.reverse_cons, List.flatten_append, List.flatten_cons, size_append, size_append, ih]
      simp [Nat.add_comm]

theorem not_overrunsFrom_nil : ¬OverrunsFrom n [] := by
  rintro ⟨before, argv, after, h, -⟩
  simp at h

theorem overrunsFrom_cons : OverrunsFrom n (argv :: calls) ↔
    n < ARG_SIZE ∧ ARG_SIZE < n + size argv ∨ OverrunsFrom (n + size argv) calls := by
  constructor
  · rintro ⟨before, argv', after, h, hlt, hgt⟩
    cases before with
    | nil =>
        obtain ⟨rfl, rfl⟩ := List.cons.inj h
        exact .inl ⟨hlt, hgt⟩
    | cons first before =>
        obtain ⟨rfl, rfl⟩ := List.cons.inj h
        rw [List.flatten_cons, size_append, ← Nat.add_assoc] at hlt hgt
        exact .inr ⟨before, argv', after, rfl, hlt, hgt⟩
  · rintro (⟨hlt, hgt⟩ | ⟨before, argv', after, rfl, hlt, hgt⟩)
    · exact ⟨[], argv, calls, rfl, hlt, hgt⟩
    · refine ⟨argv :: before, argv', after, rfl, ?_, ?_⟩ <;>
        rw [List.flatten_cons, size_append, ← Nat.add_assoc] <;> assumption

theorem OverrunsFrom.lt_size (h : OverrunsFrom n calls) : ARG_SIZE < n + size calls.flatten := by
  obtain ⟨before, argv, after, rfl, -, hgt⟩ := h
  rw [List.flatten_append, List.flatten_cons, size_append, size_append]
  omega

theorem not_overrunsFrom_of_le (hn : ARG_SIZE ≤ n) : ¬OverrunsFrom n calls := by
  rintro ⟨before, argv, after, -, hlt, -⟩
  omega

theorem strings_ends (h : Copied getFreePage done c) :
    Ends (Copied getFreePage (argBytes argv ++ done)) (Stopped getFreePage (argBytes argv ++ done))
      (argv.reverse.foldlM (Copy.copyString getFreePage) { c with pag := none, offset := 0 }) := by
  have hstart : Copied getFreePage done { c with pag := none, offset := 0 } :=
    ⟨⟨h.paged.present, h.paged.requests, h.paged.granted, h.paged.freed⟩, h.p, h.data, .inl rfl⟩
  have hloop := Ends.foldlM (l := argv.reverse) (g := Copy.copyString getFreePage)
    (I := fun argv c => Copied getFreePage (argBytes argv.reverse ++ done) c)
    (E := Stopped getFreePage (argBytes argv ++ done)) (fun before str after c hl hc => ?_) hstart
  · simpa using hloop
  · have hbytes : argBytes (before ++ [str]).reverse ++ done =
        str.terminated ++ (argBytes before.reverse ++ done) := by
      simp [argBytes]
    have hargv : argv = after.reverse ++ (before ++ [str]).reverse := by
      rw [← List.reverse_reverse argv, hl]
      simp
    rw [hbytes]
    refine (copyString_ends hc).mono (fun _ => id) fun stop hstop => hstop.mono ?_
    rw [← hbytes, hargv]
    simp only [argBytes_append, List.length_append]
    omega

end

/-- After the calls: all strings are in the pages, or `p` is zero since memory was
short or since a call has ended at the front of the pages. -/
structure Finished (getFreePage : ℕ → Option ℕ) (calls : List (List CString)) (done : List UInt8)
    (c : Copy) : Prop where
  freed : c.freed.Perm c.allocated
  copied : c.p ≠ 0 → Copied getFreePage (argBytes calls.reverse.flatten ++ done) c
  zero : c.p = 0 → (∃ k < 32, getFreePage k = none) ∨
    ARG_SIZE ≤ done.length + size calls.flatten ∧ ¬OverrunsFrom done.length calls

section

variable {getFreePage : ℕ → Option ℕ} {c : Copy} {done : List UInt8} {argv : List CString}
  {calls : List (List CString)}

theorem copyStrings_of_p_eq_zero (h : c.p = 0) :
    calls.foldlM (Copy.copyStrings getFreePage) c = .ok c := by
  induction calls with
  | nil => rfl
  | cons argv calls ih =>
      rw [List.foldlM_cons, Copy.copyStrings, if_pos h]
      exact ih

theorem Copied.full (h : Copied getFreePage done c) (hp : c.p = 0) : done.length = ARG_SIZE := by
  have := h.p
  rw [hp] at this
  simpa [ARG_SIZE] using this

theorem Copied.room (h : Copied getFreePage done c) (hp : c.p ≠ 0) : done.length < ARG_SIZE := by
  have hne : c.p.toNat ≠ 0 := fun h0 => hp (UInt32.toNat_inj.mp h0)
  have := h.p
  simp only [ARG_SIZE]
  omega

theorem calls_ends (h : Copied getFreePage done c) :
    Ends (Finished getFreePage calls done)
      (fun _ => OverrunsFrom done.length calls ∧ ∀ k < 32, (getFreePage k).isSome)
      (calls.foldlM (Copy.copyStrings getFreePage) c) := by
  induction calls generalizing done c with
  | nil =>
      refine ⟨h.paged.freed, fun _ => h, fun hp => .inr ⟨?_, not_overrunsFrom_nil⟩⟩
      rw [h.full hp]
      exact Nat.le_add_right _ _
  | cons argv calls ih =>
      by_cases hp : c.p = 0
      · rw [copyStrings_of_p_eq_zero hp]
        have hfull := h.full hp
        refine ⟨h.paged.freed, fun hne => absurd hp hne, fun _ => .inr ⟨?_, ?_⟩⟩
        · omega
        · exact not_overrunsFrom_of_le (Nat.le_of_eq hfull.symm)
      · have hroom := h.room hp
        have hstrings := @strings_ends getFreePage c done argv h
        rw [List.foldlM_cons, Copy.copyStrings, if_neg hp]
        cases hr : argv.reverse.foldlM (Copy.copyString getFreePage)
            { c with pag := none, offset := 0 } with
        | ok c₁ =>
            rw [hr] at hstrings
            have hlen : (argBytes argv ++ done).length = done.length + size argv := by
              rw [List.length_append, size]
              omega
            refine (ih hstrings).mono (fun c₂ hc₂ => ⟨hc₂.freed, fun hne => ?_, fun hz => ?_⟩) ?_
            · simpa using hc₂.copied hne
            · refine (hc₂.zero hz).imp_right fun ⟨hge, hno⟩ => ⟨?_, fun hover => ?_⟩
              · rw [List.flatten_cons, size_append]
                omega
              · rcases overrunsFrom_cons.mp hover with ⟨-, hgt⟩ | hover
                · have := hstrings.p
                  simp only [ARG_SIZE] at hgt
                  omega
                · rw [hlen] at hno
                  exact hno hover
            · rintro - ⟨hover, hall⟩
              rw [hlen] at hover
              exact ⟨overrunsFrom_cons.mpr (.inr hover), hall⟩
        | error stop =>
            rw [hr] at hstrings
            cases stop with
            | zero c₁ =>
                have hrest : calls.foldlM (Copy.copyStrings getFreePage) { c₁ with p := 0 } =
                    .ok { c₁ with p := 0 } := copyStrings_of_p_eq_zero rfl
                refine (congrArg (Ends _ _) hrest).mpr ?_
                exact ⟨hstrings.1, fun hne => absurd rfl hne, fun _ => .inl hstrings.2⟩
            | outside =>
                refine ⟨overrunsFrom_cons.mpr (.inl ⟨hroom, ?_⟩), hstrings.2⟩
                have := hstrings.1
                rw [List.length_append, ← size] at this
                omega

end

namespace ExecArgs

variable (e : ExecArgs) (getFreePage : ℕ → Option ℕ)

/-- Some call of `copy_strings` begins with room left and needs more than there is. -/
def Overruns : Prop := OverrunsFrom 0 e.calls

/-- The pages are indexed inside, and what does not fit is refused with all pages
given back. -/
structure Contained : Prop where
  inside : e.doExecve getFreePage ≠ .outside
  refused : ARG_SIZE < size e.calls.flatten → ∃ freed c,
    e.doExecve getFreePage = .returns (-ENOMEM) freed c ∧ freed.Perm c.allocated

variable {e : ExecArgs} {getFreePage : ℕ → Option ℕ}

theorem copyArgs_ends : Ends (Finished getFreePage e.calls [])
    (fun _ => e.Overruns ∧ ∀ k < 32, (getFreePage k).isSome) (e.copyArgs getFreePage) :=
  calls_ends Copied.start

theorem Finished.size_lt {c : Copy} (h : Finished getFreePage e.calls [] c) (hp : c.p ≠ 0) :
    size e.calls.flatten < ARG_SIZE := by
  have hroom := (h.copied hp).room hp
  rwa [List.append_nil, ← size, size_flatten_reverse] at hroom

theorem doExecve_of_overruns (hover : e.Overruns) (hall : ∀ k < 32, (getFreePage k).isSome) :
    e.doExecve getFreePage = .outside := by
  have hends := @copyArgs_ends e getFreePage
  rw [doExecve]
  cases hr : e.copyArgs getFreePage with
  | error _ => rfl
  | ok c =>
      rw [hr] at hends
      by_cases hp : c.p = 0
      · rcases hends.zero hp with ⟨k, hk, hnone⟩ | ⟨-, hno⟩
        · have hsome := hall k hk
          simp [hnone] at hsome
        · exact absurd hover hno
      · have hgt := hover.lt_size
        have hlt := Finished.size_lt hends hp
        omega

theorem contained_of_not_overruns (h : ¬(e.Overruns ∧ ∀ k < 32, (getFreePage k).isSome)) :
    e.Contained getFreePage := by
  have hends := @copyArgs_ends e getFreePage
  cases hr : e.copyArgs getFreePage with
  | error _ =>
      rw [hr] at hends
      exact absurd hends h
  | ok c =>
      rw [hr] at hends
      by_cases hp : c.p = 0
      · have hret : e.doExecve getFreePage = .returns (-ENOMEM) c.freed c := by
          simp [doExecve, hr, hp]
        exact ⟨by simp [hret], fun _ => ⟨c.freed, c, hret, hends.freed⟩⟩
      · have hlt := Finished.size_lt hends hp
        refine ⟨?_, fun hgt => by omega⟩
        simp only [doExecve, hr, hp, if_false]
        cases e.script.bind Script.refused <;> simp

theorem contained_iff :
    e.Contained getFreePage ↔ ¬(e.Overruns ∧ ∀ k < 32, (getFreePage k).isSome) := by
  constructor
  · rintro hin ⟨hover, hall⟩
    exact hin.inside (doExecve_of_overruns hover hall)
  · exact contained_of_not_overruns

end ExecArgs

/-! ## One long argument -/

/-- A string of `n` letters `a`. -/
def letters (n : ℕ) : CString where
  bytes := List.replicate n 97
  noZero b hb := by
    rw [List.eq_of_mem_replicate hb]
    decide

/-- `execve` with one argument of 131068 letters, which needs one byte more than there
is. -/
def longArgument : ExecArgs where
  filename := letters 1
  argv := [letters 131068]
  envp := []
  script := none

theorem size_letters (n : ℕ) : size [letters n] = n + 1 := by
  simp [size, argBytes, CString.terminated, letters]

theorem longArgument_overruns : longArgument.Overruns := by
  refine ⟨[[]], [letters 131068], [], rfl, ?_, ?_⟩
  · simp [ARG_SIZE]
  · rw [size_letters]
    simp [ARG_SIZE]

theorem longArgument_not_contained :
    ¬longArgument.Contained fun k => some (256 + k) :=
  fun h => h.inside (ExecArgs.doExecve_of_overruns longArgument_overruns fun _ _ => rfl)

end MyJavaExample.Exec
