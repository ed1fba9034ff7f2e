import MyJavaExample.Fs.WritePaths
import MyJavaExample.Mm.UserBytes

/-!
# The masking loop of `sys_write`: `fs/read_write.c`

When `mask_display` is set, `sys_write` puts a star in place of every letter and
digit of the buffer, before it looks at the descriptor and at the count.  The
stars are put into the memory of the caller, where they stay, and into every page
that another process shares with it.
-/

namespace MyJavaExample.Fs

open Lib Mm

/-! ## The call -/

/-- A letter or a digit. -/
def masked (ch : UInt8) : Bool :=
  (97 ≤ ch ∧ ch ≤ 122) ∨ (65 ≤ ch ∧ ch ≤ 90) ∨ (48 ≤ ch ∧ ch ≤ 57)

/-- One round of the masking loop. -/
def maskByte (c : Caller) (x : ℕ) (s : Sys) : Except (Fault × Sys) Sys := do
  let (ch, s) ← c.getFsByte x s
  if masked ch then c.putFsByte 42 x s else pure s

def maskLoop (c : Caller) (buf : ℕ) : ℕ → ℕ → Sys → Except (Fault × Sys) Sys
  | 0, _, s => pure s
  | n + 1, i, s => do maskLoop c buf n (i + 1) (← maskByte c (bufAddr buf i) s)

def callEnd : Fault → CallEnd
  | .exits => .exits
  | .panics message => .panics message

/-- The bytes of the buffer as the write takes them. -/
def fetch (c : Caller) (buf i : ℕ) (s : Sys) : Except (CallEnd × Sys) (UInt8 × Sys) :=
  match c.getFsByte (bufAddr buf i) s with
  | .ok r => .ok r
  | .error (f, s) => .error (callEnd f, s)

def sysWrite (c : Caller) (maskDisplay : ℤ) (fd buf : ℕ) (count : ℤ) (s : Sys) (w : Targets) :
    Reading.Result CallEnd Targets Sys :=
  match if maskDisplay ≠ 0 then maskLoop c buf count.toNat 0 s else pure s with
  | .error (f, s) => ⟨callEnd f, w, s⟩
  | .ok s => (writeCall fd count w).run (fetch c buf) 0 s

/-! ## What a write should leave -/

/-- The bytes of the buffer from `i` on, `n` of them, up to the first that cannot be
read. -/
def bufBytes (c : Caller) (buf : ℕ) : ℕ → ℕ → Sys → List UInt8
  | 0, _, _ => []
  | n + 1, i, s =>
      match c.getFsByte (bufAddr buf i) s with
      | .ok (b, s) => b :: bufBytes c buf n (i + 1) s
      | .error _ => []

/-- A write leaves the bytes of all tasks, and those of the buffer too where a page
was brought in; what it stores is the beginning of the buffer. -/
structure Intact (c : Caller) (buf n : ℕ) (s : Sys) (w : Targets)
    (r : Reading.Result CallEnd Targets Sys) : Prop where
  kept : s.mem.Keeps r.source.mem
  buffer : ∀ i b v, (bufBytes c buf n 0 s)[i]? = some b →
    r.source.mem.read (c.linear (bufAddr buf i)) = some v → v = b
  stored : ∃ t, t <+: bufBytes c buf n 0 s ∧ r.left.stored = w.stored ++ t

section Reads

variable {c : Caller} {buf n m i k : ℕ} {s s₀ s' : Sys} {bs : List UInt8} {b v : UInt8}

theorem bufBytes_error {e : Fault × Sys} (h : c.getFsByte (bufAddr buf i) s = .error e) :
    bufBytes c buf n i s = [] := by
  cases n with
  | zero => rfl
  | succ n => rw [bufBytes, h]

theorem bufBytes_ok (h : c.getFsByte (bufAddr buf i) s = .ok (b, s')) :
    bufBytes c buf (n + 1) i s = b :: bufBytes c buf n (i + 1) s' := by
  rw [bufBytes, h]

/-- A byte of the buffer lies in the segment, and it is there if its page is. -/
theorem bufBytes_get (h : c.Ready buf n s) (hi : i + m ≤ n)
    (hb : (bufBytes c buf m i s)[k]? = some b) :
    bufAddr buf (i + k) < c.current.dataLimit ∧
      ∀ v, s.mem.read (c.linear (bufAddr buf (i + k))) = some v → v = b := by
  induction m generalizing i k s with
  | zero => simp [bufBytes] at hb
  | succ m ih =>
      have hget := h.getFsByte (i := i) (by omega)
      cases hfetch : c.getFsByte (bufAddr buf i) s with
      | error e => simp [bufBytes_error hfetch] at hb
      | ok r =>
          obtain ⟨b₀, s'⟩ := r
          rw [hfetch] at hget
          obtain ⟨htouched, hread⟩ := hget
          dsimp only at htouched hread
          rw [bufBytes_ok hfetch] at hb
          cases k with
          | zero =>
              cases hb
              refine ⟨htouched.lt, fun v hv => ?_⟩
              obtain ⟨hlo, hhi⟩ := h.linear_bounds htouched.lt
              exact Option.some.inj ((htouched.keeps _ hlo hhi v hv).symm.trans hread)
          | succ k =>
              obtain ⟨hlt, hrest⟩ := ih htouched.ready (by omega) hb
              rw [show i + 1 + k = i + (k + 1) by omega] at hlt hrest
              refine ⟨hlt, fun v hv => hrest v ?_⟩
              obtain ⟨hlo, hhi⟩ := h.linear_bounds hlt
              exact htouched.keeps _ hlo hhi v hv

/-- The call has read the bytes `bs`, and has written none. -/
structure Reads (c : Caller) (buf n : ℕ) (s₀ : Sys) (bs : List UInt8) (s : Sys) : Prop where
  ready : c.Ready buf n s
  keeps : s₀.mem.Keeps s.mem
  rest : bufBytes c buf n 0 s₀ = bs ++ bufBytes c buf (n - bs.length) bs.length s
  there : ∀ i b, bs[i]? = some b → bufAddr buf i < c.current.dataLimit ∧
    s.mem.read (c.linear (bufAddr buf i)) = some b

/-- What the call leaves when it ends after the bytes `bs`. -/
structure Left (c : Caller) (buf n : ℕ) (s₀ : Sys) (bs : List UInt8) (s : Sys) : Prop where
  keeps : s₀.mem.Keeps s.mem
  start : bs <+: bufBytes c buf n 0 s₀
  buffer : ∀ i b v, (bufBytes c buf n 0 s₀)[i]? = some b →
    s.mem.read (c.linear (bufAddr buf i)) = some v → v = b

theorem Reads.nil (h : c.Ready buf n s) : Reads c buf n s [] s :=
  ⟨h, .refl _, rfl, fun i b hb => by simp at hb⟩

theorem Reads.left (h : Reads c buf n s₀ bs s) (hn : bs.length ≤ n) : Left c buf n s₀ bs s := by
  refine ⟨h.keeps, ⟨_, h.rest.symm⟩, fun i b v hb hv => ?_⟩
  rw [h.rest] at hb
  rcases Nat.lt_or_ge i bs.length with hi | hi
  · rw [List.getElem?_append_left hi] at hb
    exact Option.some.inj (hv.symm.trans (h.there i b hb).2)
  · rw [List.getElem?_append_right hi] at hb
    have hget := (bufBytes_get h.ready (by omega) hb).2
    rw [Nat.add_sub_cancel' hi] at hget
    exact hget v hv

theorem Reads.next (h : Reads c buf n s₀ bs s) (hn : bs.length < n)
    (hfetch : c.getFsByte (bufAddr buf bs.length) s = .ok (b, s')) :
    Reads c buf n s₀ (bs ++ [b]) s' := by
  have hget := h.ready.getFsByte hn
  rw [hfetch] at hget
  obtain ⟨htouched, hread⟩ := hget
  dsimp only at htouched hread
  refine ⟨htouched.ready, h.keeps.trans htouched.keeps, ?_, fun i b' hb' => ?_⟩
  · obtain ⟨m, hm⟩ : ∃ m, n - bs.length = m + 1 := ⟨n - bs.length - 1, by omega⟩
    have hm' : n - (bs ++ [b]).length = m := by
      rw [List.length_append, List.length_singleton]
      omega
    rw [h.rest, hm, bufBytes_ok hfetch, hm', List.length_append, List.length_singleton,
      List.append_assoc]
    rfl
  · rcases Nat.lt_or_ge i bs.length with hi | hi
    · rw [List.getElem?_append_left hi] at hb'
      obtain ⟨hlt, hthere⟩ := h.there i b' hb'
      obtain ⟨hlo, hhi⟩ := h.ready.linear_bounds hlt
      exact ⟨hlt, htouched.keeps _ hlo hhi b' hthere⟩
    · have hi' : i = bs.length := by
        have hlt := (List.getElem?_eq_some_iff.1 hb').1
        rw [List.length_append, List.length_singleton] at hlt
        omega
      subst hi'
      rw [List.getElem?_concat_length] at hb'
      cases hb'
      exact ⟨htouched.lt, hread⟩

theorem Reads.error {e : Fault × Sys} (h : Reads c buf n s₀ bs s) (hn : bs.length < n)
    (hfetch : c.getFsByte (bufAddr buf bs.length) s = .error e) : Left c buf n s₀ bs e.2 := by
  have hget := h.ready.getFsByte hn
  rw [hfetch] at hget
  have hrest := h.rest
  rw [bufBytes_error hfetch, List.append_nil] at hrest
  refine ⟨h.keeps.trans hget, ⟨[], by rw [hrest, List.append_nil]⟩, fun i b v hb hv => ?_⟩
  rw [hrest] at hb
  obtain ⟨hlt, hthere⟩ := h.there i b hb
  obtain ⟨hlo, hhi⟩ := h.ready.linear_bounds hlt
  exact Option.some.inj (hv.symm.trans (hget _ hlo hhi b hthere))

/-- Bytes that are there are read as they are. -/
theorem bufBytes_there (h : ∀ i b, bs[i]? = some b → bufAddr buf i < c.current.dataLimit ∧
      s.mem.read (c.linear (bufAddr buf i)) = some b) (hi : i + m = bs.length) :
    bufBytes c buf m i s = bs.drop i := by
  induction m generalizing i with
  | zero =>
      rw [List.drop_eq_nil_of_le (by omega)]
      rfl
  | succ m ih =>
      have hlt : i < bs.length := by omega
      obtain ⟨hlimit, hread⟩ := h i bs[i] (List.getElem?_eq_getElem hlt)
      have hsome : (s.mem.lookup (c.linear (bufAddr buf i))).isSome := by
        have hsome : (s.mem.read (c.linear (bufAddr buf i))).isSome := by rw [hread]; rfl
        rwa [Memory.read, Option.isSome_map] at hsome
      have hfetch : c.getFsByte (bufAddr buf i) s = .ok (bs[i], s) := by
        rw [Caller.getFsByte, Caller.touch_present hlimit hsome]
        show Except.ok _ = _
        rw [hread]
        rfl
      rw [bufBytes_ok hfetch, ih (by omega)]
      exact (List.drop_eq_getElem_cons hlt).symm

/-- When all of the buffer was read, it is read again as it is. -/
theorem Reads.again (h : Reads c buf n s₀ bs s) (hn : bs.length = n) :
    bufBytes c buf n 0 s = bufBytes c buf n 0 s₀ := by
  have hrest := h.rest
  rw [hn, Nat.sub_self] at hrest
  rw [hrest, bufBytes_there h.there (by rw [hn, Nat.zero_add])]
  exact (List.append_nil bs).symm

end Reads

/-! ## Without a letter or digit -/

section Plain

variable {c : Caller} {buf n m i : ℕ} {s s₀ s' : Sys} {bs : List UInt8} {b : UInt8} {fd : ℕ}
  {count : ℤ} {w : Targets}

theorem fetch_ok (h : fetch c buf i s = .ok (b, s')) :
    c.getFsByte (bufAddr buf i) s = .ok (b, s') := by
  unfold fetch at h
  split at h
  next r hr =>
    cases h
    exact hr
  next => cases h

theorem fetch_error {e : CallEnd} (h : fetch c buf i s = .error (e, s')) :
    ∃ f, c.getFsByte (bufAddr buf i) s = .error (f, s') := by
  unfold fetch at h
  split at h
  next => cases h
  next f s₁ hf =>
    cases h
    exact ⟨f, hf⟩

theorem lt_of_copied (h : ∀ b, ∃ left, Copied w.stored n (bs ++ [b]) left) : bs.length < n := by
  obtain ⟨left, hlength, -⟩ := h 0
  rwa [List.length_append, List.length_singleton] at hlength

/-- Each of the ways of a write leaves the memory as it is. -/
theorem writeCall_intact (h : c.Ready buf count.toNat s) :
    Intact c buf count.toNat s w ((writeCall fd count w).run (fetch c buf) 0 s) := by
  obtain ⟨bs, ⟨hlength, t, ht, hstored⟩, hleft⟩ := Reading.run_along
    (R := Reads c buf count.toNat s) (Q := fun bs s' => bs.length ≤ count.toNat →
      Left c buf count.toNat s bs s')
    (fun bs s₁ b s₂ hs hnext hfetch => hs.next (lt_of_copied hnext) (fetch_ok hfetch))
    (fun bs s₁ e s₂ hs hnext hfetch _ => by
      obtain ⟨f, hf⟩ := fetch_error hfetch
      exact hs.error (lt_of_copied hnext) hf)
    (fun bs s₁ hs hlength => hs.left hlength) (writeCall_copied fd count w) (.nil h)
  have hleft := hleft hlength
  exact ⟨hleft.keeps, hleft.buffer, t, ht.trans hleft.start, hstored⟩

theorem maskByte_error {e : Fault × Sys} (h : c.getFsByte (bufAddr buf i) s = .error e) :
    maskByte c (bufAddr buf i) s = .error e := by
  rw [maskByte, h]
  rfl

theorem maskByte_plain (h : c.getFsByte (bufAddr buf i) s = .ok (b, s')) (hb : masked b = false) :
    maskByte c (bufAddr buf i) s = .ok s' := by
  rw [maskByte, h]
  show (if masked b = true then _ else _) = _
  rw [hb]
  rfl

/-- A masking loop over bytes that are no letters and no digits reads them, and
that is all. -/
theorem maskLoop_plain (h : Reads c buf n s₀ bs s) (hn : bs.length + m = n)
    (hplain : ∀ b ∈ bufBytes c buf n 0 s₀, masked b = false) :
    Ends (fun s' => ∃ bs', Reads c buf n s₀ bs' s' ∧ bs'.length = n)
      (fun e => ∃ bs', Left c buf n s₀ bs' e.2) (maskLoop c buf m bs.length s) := by
  induction m generalizing bs s with
  | zero => exact .pure ⟨bs, h, hn⟩
  | succ m ih =>
      rw [maskLoop]
      cases hget : c.getFsByte (bufAddr buf bs.length) s with
      | error e =>
          rw [maskByte_error hget]
          exact .throw ⟨bs, h.error (by omega) hget⟩
      | ok r =>
          obtain ⟨b, s'⟩ := r
          have hb : b ∈ bufBytes c buf n 0 s₀ := by
            rw [h.rest, show n - bs.length = m + 1 by omega, bufBytes_ok hget]
            exact List.mem_append_right _ List.mem_cons_self
          have hrest := ih (h.next (by omega) hget) (by
            rw [List.length_append, List.length_singleton]
            omega)
          rw [List.length_append, List.length_singleton] at hrest
          rw [maskByte_plain hget (hplain b hb)]
          exact hrest

end Plain

/-! ## With a letter or digit -/

section Masked

variable {c : Caller} {buf n m i k x : ℕ} {s s₀ s' : Sys} {bs : List UInt8} {b : UInt8} {fd : ℕ}
  {count : ℤ} {w : Targets}

/-- The task is ready, and there is a star at an address of its segment. -/
structure Starred (c : Caller) (buf n x : ℕ) (s : Sys) : Prop where
  ready : c.Ready buf n s
  lt : x < c.current.dataLimit
  star : s.mem.read (c.linear x) = some 42

theorem Starred.keeps (h : Starred c buf n x s) (hk : s.mem.Keeps s'.mem) :
    s'.mem.read (c.linear x) = some 42 := by
  obtain ⟨hlo, hhi⟩ := h.ready.linear_bounds h.lt
  exact hk _ hlo hhi _ h.star

theorem maskByte_masked (h : c.Ready buf n s) (hi : i < n)
    (hget : c.getFsByte (bufAddr buf i) s = .ok (b, s')) (hb : masked b = true) :
    ∃ s'', maskByte c (bufAddr buf i) s = .ok s'' ∧ Starred c buf n (bufAddr buf i) s'' ∧
      ∀ y, Starred c buf n y s → Starred c buf n y s'' := by
  have hread := h.getFsByte hi
  rw [hget] at hread
  obtain ⟨htouched, -⟩ := hread
  dsimp only at htouched
  have hready := htouched.ready.store htouched.lt htouched.present 42
  refine ⟨_, ?_, ⟨hready, htouched.lt, store_read_self htouched.present 42⟩, fun y hy => ?_⟩
  · rw [maskByte, hget]
    show (if masked b = true then c.putFsByte 42 (bufAddr buf i) s' else _) = _
    rw [if_pos hb, Caller.putFsByte, Caller.touch_present htouched.lt htouched.present]
    rfl
  · have hstar := store_read htouched.present (v := 42) (hy.keeps htouched.keeps)
    exact ⟨hready, hy.lt, hstar.elim id id⟩

/-- A star stays a star: the loop puts nothing else. -/
theorem maskLoop_starred (h : Starred c buf n x s) (hi : i + m ≤ n) :
    Ends (Starred c buf n x) (fun e => e.2.mem.read (c.linear x) = some 42)
      (maskLoop c buf m i s) := by
  induction m generalizing i s with
  | zero => exact .pure h
  | succ m ih =>
      rw [maskLoop]
      have hread := h.ready.getFsByte (i := i) (by omega)
      cases hget : c.getFsByte (bufAddr buf i) s with
      | error e =>
          rw [hget] at hread
          rw [maskByte_error hget]
          exact .throw (h.keeps hread)
      | ok r =>
          obtain ⟨b, s'⟩ := r
          cases hb : masked b with
          | true =>
              obtain ⟨s'', heq, -, hstays⟩ := maskByte_masked h.ready (by omega) hget hb
              rw [heq]
              exact ih (hstays x h) (by omega)
          | false =>
              rw [hget] at hread
              obtain ⟨htouched, -⟩ := hread
              rw [maskByte_plain hget hb]
              exact ih ⟨htouched.ready, h.lt, h.keeps htouched.keeps⟩ (by omega)

/-- The first letter or digit is gone after the loop, however the loop ends. -/
theorem maskLoop_masked (h : Reads c buf n s₀ bs s) (hn : bs.length + m = n)
    (hb : ∃ b ∈ bufBytes c buf m bs.length s, masked b = true) :
    ∃ k b, (bufBytes c buf n 0 s₀)[k]? = some b ∧ masked b = true ∧
      Ends (Starred c buf n (bufAddr buf k))
        (fun e => e.2.mem.read (c.linear (bufAddr buf k)) = some 42)
        (maskLoop c buf m bs.length s) := by
  induction m generalizing bs s with
  | zero =>
      obtain ⟨b, hb, -⟩ := hb
      cases hb
  | succ m ih =>
      cases hget : c.getFsByte (bufAddr buf bs.length) s with
      | error e =>
          obtain ⟨b, hb, -⟩ := hb
          rw [bufBytes_error hget] at hb
          cases hb
      | ok r =>
          obtain ⟨b, s'⟩ := r
          rw [bufBytes_ok hget] at hb
          rw [maskLoop]
          cases hmasked : masked b with
          | true =>
              obtain ⟨s'', heq, hstar, -⟩ := maskByte_masked h.ready (by omega) hget hmasked
              refine ⟨bs.length, b, ?_, hmasked, ?_⟩
              · rw [h.rest, show n - bs.length = m + 1 by omega, bufBytes_ok hget,
                  List.getElem?_append_right le_rfl, Nat.sub_self]
                rfl
              · rw [heq]
                exact maskLoop_starred hstar (by omega)
          | false =>
              have hrest : ∃ b ∈ bufBytes c buf m (bs.length + 1) s', masked b = true := by
                obtain ⟨b', hmem, hb'⟩ := hb
                rcases List.mem_cons.1 hmem with rfl | hmem
                · rw [hmasked] at hb'
                  cases hb'
                · exact ⟨b', hmem, hb'⟩
              have hlength : (bs ++ [b]).length = bs.length + 1 := by
                rw [List.length_append, List.length_singleton]
              have hnext := ih (h.next (by omega) hget) (by omega) (hlength.symm ▸ hrest)
              rw [hlength] at hnext
              rw [maskByte_plain hget hmasked]
              exact hnext

/-- What follows the loop leaves a star alone. -/
theorem writeCall_starred (h : Starred c buf count.toNat x s) :
    ((writeCall fd count w).run (fetch c buf) 0 s).source.mem.read (c.linear x) = some 42 := by
  obtain ⟨bs, -, hleft⟩ := Reading.run_along (R := fun _ => Starred c buf count.toNat x)
    (Q := fun _ s' => s'.mem.read (c.linear x) = some 42)
    (fun bs s₁ b s₂ hs hnext hfetch => by
      have hread := hs.ready.getFsByte (lt_of_copied hnext)
      rw [fetch_ok hfetch] at hread
      exact ⟨hread.1.ready, hs.lt, hs.keeps hread.1.keeps⟩)
    (fun bs s₁ e s₂ hs hnext hfetch => by
      obtain ⟨f, hf⟩ := fetch_error hfetch
      have hread := hs.ready.getFsByte (lt_of_copied hnext)
      rw [hf] at hread
      exact hs.keeps hread)
    (fun bs s₁ hs => hs.star) (writeCall_copied fd count w) h
  exact hleft

end Masked

/-! ## The call as a whole -/

section Call

variable {c : Caller} {buf fd : ℕ} {count maskDisplay : ℤ} {s : Sys} {w : Targets}

theorem not_masked_star : masked 42 = false := by decide

/-- `sys_write` leaves the memory of all tasks as it is, and stores the bytes that
were in the buffer, if and only if `mask_display` is not set or there is no letter
and no digit in the buffer.  The kind of the file does not matter. -/
theorem sysWrite_intact_iff (h : c.Ready buf count.toNat s) :
    Intact c buf count.toNat s w (sysWrite c maskDisplay fd buf count s w) ↔
      maskDisplay = 0 ∨ ∀ b ∈ bufBytes c buf count.toNat 0 s, masked b = false := by
  unfold sysWrite
  by_cases hmask : maskDisplay = 0
  · rw [if_neg (not_not.2 hmask)]
    exact iff_of_true (writeCall_intact h) (.inl hmask)
  · rw [if_pos hmask]
    by_cases hplain : ∀ b ∈ bufBytes c buf count.toNat 0 s, masked b = false
    · refine iff_of_true ?_ (.inr hplain)
      have hloop := maskLoop_plain (.nil h) (Nat.zero_add _) hplain
      rw [List.length_nil] at hloop
      cases heq : maskLoop c buf count.toNat 0 s with
      | error e =>
          rw [heq] at hloop
          obtain ⟨bs, hleft⟩ := hloop
          exact ⟨hleft.keeps, hleft.buffer, [], List.nil_prefix, (List.append_nil _).symm⟩
      | ok s₁ =>
          rw [heq] at hloop
          obtain ⟨bs, hreads, hlength⟩ := hloop
          have hagain := hreads.again hlength
          obtain ⟨hkept, hbuffer, hstored⟩ :=
            (writeCall_intact hreads.ready : Intact c buf count.toNat s₁ w
              ((writeCall fd count w).run (fetch c buf) 0 s₁))
          rw [hagain] at hbuffer hstored
          exact ⟨hreads.keeps.trans hkept, hbuffer, hstored⟩
    · refine iff_of_false (fun hintact => ?_) (by
        rintro (hno | hno)
        · exact hmask hno
        · exact hplain hno)
      have hb : ∃ b ∈ bufBytes c buf count.toNat 0 s, masked b = true := by
        push Not at hplain
        obtain ⟨b, hb, hne⟩ := hplain
        exact ⟨b, hb, Bool.eq_true_of_not_eq_false hne⟩
      obtain ⟨k, b, hget, hmasked, hloop⟩ :=
        maskLoop_masked (.nil h) (Nat.zero_add _) hb
      rw [List.length_nil] at hloop
      -- a star is no letter and no digit
      have hstar : b ≠ 42 := by
        rintro rfl
        rw [not_masked_star] at hmasked
        cases hmasked
      cases heq : maskLoop c buf count.toNat 0 s with
      | error e =>
          rw [heq] at hloop hintact
          exact hstar (hintact.buffer k b 42 hget hloop).symm
      | ok s₁ =>
          rw [heq] at hloop hintact
          exact hstar (hintact.buffer k b 42 hget (writeCall_starred hloop)).symm

/-! ## Two tasks that share a page -/

/-- The first and the second task, after a `fork`, with one page full of `A`. -/
def sharedTask (nr : ℕ) : Task where
  page := 0x400 + nr
  pid := nr
  startCode := nr * TASK_SIZE
  codeLimit := 4096
  dataLimit := 4096
  endData := 4096
  executable := none
  shareMemoryNum := 0
  zombie := false

def sharedMemory : Memory where
  memMap := fun p => if p = 0x300 then 2 else 1
  highMemory := 4096
  pgDir := fun d => if d = 16 then .user 0x200 else if d = 32 then .user 0x201 else .zero
  table := fun _ i => if i = 0 then (Entry.user 0x300).protect else .zero
  bytes := fun _ _ => 65

def sharedSys : Sys where
  mem := sharedMemory
  task := fun nr => if nr = 1 ∨ nr = 2 then some (sharedTask nr) else none
  kernel := []
  shm := .zero

def sharedCaller : Caller := ⟨1, sharedTask 1, 1, fun _ _ => 0⟩

/-- A task without open files. -/
def noTargets : Targets where
  filp := fun _ => none
  fPos := 0
  inode := ⟨S_IFREG, 0, fun _ => 0, false⟩
  dev := ⟨⟨1, 1, 10, 110, SUPER_MAGIC⟩, fun _ => none, fun _ => .zero, fun _ => 0, fun _ => true⟩
  pipe := ⟨0, 0, fun _ => 0, 2, false, []⟩
  terminals := ⟨0, fun _ => false, fun _ => 0, false, [], []⟩
  ports := []
  disk := fun _ => ⟨fun _ => .zero, fun _ => true⟩
  stored := []

theorem sharedCaller_ready : sharedCaller.Ready 0 1 sharedSys := by
  refine ⟨⟨by decide, rfl, le_rfl, by decide, fun h => by cases h⟩, le_rfl, .inr fun i hi _ => ?_⟩
  obtain rfl : i = 0 := by omega
  rfl

theorem sysWrite_intact_iff_shared :
    Intact sharedCaller 0 (Int.toNat 1) sharedSys noTargets
        (sysWrite sharedCaller 1 99 0 1 sharedSys noTargets) ↔
      (1 : ℤ) = 0 ∨ ∀ b ∈ bufBytes sharedCaller 0 (Int.toNat 1) 0 sharedSys, masked b = false :=
  sysWrite_intact_iff sharedCaller_ready

/-- A write of one byte to a descriptor that is not open changes the byte of the
other task. -/
theorem sysWrite_changes_shared :
    ¬Intact sharedCaller 0 1 sharedSys noTargets
      (sysWrite sharedCaller 1 99 0 1 sharedSys noTargets) := by
  intro h
  have hkept := h.kept (2 * TASK_SIZE) (by decide) (by decide) 65 rfl
  have hstar : (sysWrite sharedCaller 1 99 0 1 sharedSys noTargets).source.mem.read (2 * TASK_SIZE) =
      some 42 := rfl
  rw [hstar] at hkept
  cases hkept

end Call

end MyJavaExample.Fs
