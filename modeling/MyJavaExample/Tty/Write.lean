import MyJavaExample.Lib.Run
import MyJavaExample.Tty.Queue

/-!
# Terminal output (`tty_write`)

A newline goes out in two rounds of the inner loop of `tty_write`: the first
puts a carriage return and sets `cr_flag`, the second sees the flag and puts the
newline.  The queue may get full between the two, and then the writer gives up
the processor.  `cr_flag` is one variable for all channels.

The writers of the channels run in any order from one place where they may be
stopped to the next: in `sleep_if_full`, and in the call of `schedule` after a
full queue.
-/

namespace MyJavaExample.Tty

open Lib

/-! ## The inner loop -/

/-- What the inner loop changes.  `put` collects the bytes put on the queue.
`crPut` tells whether the carriage return of the next newline is out; the code
has no such variable for each channel. -/
structure Filling where
  crFlag : Bool
  queue : TtyQueue
  rest : List UInt8
  put : List UInt8
  crPut : Bool

namespace Filling

def putch (f : Filling) (c : UInt8) : Filling :=
  { f with queue := f.queue.put c, put := f.put ++ [c] }

/-- A byte is done: `b++; nr--; cr_flag = 0; PUTCH(c)`. -/
def advance (f : Filling) (c : UInt8) (rest : List UInt8) : Filling :=
  putch { f with rest, crFlag := false, crPut := false } c

/-- One round of the inner loop. -/
def putByte (below : UInt8 → Bool) (oflag : UInt32) (f : Filling) : Filling :=
  match f.rest with
  | [] => f
  | c :: rest =>
      if flag oflag OPOST then
        let c :=
          if c = 13 ∧ flag oflag OCRNL then 10 else if c = 10 ∧ flag oflag ONLRET then 13 else c
        if c = 10 ∧ f.crFlag = false ∧ flag oflag ONLCR then
          putch { f with crFlag := true, crPut := true } 13
        else
          f.advance (if flag oflag OLCUC then toupper below c else c) rest
      else f.advance c rest

/-- The inner loop.  Each round puts a byte, so no more than `TTY_BUF_SIZE` are
made. -/
def fill (below : UInt8 → Bool) (oflag : UInt32) : ℕ → Filling → Filling
  | 0, f => f
  | n + 1, f => if f.rest = [] ∨ f.queue.full then f else fill below oflag n (f.putByte below oflag)

end Filling

/-! ## The channels -/

inductive Writer where
  | idle
  /-- In `sleep_if_full`. -/
  | sleeping (rest : List UInt8)
  /-- In `schedule`, with bytes left. -/
  | scheduled (rest : List UInt8)

def Writer.rest : Writer → List UInt8
  | .idle => []
  | .sleeping rest => rest
  | .scheduled rest => rest

/-- A channel with the call of `tty_write` in progress.  `supplied` are the bytes
of all calls so far in their order. -/
structure Channel where
  oflag : UInt32
  queue : TtyQueue
  writer : Writer
  supplied : List UInt8
  put : List UInt8
  crPut : Bool

/-- The terminals, with the static variable of `tty_write`. -/
structure Ttys where
  crFlag : Bool
  chan : Fin 3 → Channel

inductive WriteAction where
  /-- A task calls `tty_write`.  The driver sends `sent` bytes at once. -/
  | call (ch : Fin 3) (bytes : List UInt8) (sent : ℕ)
  /-- The writer gets the processor again. -/
  | resume (ch : Fin 3) (sent : ℕ)
  /-- The device sends bytes. -/
  | drain (ch : Fin 3) (sent : ℕ)

namespace Ttys

variable (below : UInt8 → Bool)

/-- The inner loop for a channel and what follows it. -/
def loop (s : Ttys) (ch : Fin 3) (c : Channel) (rest : List UInt8) (sent : ℕ) : Ttys :=
  let f := Filling.fill below c.oflag TTY_BUF_SIZE ⟨s.crFlag, c.queue, rest, c.put, c.crPut⟩
  let writer := if f.rest = [] then .idle else .scheduled f.rest
  let queue := TtyQueue.sent f.queue sent
  ⟨f.crFlag, Function.update s.chan ch { c with queue, writer, put := f.put, crPut := f.crPut }⟩

/-- The head of the outer loop with `rest` to write. -/
def enter (s : Ttys) (ch : Fin 3) (c : Channel) (rest : List UInt8) (sent : ℕ) : Ttys :=
  if rest = [] then { s with chan := Function.update s.chan ch { c with writer := .idle } }
  else if c.queue.full then
    { s with chan := Function.update s.chan ch { c with writer := .sleeping rest } }
  else s.loop below ch c rest sent

/-- A channel has one writer at a time; without signals a writer in
`sleep_if_full` goes on when 128 bytes are free. -/
def step (s : Ttys) : WriteAction → Ttys
  | .call ch bytes sent =>
      let c := s.chan ch
      match c.writer with
      | .idle => s.enter below ch { c with supplied := c.supplied ++ bytes } bytes sent
      | _ => s
  | .resume ch sent =>
      let c := s.chan ch
      match c.writer with
      | .idle => s
      | .sleeping rest =>
          if c.queue.left.val < 128 then s else s.loop below ch c rest sent
      | .scheduled rest => s.enter below ch c rest sent
  | .drain ch sent =>
      let c := s.chan ch
      { s with chan := Function.update s.chan ch { c with queue := TtyQueue.sent c.queue sent } }

/-- All channels have `OPOST` and `ONLCR` set, and nothing has been written yet. -/
def init (queue : Fin 3 → TtyQueue) : Ttys where
  crFlag := false
  chan := fun ch => ⟨OPOST ||| ONLCR, queue ch, .idle, [], [], false⟩

end Ttys

/-! ## What the output should be -/

/-- One carriage return before every newline. -/
def translate (bytes : List UInt8) : List UInt8 :=
  bytes.flatMap fun c => if c = 10 then [13, 10] else [c]

/-- What is still to come when `rest` is left. -/
def toCome (crPut : Bool) (rest : List UInt8) : List UInt8 :=
  if crPut then (translate rest).tail else translate rest

/-- On every channel the bytes that were put are the translation of what was
written, up to where its writer is. -/
def Ttys.Translated (s : Ttys) : Prop :=
  ∀ ch, (s.chan ch).put <+: translate (s.chan ch).supplied ∧
    ((s.chan ch).writer = .idle → (s.chan ch).put = translate (s.chan ch).supplied)

/-- The writer of the channel that this action lets into the inner loop, and the
bytes it has left. -/
def Ttys.entering (s : Ttys) : WriteAction → Option (Channel × List UInt8)
  | .call ch bytes _ =>
      match (s.chan ch).writer with
      | .idle => if (s.chan ch).queue.full then none else some (s.chan ch, bytes)
      | _ => none
  | .resume ch _ =>
      match (s.chan ch).writer with
      | .idle => none
      | .sleeping rest => if (s.chan ch).queue.left.val < 128 then none else some (s.chan ch, rest)
      | .scheduled rest => if (s.chan ch).queue.full then none else some (s.chan ch, rest)
  | .drain _ _ => none

/-- A writer whose next byte is a newline finds `cr_flag` as it left it. -/
def Ttys.OwnFlag (s : Ttys) (a : WriteAction) : Prop :=
  ∀ e ∈ s.entering a, e.2.head? = some 10 → s.crFlag = e.1.crPut

/-! ## The rounds of the inner loop -/

@[simp] theorem translate_nil : translate [] = [] := rfl

theorem translate_newline (rest : List UInt8) : translate (10 :: rest) = 13 :: 10 :: translate rest :=
  rfl

theorem translate_cons {c : UInt8} (hc : c ≠ 10) (rest : List UInt8) :
    translate (c :: rest) = c :: translate rest := by
  simp [translate, hc]

theorem translate_append (xs ys : List UInt8) : translate (xs ++ ys) = translate xs ++ translate ys :=
  List.flatMap_append

namespace Filling

variable {below : UInt8 → Bool} {f : Filling} {rest total : List UInt8}

theorem putByte_newline (h : f.rest = 10 :: rest) :
    f.putByte below (OPOST ||| ONLCR) =
      if f.crFlag then f.advance 10 rest else putch { f with crFlag := true, crPut := true } 13 := by
  have hpost : flag (OPOST ||| ONLCR) OPOST = true := by decide
  have hcrnl : flag (OPOST ||| ONLCR) OCRNL = false := by decide
  have hnlret : flag (OPOST ||| ONLCR) ONLRET = false := by decide
  have hnlcr : flag (OPOST ||| ONLCR) ONLCR = true := by decide
  have hlcuc : flag (OPOST ||| ONLCR) OLCUC = false := by decide
  cases hcr : f.crFlag <;> simp [putByte, h, hpost, hcrnl, hnlret, hnlcr, hlcuc, hcr]

theorem putByte_other {c : UInt8} (h : f.rest = c :: rest) (hc : c ≠ 10) :
    f.putByte below (OPOST ||| ONLCR) = f.advance c rest := by
  have hpost : flag (OPOST ||| ONLCR) OPOST = true := by decide
  have hcrnl : flag (OPOST ||| ONLCR) OCRNL = false := by decide
  have hlcuc : flag (OPOST ||| ONLCR) OLCUC = false := by decide
  simp [putByte, h, hpost, hcrnl, hlcuc, hc]

/-- The flag is the writer's own, and what was put and what is to come make up
the whole output. -/
structure Own (total : List UInt8) (f : Filling) : Prop where
  crPut : f.crPut = true → f.rest.head? = some 10
  crFlag : f.rest.head? = some 10 → f.crFlag = f.crPut
  total : f.put ++ toCome f.crPut f.rest = total

theorem Own.putByte (h : f.Own total) (hrest : f.rest ≠ []) :
    (f.putByte below (OPOST ||| ONLCR)).Own total := by
  obtain ⟨c, rest, hr⟩ := List.exists_cons_of_ne_nil hrest
  have htotal := h.total
  by_cases hc : c = 10
  · subst hc
    have hflag : f.crFlag = f.crPut := h.crFlag (by rw [hr]; rfl)
    rw [putByte_newline hr, hflag]
    cases hcr : f.crPut with
    | true =>
        refine ⟨fun h => (Bool.false_ne_true h).elim, fun _ => rfl, ?_⟩
        rw [hcr, hr] at htotal
        simpa [toCome, advance, putch, translate_newline] using htotal
    | false =>
        refine ⟨fun _ => by simp [putch, hr], fun _ => rfl, ?_⟩
        rw [hcr, hr] at htotal
        simpa [toCome, putch, hr, translate_newline] using htotal
  · rw [putByte_other hr hc]
    have hcr : f.crPut = false := by
      cases hcr : f.crPut with
      | false => rfl
      | true =>
          have := h.crPut hcr
          rw [hr] at this
          cases this
          exact absurd rfl hc
    refine ⟨fun h => (Bool.false_ne_true h).elim, fun _ => rfl, ?_⟩
    rw [hcr, hr] at htotal
    simpa [toCome, advance, putch, translate_cons hc] using htotal

theorem Own.fill (h : f.Own total) (n : ℕ) : (f.fill below (OPOST ||| ONLCR) n).Own total := by
  induction n generalizing f with
  | zero => exact h
  | succ n ih =>
      unfold Filling.fill
      split
      next => exact h
      next hgo => exact ih (h.putByte fun hrest => hgo (.inl hrest))

/-- Each round puts one byte. -/
theorem putByte_puts (oflag : UInt32) (hrest : f.rest ≠ []) : ∃ c,
    (f.putByte below oflag).put = f.put ++ [c] ∧ (f.putByte below oflag).queue = f.queue.put c := by
  obtain ⟨c, rest, hr⟩ := List.exists_cons_of_ne_nil hrest
  simp only [putByte, hr]
  generalize (if c = 13 ∧ flag oflag OCRNL = true then 10
    else if c = 10 ∧ flag oflag ONLRET = true then 13 else c) = d
  split
  next =>
    split
    next => exact ⟨_, rfl, rfl⟩
    next => exact ⟨_, rfl, rfl⟩
  next => exact ⟨_, rfl, rfl⟩

theorem put_prefix_fill (oflag : UInt32) (n : ℕ) : f.put <+: (f.fill below oflag n).put := by
  induction n generalizing f with
  | zero => exact List.prefix_rfl
  | succ n ih =>
      unfold fill
      split
      next => exact List.prefix_rfl
      next hgo =>
        obtain ⟨c, hput, -⟩ := @putByte_puts below f oflag fun hrest => hgo (.inl hrest)
        exact (hput ▸ List.prefix_append f.put [c]).trans ih

/-- The loop ends because the bytes are all put or the queue is full. -/
theorem fill_stops (oflag : UInt32) {n : ℕ} (hn : f.queue.left.val < n) :
    (f.fill below oflag n).rest = [] ∨ (f.fill below oflag n).queue.full = true := by
  induction n generalizing f with
  | zero => omega
  | succ n ih =>
      unfold fill
      split
      next hstop => exact hstop
      next hgo =>
        have hfull : f.queue.full = false := by
          cases hf : f.queue.full with
          | false => rfl
          | true => exact absurd (.inr hf) hgo
        obtain ⟨c, -, hc⟩ := @putByte_puts below f oflag fun hrest => hgo (.inl hrest)
        refine ih ?_
        have h₁ := f.queue.chars_add_left
        have h₂ := (f.queue.put c).chars_add_left
        rw [RingQueue.chars_put hfull] at h₂
        rw [hc]
        omega

/-- With a flag that is not the writer's own, the first byte that is put for a
newline is the wrong one. -/
theorem not_prefix_fill {n : ℕ} (hrest : f.rest.head? = some 10) (hfull : f.queue.full = false)
    (hcr : f.crFlag ≠ f.crPut) (htotal : f.put ++ toCome f.crPut f.rest = total) :
    ¬(f.fill below (OPOST ||| ONLCR) (n + 1)).put <+: total := by
  obtain ⟨rest, hr⟩ : ∃ rest, f.rest = 10 :: rest := by
    cases hf : f.rest with
    | nil => simp [hf] at hrest
    | cons c rest =>
        simp only [hf, List.head?_cons, Option.some.injEq] at hrest
        exact ⟨rest, by rw [hrest]⟩
  have hgo : ¬(f.rest = [] ∨ f.queue.full = true) := by simp [hr, hfull]
  unfold fill
  rw [if_neg hgo]
  intro hpre
  have hfirst := (put_prefix_fill _ n).trans hpre
  rw [← htotal, putByte_newline hr, hr] at hfirst
  cases hflag : f.crFlag with
  | true =>
      have hput : f.crPut = false := by
        cases hp : f.crPut with
        | false => rfl
        | true => exact absurd (hflag.trans hp.symm) hcr
      rw [hflag, hput] at hfirst
      simp [advance, putch, toCome, translate_newline, List.prefix_append_right_inj] at hfirst
  | false =>
      have hput : f.crPut = true := by
        cases hp : f.crPut with
        | true => rfl
        | false => exact absurd (hflag.trans hp.symm) hcr
      rw [hflag, hput] at hfirst
      simp [putch, toCome, translate_newline, List.prefix_append_right_inj] at hfirst

end Filling

/-! ## Whole runs -/

/-- What was put on the channel and what its writer will put make up the
translation. -/
structure Channel.Sound (c : Channel) : Prop where
  oflag : c.oflag = OPOST ||| ONLCR
  crPut : c.crPut = true → c.writer.rest.head? = some 10
  total : c.put ++ toCome c.crPut c.writer.rest = translate c.supplied

namespace Ttys

variable {below : UInt8 → Bool} {s : Ttys} {ch : Fin 3} {c : Channel} {rest : List UInt8} {sent : ℕ}

def Sound (s : Ttys) : Prop := ∀ ch, (s.chan ch).Sound

theorem Sound.translated (h : s.Sound) : s.Translated := by
  intro ch
  have hch := h ch
  refine ⟨⟨_, hch.total⟩, fun hidle => ?_⟩
  have htotal := hch.total
  have hcr := hch.crPut
  rw [hidle] at htotal hcr
  cases hput : (s.chan ch).crPut with
  | true =>
      have := hcr hput
      cases this
  | false =>
      rw [hput] at htotal
      simpa [toCome, Writer.rest] using htotal

theorem Sound.update (h : s.Sound) (hc : c.Sound) (crFlag : Bool) :
    Sound ⟨crFlag, Function.update s.chan ch c⟩ := by
  intro k
  by_cases hk : k = ch
  · subst hk
    simpa using hc
  · simpa [hk] using h k

/-- A channel whose writer is about to put the bytes `rest`. -/
structure Ready (c : Channel) (rest : List UInt8) : Prop where
  oflag : c.oflag = OPOST ||| ONLCR
  crPut : c.crPut = true → rest.head? = some 10
  total : c.put ++ toCome c.crPut rest = translate c.supplied

theorem Channel.Sound.ready (h : c.Sound) : Ready c c.writer.rest := ⟨h.oflag, h.crPut, h.total⟩

/-- A new call on an idle channel. -/
theorem Channel.Sound.call (h : c.Sound) (hidle : c.writer = .idle) (bytes : List UInt8) :
    Ready { c with supplied := c.supplied ++ bytes } bytes := by
  have hcr : c.crPut = false := by
    cases hput : c.crPut with
    | false => rfl
    | true =>
        have := h.crPut hput
        rw [hidle] at this
        cases this
  refine ⟨h.oflag, fun h => by simp [hcr] at h, ?_⟩
  have htotal := h.total
  rw [hidle, hcr] at htotal
  simp only [toCome, Writer.rest, translate_nil, List.append_nil, Bool.false_eq_true,
    if_false] at htotal
  simp [toCome, hcr, htotal, translate_append]

theorem Sound.loop (h : s.Sound) (hc : Ready c rest)
    (hflag : rest.head? = some 10 → s.crFlag = c.crPut) : (s.loop below ch c rest sent).Sound := by
  have hown : Filling.Own (translate c.supplied) ⟨s.crFlag, c.queue, rest, c.put, c.crPut⟩ :=
    ⟨hc.crPut, hflag, hc.total⟩
  have hfill : Filling.Own (translate c.supplied) (Filling.fill below c.oflag TTY_BUF_SIZE
      ⟨s.crFlag, c.queue, rest, c.put, c.crPut⟩) := by
    rw [hc.oflag]
    exact hown.fill TTY_BUF_SIZE
  unfold Ttys.loop
  generalize Filling.fill below c.oflag TTY_BUF_SIZE
    ⟨s.crFlag, c.queue, rest, c.put, c.crPut⟩ = f at hfill
  dsimp only
  have hrest : (if f.rest = [] then Writer.idle else .scheduled f.rest).rest = f.rest := by
    split
    next hnil => rw [hnil]; rfl
    next => rfl
  refine h.update (c := { c with
    queue := _, writer := _, put := f.put, crPut := f.crPut }) ⟨hc.oflag, ?_, ?_⟩ f.crFlag
  · rw [hrest]
    exact hfill.crPut
  · rw [hrest]
    exact hfill.total

theorem Sound.enter (h : s.Sound) (hc : Ready c rest)
    (hflag : c.queue.full = false → rest.head? = some 10 → s.crFlag = c.crPut) :
    (s.enter below ch c rest sent).Sound := by
  unfold Ttys.enter
  split
  next hnil =>
    subst hnil
    exact h.update (c := { c with writer := .idle }) ⟨hc.oflag, hc.crPut, hc.total⟩ s.crFlag
  next =>
    cases hfull : c.queue.full with
    | true =>
        rw [if_pos rfl]
        exact h.update (c := { c with writer := .sleeping rest })
          ⟨hc.oflag, hc.crPut, hc.total⟩ s.crFlag
    | false =>
        rw [if_neg Bool.false_ne_true]
        exact h.loop hc (hflag hfull)

theorem Sound.step (h : s.Sound) {a : WriteAction} (hok : s.OwnFlag a) :
    (s.step below a).Sound := by
  cases a with
  | call ch bytes sent =>
      have hch := h ch
      simp only [OwnFlag, entering] at hok
      unfold Ttys.step
      cases hw : (s.chan ch).writer with
      | idle =>
          simp only [hw] at hok ⊢
          have hready := Channel.Sound.call hch hw bytes
          refine h.enter ⟨hready.oflag, hready.crPut, hready.total⟩ fun hfull hnl => ?_
          simp only [hfull, Bool.false_eq_true, if_false] at hok
          exact hok _ rfl hnl
      | sleeping rest => simpa only [hw] using h
      | scheduled rest => simpa only [hw] using h
  | resume ch sent =>
      have hready := Channel.Sound.ready (h ch)
      simp only [OwnFlag, entering] at hok
      unfold Ttys.step
      cases hw : (s.chan ch).writer with
      | idle => simpa only [hw] using h
      | sleeping rest =>
          rw [hw] at hready
          simp only [hw] at hok ⊢
          split
          next => exact h
          next hleft =>
            rw [if_neg hleft] at hok
            exact h.loop hready (hok _ rfl)
      | scheduled rest =>
          rw [hw] at hready
          simp only [hw] at hok ⊢
          refine h.enter hready fun hfull hnl => ?_
          simp only [hfull, Bool.false_eq_true, if_false] at hok
          exact hok _ rfl hnl
  | drain ch sent =>
      have hch := h ch
      exact h.update (c := { s.chan ch with queue := TtyQueue.sent (s.chan ch).queue sent })
        ⟨hch.oflag, hch.crPut, hch.total⟩ s.crFlag

theorem not_translated_loop (hc : Ready c rest) (hnl : rest.head? = some 10)
    (hfull : c.queue.full = false) (hflag : s.crFlag ≠ c.crPut) :
    ¬(s.loop below ch c rest sent).Translated := by
  intro hP
  have hpre := (hP ch).1
  unfold Ttys.loop at hpre
  rw [hc.oflag] at hpre
  simp only [Function.update_self] at hpre
  exact Filling.not_prefix_fill (f := ⟨s.crFlag, c.queue, rest, c.put, c.crPut⟩) (n := 1023)
    hnl hfull hflag hc.total hpre

theorem not_translated_enter (hc : Ready c rest) (hnl : rest.head? = some 10)
    (hfull : c.queue.full = false) (hflag : s.crFlag ≠ c.crPut) :
    ¬(s.enter below ch c rest sent).Translated := by
  have hne : rest ≠ [] := by
    rintro rfl
    cases hnl
  unfold Ttys.enter
  rw [if_neg hne, hfull, if_neg Bool.false_ne_true]
  exact not_translated_loop hc hnl hfull hflag

/-- A writer that meets another's flag puts a wrong byte at once. -/
theorem not_translated_step (h : s.Sound) {a : WriteAction} (hok : ¬s.OwnFlag a) :
    ¬(s.step below a).Translated := by
  unfold OwnFlag at hok
  push Not at hok
  obtain ⟨⟨c, rest⟩, hin, hnl, hflag⟩ := hok
  cases a with
  | call ch bytes sent =>
      have hch := h ch
      simp only [entering] at hin
      unfold Ttys.step
      cases hw : (s.chan ch).writer with
      | idle =>
          simp only [hw] at hin ⊢
          cases hfull : (s.chan ch).queue.full with
          | true => simp [hfull] at hin
          | false =>
              simp only [hfull, Bool.false_eq_true, if_false, Option.mem_some_iff] at hin
              cases hin
              have hready := Channel.Sound.call hch hw rest
              exact not_translated_enter ⟨hready.oflag, hready.crPut, hready.total⟩ hnl hfull hflag
      | sleeping rest => simp [hw] at hin
      | scheduled rest => simp [hw] at hin
  | resume ch sent =>
      have hready := Channel.Sound.ready (h ch)
      simp only [entering] at hin
      unfold Ttys.step
      cases hw : (s.chan ch).writer with
      | idle => simp [hw] at hin
      | sleeping rest' =>
          rw [hw] at hready
          simp only [hw] at hin ⊢
          split at hin
          next => cases hin
          next hleft =>
            cases hin
            rw [if_neg hleft]
            have hfull : (s.chan ch).queue.full = false := by
              cases hf : (s.chan ch).queue.full with
              | false => rfl
              | true =>
                  have : (s.chan ch).queue.left = 0 := by simpa [RingQueue.full] using hf
                  rw [this] at hleft
                  exact absurd (by decide) hleft
            exact not_translated_loop hready hnl hfull hflag
      | scheduled rest' =>
          rw [hw] at hready
          simp only [hw] at hin ⊢
          cases hfull : (s.chan ch).queue.full with
          | true => simp [hfull] at hin
          | false =>
              simp only [hfull, Bool.false_eq_true, if_false, Option.mem_some_iff] at hin
              cases hin
              exact not_translated_enter hready hnl hfull hflag
  | drain ch sent => simp [entering] at hin

theorem init_sound (queue : Fin 3 → TtyQueue) : (init queue).Sound :=
  fun _ => ⟨rfl, fun h => Bool.noConfusion h, rfl⟩

/-- The output of every channel is the translation of what was written to it
exactly in the runs where no writer meets a flag that it did not leave. -/
theorem output_translated_iff (below : UInt8 → Bool) (queue : Fin 3 → TtyQueue)
    (as : List WriteAction) :
    Always (step below) Translated (init queue) as ↔
      EachStep (step below) OwnFlag (init queue) as :=
  have hvalid : EachStep (step below) (fun _ _ => True) (init queue) as :=
    EachStep.of_forall fun _ _ => trivial
  always_iff (fun _ => Sound.translated) (fun _ _ h _ hok => h.step hok)
    (fun _ _ h _ hok => not_translated_step h hok) (init_sound queue) hvalid

/-- The queue of channel 1 is full after the carriage return of a newline.  A
newline then written to channel 2 goes out without its carriage return. -/
theorem newline_without_return : ¬Always (step fun _ => false) Translated
    (init fun _ => TtyQueue.init)
    [.call 1 (List.replicate 1022 97 ++ [10]) 0, .call 2 [10] 0] := by
  intro h
  have hpre := (h.last 2).1
  generalize hs : List.foldl (step fun _ => false) (init fun _ => TtyQueue.init) _ = s at hpre
  have hput : (s.chan 2).put = [10] := by
    rw [← hs]
    decide +kernel
  have hsupplied : (s.chan 2).supplied = [10] := by
    rw [← hs]
    decide +kernel
  rw [hput, hsupplied] at hpre
  exact absurd hpre (by decide)

end Ttys

end MyJavaExample.Tty
