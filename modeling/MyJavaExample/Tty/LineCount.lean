import MyJavaExample.Tty.Cooked

/-!
# The count of line ends

`secondary.data` is the number of line ends in the secondary queue, together
with those that a call of `copy_to_cooked` has counted and is still to store.
Two things in the code can break this: `tty_ioctl` changes which bytes are line
ends without looking at the queue, and the comparison of a signed character
with the end-of-file character fails from 128 on.  A third needs a driver that
answers while it echoes: the queue that `copy_to_cooked` finds after its echo
is not the one it looked at before.
-/

namespace MyJavaExample.Tty

open Lib

/-! ## Line ends -/

/-- A newline or the end-of-file character. -/
def isEnd (eof c : UInt8) : Bool := c = 10 ∨ c = eof

namespace TtyStruct

variable (t : TtyStruct)

/-- The number of line ends in the secondary queue, if `eof` were the end-of-file
character. -/
def linesFor (eof : UInt8) : ℕ := t.secondary.contents.countP (isEnd eof)

def lines : ℕ := t.linesFor (t.cc VEOF)

/-- The reader takes a byte from the secondary queue when it goes on. -/
def takes (signal : UInt32) : Reader → Prop
  | .idle _ => False
  | .top r => r.nr ≠ 0 ∧ signal = 0 ∧
      (t.secondary.empty || (t.lFlag ICANON && t.data == 0 && 20 < t.secondary.left.val)) = false
  | .putting _ r => r.nr - 1 ≠ 0 ∧ t.secondary.empty = false

end TtyStruct

/-- The end-of-file character after the command. -/
def Ioctl.eof (old : UInt8) : Ioctl → UInt8
  | .TCSETS termios => termios.cc VEOF
  | .TCSETSW termios => termios.cc VEOF
  | .TCSETSF termios => termios.cc VEOF
  | .TCSETA termio => termio.cc 4
  | .TCSETAW termio => termio.cc 4
  | .TCSETAF termio => termio.cc 4
  | .TCFLSH _ => old

/-- A call that has counted a line end and not stored it yet. -/
def Frame.counted (eof : UInt8) : Frame → Bool
  | .storing c => isEnd eof c
  | _ => false

/-- What a call of `copy_to_cooked` has to meet in its next step.  A byte from 128
on that is the end-of-file character is not stored; after an echo there is still
room to store, or a byte of the line to take back. -/
def TtyStruct.KeepsFrame (below : UInt8 → Bool) (t : TtyStruct) : Frame → Prop
  | .loop => t.readQ.empty = false → t.secondary.full = false →
      ∀ c, t.input below t.readQ.get.1 = some c → 128 ≤ c → c ≠ t.cc VEOF
  | .kill => True
  | .killing => t.secondary.empty = false ∧ isEnd (t.cc VEOF) t.secondary.last = false
  | .erasing => t.secondary.empty = false ∧ isEnd (t.cc VEOF) t.secondary.last = false
  | .storing _ => t.secondary.full = false

instance (below : UInt8 → Bool) (t : TtyStruct) : DecidablePred (t.KeepsFrame below)
  | .loop =>
      have : Decidable (∀ c ∈ t.input below t.readQ.get.1, 128 ≤ c → c ≠ t.cc VEOF) :=
        Option.decidableForallMem _
      inferInstanceAs (Decidable (t.readQ.empty = false → t.secondary.full = false →
        ∀ c ∈ t.input below t.readQ.get.1, 128 ≤ c → c ≠ t.cc VEOF))
  | .kill => inferInstanceAs (Decidable True)
  | .killing => inferInstanceAs (Decidable (_ ∧ _))
  | .erasing => inferInstanceAs (Decidable (_ ∧ _))
  | .storing _ => inferInstanceAs (Decidable (_ = _))

instance (t : TtyStruct) (signal : UInt32) : DecidablePred (t.takes signal)
  | .idle _ => inferInstanceAs (Decidable False)
  | .top _ => inferInstanceAs (Decidable (_ ∧ _ ∧ _))
  | .putting _ _ => inferInstanceAs (Decidable (_ ∧ _))

namespace Line

variable {τ : Type} [DecidableEq τ]

/-- Between the interrupts the count is right; in particular it has not wrapped
below 0. -/
def Counted (s : Line τ) : Prop := s.stack = [] → s.tty.data.toNat = s.tty.lines

/-- What a step has to meet for the count to stay right.  Besides the steps of
`copy_to_cooked`: a byte from 128 on that is the end-of-file character is not
read, and new settings leave the number of line ends in the queue as it is. -/
def Keeps (below : UInt8 → Bool) (s : Line τ) : LineAction τ → Prop
  | .cook _ => ∀ frame, s.stack.head? = some frame → s.tty.KeepsFrame below frame
  | .resume task signal _ => s.stack = [] → s.tty.takes signal (s.reader task) →
      128 ≤ s.tty.secondary.get.1 → s.tty.secondary.get.1 ≠ s.tty.cc VEOF
  | .ioctl cmd => s.stack = [] → s.tty.linesFor (cmd.eof (s.tty.cc VEOF)) = s.tty.lines
  | _ => True

instance (below : UInt8 → Bool) (s : Line τ) : DecidablePred (s.Keeps below)
  | .cook _ =>
      have : Decidable (∀ frame ∈ s.stack.head?, s.tty.KeepsFrame below frame) :=
        Option.decidableForallMem _
      this
  | .resume _ _ _ => inferInstanceAs (Decidable (_ → _ → _ → _))
  | .ioctl _ => inferInstanceAs (Decidable (_ → _))
  | .receive _ => inferInstanceAs (Decidable True)
  | .interrupt => inferInstanceAs (Decidable True)
  | .respond => inferInstanceAs (Decidable True)
  | .read _ _ _ _ => inferInstanceAs (Decidable True)

end Line

/-! ## One step -/

/-- The test of the code and the byte being a line end. -/
theorem TtyStruct.endsLine_eq {t : TtyStruct} {c : UInt8} (h : 128 ≤ c → c ≠ t.cc VEOF) :
    t.endsLine c = isEnd (t.cc VEOF) c := by
  unfold endsLine isEnd sameChar
  by_cases hc : c < 128
  · simp [hc]
  · have hne := h (UInt8.not_lt.1 hc)
    simp [hc, hne]

namespace TtyStruct

variable {t : TtyStruct} {c : UInt8} {sent : ℕ}

/-- What the count is about. -/
def counting (t : TtyStruct) : Termios × TtyQueue × UInt32 := (t.termios, t.secondary, t.data)

theorem counting_readQ (readQ : TtyQueue) : counting { t with readQ } = t.counting := rfl

theorem counting_respond : t.respond.counting = t.counting := by
  unfold TtyStruct.respond
  exact counting_readQ _

theorem cc_readQ (readQ : TtyQueue) (i : Fin 17) : cc { t with readQ } i = t.cc i := rfl

theorem cc_respond (i : Fin 17) : t.respond.cc i = t.cc i := by
  unfold TtyStruct.respond
  exact cc_readQ _ i

@[simp] theorem counting_echo : (t.echo c sent).counting = t.counting := by
  unfold echo
  split <;> rfl

@[simp] theorem counting_echoErase : (t.echoErase c sent).counting = t.counting := by
  unfold echoErase
  split <;> rfl

/-- The terminal is in order when `n` line ends are counted and not stored. -/
def InOrder (t : TtyStruct) (n : ℕ) : Prop := t.data = UInt32.ofNat (t.lines + n)

theorem InOrder.congr {t' : TtyStruct} {n : ℕ} (h : t.InOrder n) (heq : t'.counting = t.counting) :
    t'.InOrder n := by
  obtain ⟨h₁, h₂, h₃⟩ : t'.termios = t.termios ∧ t'.secondary = t.secondary ∧ t'.data = t.data := by
    simpa [counting] using heq
  simpa only [InOrder, lines, linesFor, cc, h₁, h₂, h₃] using h

theorem InOrder.accept {n : ℕ} (h : t.InOrder n) (hc : t.endsLine c = isEnd (t.cc VEOF) c) :
    (t.accept c sent).1.InOrder ((isEnd (t.cc VEOF) c).toNat + n) := by
  unfold TtyStruct.accept
  cases hend : isEnd (t.cc VEOF) c with
  | true =>
      have hcount : InOrder { t with data := t.data + 1 } (1 + n) := by
        unfold InOrder at h ⊢
        show t.data + 1 = UInt32.ofNat (t.lines + (1 + n))
        rw [h, ← Nat.add_assoc, Nat.add_right_comm, UInt32.ofNat_add (t.lines + n) 1]
        rfl
      rw [hc, hend]
      exact hcount.congr counting_echo
  | false =>
      rw [hc, hend]
      simpa using h.congr counting_echo

theorem InOrder.store {n : ℕ} (h : t.InOrder ((isEnd (t.cc VEOF) c).toNat + n))
    (hfull : t.secondary.full = false) :
    InOrder { t with secondary := t.secondary.put c } n := by
  have hlines : lines { t with secondary := t.secondary.put c } =
      t.lines + (isEnd (t.cc VEOF) c).toNat := by
    show ((t.secondary.put c).contents).countP (isEnd (t.cc VEOF)) = _
    rw [RingQueue.contents_put hfull, List.countP_append, List.countP_singleton]
    cases isEnd (t.cc VEOF) c <;> rfl
  unfold InOrder at h ⊢
  rw [hlines, Nat.add_assoc]
  exact h

theorem InOrder.unput {n : ℕ} (h : t.InOrder n) (hempty : t.secondary.empty = false)
    (hlast : isEnd (t.cc VEOF) t.secondary.last = false) :
    InOrder { t with secondary := t.secondary.unput } n := by
  have hlines : lines { t with secondary := t.secondary.unput } = t.lines := by
    show (t.secondary.unput.contents).countP (isEnd (t.cc VEOF)) =
      t.secondary.contents.countP (isEnd (t.cc VEOF))
    rw [RingQueue.contents_unput hempty, List.countP_append, List.countP_singleton, hlast]
    rfl
  unfold InOrder at h ⊢
  rw [hlines]
  exact h

/-- The frames of a call that goes on, of which at most one counts. -/
def pending (eof : UInt8) (frames : List Frame) : ℕ := frames.countP (Frame.counted eof)

theorem pending_storing (eof c : UInt8) : pending eof [.storing c] = (isEnd eof c).toNat := by
  unfold pending
  rw [List.countP_singleton]
  split
  next h => rw [show isEnd eof c = true from h]; rfl
  next h => rw [show isEnd eof c = false from Bool.eq_false_iff.2 h]; rfl

theorem InOrder.dispatch {n : ℕ} (h : t.InOrder n) (hc : t.endsLine c = isEnd (t.cc VEOF) c) :
    (t.dispatch c sent).1.InOrder (pending (t.cc VEOF) (t.dispatch c sent).2.toList + n) := by
  have hsame : ∀ t' : TtyStruct, t'.counting = t.counting → t'.InOrder (0 + n) := by
    intro t' heq
    rw [Nat.zero_add]
    exact h.congr heq
  unfold TtyStruct.dispatch
  split
  next => exact hsame t rfl
  split
  next =>
    split
    next => exact hsame t rfl
    next => exact hsame _ counting_echoErase
  split
  next => exact hsame _ rfl
  split
  next => exact hsame _ rfl
  split
  next => exact hsame t rfl
  split
  next => exact hsame t rfl
  show (t.accept c sent).1.InOrder (pending (t.cc VEOF) [.storing c] + n)
  rw [pending_storing]
  exact h.accept hc

theorem termios_accept : (t.accept c sent).1.termios = t.termios := by
  refine (congrArg Prod.fst counting_echo : _ = _).trans ?_
  split
  next => rfl
  next => rfl

theorem termios_dispatch : (t.dispatch c sent).1.termios = t.termios := by
  unfold TtyStruct.dispatch
  split
  next => rfl
  split
  next =>
    split
    next => rfl
    next => exact congrArg Prod.fst counting_echoErase
  split
  next => rfl
  split
  next => rfl
  split
  next => rfl
  split
  next => rfl
  next => exact termios_accept

variable {below : UInt8 → Bool} {f : Frame}

theorem termios_cook : (t.cook below sent f).1.termios = t.termios := by
  cases f with
  | loop =>
      simp only [TtyStruct.cook]
      split
      next => rfl
      next =>
        split
        next => rfl
        next => exact termios_dispatch
  | kill =>
      simp only [TtyStruct.cook]
      split
      next => rfl
      next => exact congrArg Prod.fst (@counting_echoErase t _ sent)
  | killing => rfl
  | erasing => rfl
  | storing c => rfl

theorem InOrder.cook {n : ℕ} (h : t.InOrder (pending (t.cc VEOF) [f] + n))
    (hkeep : t.KeepsFrame below f) :
    (t.cook below sent f).1.InOrder
      (pending (t.cc VEOF) (t.cook below sent f).2.toList + n) := by
  cases f with
  | loop =>
      have hzero : t.InOrder n := by simpa [pending, Frame.counted] using h
      simp only [TtyStruct.cook]
      split
      next => simpa [pending] using hzero
      next hgo =>
        have hread : t.readQ.empty = false := by
          cases he : t.readQ.empty <;> simp_all
        have hfull : t.secondary.full = false := by
          cases he : t.secondary.full <;> simp_all
        have hread' : InOrder { t with readQ := t.readQ.get.2 } n := hzero.congr rfl
        split
        next => simpa [pending, Frame.counted] using hread'
        next c hc => exact hread'.dispatch (endsLine_eq (hkeep hread hfull c hc))
  | kill =>
      have hzero : t.InOrder n := by simpa [pending, Frame.counted] using h
      simp only [TtyStruct.cook]
      split
      next => simpa [pending, Frame.counted] using hzero
      next => simpa [pending, Frame.counted] using hzero.congr counting_echoErase
  | killing =>
      have hzero : t.InOrder n := by simpa [pending, Frame.counted] using h
      simpa [TtyStruct.cook, pending, Frame.counted] using hzero.unput hkeep.1 hkeep.2
  | erasing =>
      have hzero : t.InOrder n := by simpa [pending, Frame.counted] using h
      simpa [TtyStruct.cook, pending, Frame.counted] using hzero.unput hkeep.1 hkeep.2
  | storing c =>
      have hone : t.InOrder ((isEnd (t.cc VEOF) c).toNat + n) := by
        rwa [pending_storing] at h
      simpa [TtyStruct.cook, pending, Frame.counted] using hone.store hkeep

theorem take_fst (r : ReadCall) : (t.take r).1 = { t with
    secondary := t.secondary.get.2
    data := if t.endsLine t.secondary.get.1 then t.data - 1 else t.data } := by
  unfold TtyStruct.take
  dsimp only
  generalize (if t.endsLine t.secondary.get.1 = true then t.data - 1 else t.data) = data
  split
  next => rfl
  next => rfl

theorem InOrder.take (h : t.InOrder 0) (r : ReadCall) (hempty : t.secondary.empty = false)
    (hc : 128 ≤ t.secondary.get.1 → t.secondary.get.1 ≠ t.cc VEOF) :
    (t.take r).1.InOrder 0 := by
  have hlines : t.lines = t.secondary.get.2.contents.countP (isEnd (t.cc VEOF)) +
      (isEnd (t.cc VEOF) t.secondary.get.1).toNat := by
    show t.secondary.contents.countP (isEnd (t.cc VEOF)) = _
    rw [RingQueue.contents_get hempty, List.countP_cons]
    cases h : isEnd (t.cc VEOF) t.secondary.get.1 <;> simp
  unfold InOrder at h
  rw [take_fst, endsLine_eq hc, h, hlines]
  show _ = UInt32.ofNat (t.secondary.get.2.contents.countP (isEnd (t.cc VEOF)))
  cases isEnd (t.cc VEOF) t.secondary.get.1 with
  | true =>
      rw [if_pos rfl, Nat.add_zero, UInt32.ofNat_add]
      exact UInt32.add_sub_cancel _ _
  | false => rfl

/-- A reader takes a byte or leaves the terminal alone. -/
theorem resumeRead_cases (signal : UInt32) (jiffies : ℕ) (r : Reader) :
    (t.resumeRead signal jiffies r).1 = t ∨ (t.takes signal r ∧ t.secondary.empty = false ∧
      ∃ r', (t.resumeRead signal jiffies r).1 = (t.take r').1) := by
  cases r with
  | idle result => exact .inl rfl
  | top r =>
      simp only [resumeRead, takes]
      split
      next => exact .inl rfl
      next hnr =>
        split
        next => exact .inl rfl
        next =>
          split
          next => exact .inl rfl
          next hsignal =>
            split
            next => exact .inl rfl
            next hgo =>
              have hgo := Bool.eq_false_iff.2 hgo
              have hempty := (Bool.or_eq_false_iff.1 hgo).1
              exact .inr ⟨⟨hnr, Classical.not_not.1 hsignal, hgo⟩, hempty, _, rfl⟩
  | putting c r =>
      simp only [resumeRead, takes]
      split
      next => exact .inl rfl
      next hgo =>
        have hnr : r.nr - 1 ≠ 0 := fun h => hgo (.inl h)
        have hempty : t.secondary.empty = false := Bool.eq_false_iff.2 fun h => hgo (.inr h)
        exact .inr ⟨⟨hnr, hempty⟩, hempty, _, rfl⟩

theorem ioctl_secondary (cmd : Ioctl) :
    (t.ioctl cmd).secondary = t.secondary ∧ (t.ioctl cmd).data = t.data ∧
      (t.ioctl cmd).cc VEOF = cmd.eof (t.cc VEOF) := by
  cases cmd with
  | TCFLSH arg =>
      simp only [TtyStruct.ioctl]
      split
      next => exact ⟨rfl, rfl, rfl⟩
      split
      next => exact ⟨rfl, rfl, rfl⟩
      split
      next => exact ⟨rfl, rfl, rfl⟩
      next => exact ⟨rfl, rfl, rfl⟩
  | _ => exact ⟨rfl, rfl, rfl⟩

theorem InOrder.ioctl (h : t.InOrder 0) {cmd : Ioctl}
    (hsame : t.linesFor (cmd.eof (t.cc VEOF)) = t.lines) : (t.ioctl cmd).InOrder 0 := by
  obtain ⟨hq, hd, heof⟩ := @ioctl_secondary t cmd
  have hlines : (t.ioctl cmd).lines = t.lines := by
    rw [← hsame, lines, linesFor, linesFor, hq, heof]
  unfold InOrder at h ⊢
  rw [hd, hlines, h]

end TtyStruct

/-! ## Whole runs -/

namespace Line

open TtyStruct

variable {τ : Type} {s : Line τ}

/-- The count is that of the queue and of the calls in progress. -/
def Sound (s : Line τ) : Prop := s.tty.InOrder (pending (s.tty.cc VEOF) s.stack)

theorem Sound.counted (h : s.Sound) : s.Counted := by
  intro hstack
  unfold Sound at h
  rw [hstack] at h
  unfold InOrder at h
  rw [h]
  have hle : s.tty.lines ≤ s.tty.secondary.chars.val := by
    rw [← @RingQueue.length_contents _ _ _ s.tty.secondary]
    exact List.countP_le_length
  have hlt : s.tty.secondary.chars.val < 1024 := s.tty.secondary.chars.isLt
  exact UInt32.toNat_ofNat_of_lt (Nat.lt_of_le_of_lt hle (Nat.lt_trans hlt (by decide)))

theorem pending_append (eof : UInt8) (xs ys : List Frame) :
    pending eof (xs ++ ys) = pending eof xs + pending eof ys := List.countP_append

theorem init_sound (termios : Termios) : (init termios : Line τ).Sound := rfl

variable [DecidableEq τ] {below : UInt8 → Bool}

theorem Sound.step (h : s.Sound) {a : LineAction τ} (hok : s.Keeps below a) :
    (s.step below a).Sound := by
  unfold Sound at h
  cases a with
  | receive c =>
      simp only [Line.step]
      split
      next => exact h
      next => exact h.congr rfl
  | interrupt =>
      simp only [Line.step]
      split
      next hstack =>
        rw [hstack] at h
        exact h
      next => exact h
  | cook sent =>
      cases hstack : s.stack with
      | nil =>
          simpa only [Line.step, hstack, Sound] using h
      | cons frame stack =>
          rw [hstack] at h
          have hframe : s.tty.KeepsFrame below frame := hok frame (by rw [hstack]; rfl)
          have hsplit : pending (s.tty.cc VEOF) (frame :: stack) =
              pending (s.tty.cc VEOF) [frame] + pending (s.tty.cc VEOF) stack :=
            pending_append _ [frame] stack
          rw [hsplit] at h
          have hcook := @InOrder.cook s.tty sent below frame _ h hframe
          have hcc : (s.tty.cook below sent frame).1.cc VEOF = s.tty.cc VEOF := by
            unfold TtyStruct.cc
            rw [termios_cook]
          simp only [Line.step, Sound, hstack]
          rw [pending_append, hcc]
          exact hcook
  | respond =>
      cases hstack : s.stack with
      | nil =>
          simpa only [Line.step, hstack, Sound] using h
      | cons frame stack =>
          rw [hstack] at h
          simp only [Line.step, Sound, hstack]
          split
          next =>
            have hloop : pending (s.tty.cc VEOF) (.loop :: frame :: stack) =
                pending (s.tty.cc VEOF) (frame :: stack) :=
              List.countP_cons_of_neg Bool.false_ne_true
            rw [cc_respond, hloop]
            exact h.congr counting_respond
          next =>
            rw [hstack]
            exact h
  | read task nr oldalarm jiffies =>
      simp only [Line.step]
      split
      next => exact h
      next => exact h
  | resume task signal jiffies =>
      cases hstack : s.stack with
      | nil =>
          rw [hstack] at h
          simp only [Line.step, Sound, hstack]
          rcases @resumeRead_cases s.tty signal jiffies (s.reader task) with
            heq | ⟨htakes, hempty, r, heq⟩
          · rw [heq]
            exact h
          · rw [heq]
            exact InOrder.take h r hempty (hok hstack htakes)
      | cons frame stack =>
          simpa only [Line.step, hstack, Sound] using h
  | ioctl cmd =>
      cases hstack : s.stack with
      | nil =>
          rw [hstack] at h
          simp only [Line.step, Sound, hstack]
          exact InOrder.ioctl h (hok hstack)
      | cons frame stack =>
          simpa only [Line.step, hstack, Sound] using h

/-- The count of line ends is right all along a run in which no step meets one of
the three defects. -/
theorem lines_counted (below : UInt8 → Bool) (termios : Termios) (as : List (LineAction τ))
    (h : EachStep (step below) (Keeps below) (init termios) as) :
    Always (step below) Counted (init termios) as :=
  h.always (fun _ hs => hs.counted) (fun _ _ hs hok => hs.step hok) (init_sound termios)

/-- The settings of the console. -/
def consoleTermios : Termios where
  iflag := ICRNL
  oflag := OPOST ||| ONLCR
  cflag := 0
  lflag := ISIG ||| ICANON ||| ECHO ||| ECHOCTL ||| ECHOKE
  line := 0
  cc := INIT_C_CC

/-- A line is typed and read. -/
theorem lines_counted_line :
    let as := [.receive 10, .interrupt, .cook 0, .cook 0, .cook 0, .read () 1 0 0, .resume () 0 0,
      .resume () 0 0]
    EachStep (step fun _ => false) (Keeps fun _ => false) (init consoleTermios : Line Unit) as ∧
      Always (step fun _ => false) Counted (init consoleTermios : Line Unit) as := by
  intro as
  have h : EachStep (step fun _ => false) (Keeps fun _ => false)
      (init consoleTermios : Line Unit) as := by decide +kernel
  exact ⟨h, lines_counted _ _ _ h⟩

/-- A byte waits in the queue when it is made the end-of-file character.  The
count is too low, and wraps below 0 when the byte is read. -/
theorem count_wraps :
    let as := [.receive 97, .interrupt, .cook 0, .cook 0, .cook 0,
      .ioctl (.TCSETS { consoleTermios with lflag := 0, cc := Function.update INIT_C_CC VEOF 97 }),
      .read () 1 0 0, .resume () 0 0]
    ¬Always (step fun _ => false) Counted (init consoleTermios : Line Unit) as ∧
      (as.foldl (step fun _ => false) (init consoleTermios : Line Unit)).tty.data.toNat =
        2 ^ 32 - 1 := by
  intro as
  have hdata : (as.foldl (step fun _ => false) (init consoleTermios : Line Unit)).tty.data.toNat =
      2 ^ 32 - 1 := by decide +kernel
  refine ⟨fun h => ?_, hdata⟩
  have hlast := h.last (by decide +kernel)
  rw [hdata] at hlast
  revert hlast
  decide +kernel

end Line

end MyJavaExample.Tty
