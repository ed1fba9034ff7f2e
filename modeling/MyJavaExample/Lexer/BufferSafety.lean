import MyJavaExample.Lexer.Refinement
import MyJavaExample.Lib.Run

/-!
# The indices of the buffer

A `Session` is an analyzer that is used again and again: `init` may be called with
a new stream, and a call of `parseToken` is taken one turn of its loop at a time,
so that the states in which `getNextCh` is called are states of the session
(`parseToken_turns`).  `accesses` lists the indices at which a step touches the
buffer.

Two things take `forward` out of the buffer.  A refill moves it back by half of
the buffer wherever the mark was found, which is too much if a short read left the
mark in the left half.  And a call that starts behind the last mark reads what an
earlier fill left there, up to the end of the buffer.  A session without these
two stays inside (`session_safe`).
-/

namespace MyJavaExample.Lexer

open Java Lib

namespace LexicalAnalyzer

/-- A new analyzer.  Its stream is null and not read: the buffer has no mark. -/
def new : LexicalAnalyzer where
  inputStream := .ofBytes []
  buffer := fun _ => 0
  begin := 0
  forward := 0

/-- `init` on an analyzer that may have been used: what the buffer held stays
behind the new mark. -/
def reinit (a : LexicalAnalyzer) (inputStream : InputStream) :
    Except JExn Unit × LexicalAnalyzer :=
  let a := { a with begin := 0, forward := 0, inputStream }
  if inputStream.avail inputStream.rest.length ≤ 0 then
    (.error (.illegalArgument "InputStream length is not > 0"), a)
  else
    match inputStream.read (BUFFER_TOTAL_SIZE - 1) with
    | (none, inputStream) => (.error .arrayIndexOutOfBounds, { a with inputStream })
    | (some bs, inputStream) =>
        (.ok (), { a with inputStream, buffer := (a.buffer.store 0 bs).set bs.length EOF })

/-- On a new analyzer this is `init`. -/
theorem reinit_new (s : InputStream) : init s = (new.reinit s).1.map fun _ => (new.reinit s).2 := by
  unfold init reinit
  split
  · rfl
  · rcases s.read (BUFFER_TOTAL_SIZE - 1) with ⟨_ | bs, s'⟩ <;> rfl

theorem reinit_pointers (a : LexicalAnalyzer) (s : InputStream) :
    (a.reinit s).2.begin = 0 ∧ (a.reinit s).2.forward = 0 := by
  unfold reinit
  split
  · exact ⟨rfl, rfl⟩
  · rcases s.read (BUFFER_TOTAL_SIZE - 1) with ⟨_ | bs, s'⟩ <;> exact ⟨rfl, rfl⟩

end LexicalAnalyzer

/-! ## Sessions -/

/-- An analyzer, and the machines of the call of `parseToken` that is under way. -/
structure Session where
  analyzer : LexicalAnalyzer
  call : Option (List StateMachine)

/-- What happens next: a call of `init`, a call of `parseToken`, or one turn of its
loop. -/
inductive Action where
  | init (s : InputStream)
  | parseToken
  | turn

namespace Session

open LexicalAnalyzer

def new : Session := ⟨.new, none⟩

/-- One turn of the loop of `parseToken`. -/
def turn (a : LexicalAnalyzer) (ms : List StateMachine) : Session :=
  match getNextCh a with
  | (.error _, a) => ⟨a, none⟩
  | (.ok ch, a) =>
      let ms := moveAllStateMachine ch ms
      if allStateMachineFinish ms then
        match peekFinalSM ms with
        | none => ⟨a, none⟩
        | some _ => ⟨source.retract a, none⟩
      else if ch = EOF then ⟨a, none⟩
      else ⟨a, some ms⟩

/-- A step that is not possible now changes nothing. -/
def next (c : Session) : Action → Session
  | .init s =>
      match c.call with
      | none => ⟨(c.analyzer.reinit s).2, none⟩
      | some _ => c
  | .parseToken =>
      match c.call with
      | none => ⟨c.analyzer, some (resetAll stateMachines)⟩
      | some _ => c
  | .turn =>
      match c.call with
      | none => c
      | some ms => turn c.analyzer ms

/-- The loop of `parseToken` is a number of turns. -/
theorem turns_parseToken {fuel : ℕ} {ms : List StateMachine} {a : LexicalAnalyzer}
    (h : (source.parseLoop fuel ms a).1 ≠ .running) :
    ∃ n, (List.replicate n Action.turn).foldl next ⟨a, some ms⟩ =
      ⟨(source.parseLoop fuel ms a).2, none⟩ := by
  induction fuel generalizing ms a with
  | zero => exact absurd rfl h
  | succ fuel ih =>
      rw [Source.parseLoop] at h ⊢
      have hturn : next ⟨a, some ms⟩ .turn = turn a ms := rfl
      rcases hch : source.getNextCh a with ⟨e | ch, a'⟩
      · have hget : getNextCh a = (.error e, a') := hch
        exact ⟨1, by simp [hturn, turn, hget]⟩
      · have hget : getNextCh a = (.ok ch, a') := hch
        simp only [hch] at h ⊢
        by_cases hfinish : allStateMachineFinish (moveAllStateMachine ch ms) = true
        · refine ⟨1, ?_⟩
          cases hsm : peekFinalSM (moveAllStateMachine ch ms) <;>
            simp [hturn, turn, hget, hfinish, hsm]
        · by_cases hEOF : ch = EOF
          · subst hEOF
            exact ⟨1, by simp [hturn, turn, hget, hfinish]⟩
          · rw [if_neg hfinish, if_neg hEOF] at h
            obtain ⟨n, hn⟩ := ih h
            refine ⟨n + 1, ?_⟩
            rw [List.replicate_succ, List.foldl_cons, hturn, turn, hget]
            simpa [hfinish, hEOF] using hn

/-- A character that is not the mark takes `forward` one further from `begin`. -/
theorem getNextCh_lag {a a' : LexicalAnalyzer} {ch : UInt8} (h : getNextCh a = (.ok ch, a'))
    (hch : ch ≠ EOF) : a.forward - a.begin ≤ BUFFER_SIZE ∧
      a'.forward - a'.begin = a.forward - a.begin + 1 := by
  unfold getNextCh at h
  split at h
  next => cases h
  next hlag =>
    split at h
    · cases h
    · simp only at h
      split_ifs at h with hEOF
      · cases h
        exact absurd hEOF hch
      · cases h
        exact absurd rfl hch
      · cases h
        simp only
        omega

/-- The loop is not stopped by the bound on its turns. -/
theorem parseLoop_ne_running {fuel : ℕ} {ms : List StateMachine} {a : LexicalAnalyzer}
    (hpos : 0 < fuel) (hfuel : (BUFFER_SIZE : ℤ) + 1 < fuel + (a.forward - a.begin)) :
    (source.parseLoop fuel ms a).1 ≠ .running := by
  induction fuel generalizing ms a with
  | zero => cases hpos
  | succ fuel ih =>
      rw [Source.parseLoop]
      rcases hch : source.getNextCh a with ⟨e | ch, a'⟩
      · intro h
        cases h
      · simp only
        split_ifs with hfinish hEOF
        · cases peekFinalSM (moveAllStateMachine ch ms) with
          | none =>
              intro h
              cases h
          | some sm =>
              intro h
              cases h
        · intro h
          cases h
        · obtain ⟨hlag, hlag'⟩ := getNextCh_lag hch hEOF
          exact ih (by omega) (by omega)

/-- A call of `parseToken` is a number of turns. -/
theorem parseToken_turns {a : LexicalAnalyzer} (h : a.begin ≤ a.forward) :
    ∃ n, (Action.parseToken :: List.replicate n .turn).foldl next ⟨a, none⟩ =
      ⟨(source.parseToken a).2, none⟩ := by
  have hloop : (source.parseLoop (BUFFER_SIZE + 2) (resetAll stateMachines) a).1 ≠ .running :=
    parseLoop_ne_running (Nat.succ_pos _) (by omega)
  exact turns_parseToken hloop

/-! ## The indices of a step -/

/-- The result of `read`. -/
def readLength : Option (List UInt8) → ℤ
  | none => -1
  | some bs => bs.length

/-- The indices `getNextCh` uses.  Of a range of cells that is copied or read into,
the first and the last. -/
def chAccesses (a : LexicalAnalyzer) : List ℤ :=
  if a.forward - a.begin > BUFFER_SIZE then []
  else if a.buffer.get a.forward = .ok EOF ∧ a.inputStream.avail a.inputStream.rest.length > 0 then
    [a.forward, BUFFER_SIZE, BUFFER_TOTAL_SIZE - 2, 0, BUFFER_SIZE - 2, BUFFER_SIZE - 1,
      BUFFER_SIZE - 1 + readLength (a.inputStream.read BUFFER_SIZE).1]
  else [a.forward]

/-- The indices `init` uses. -/
def initAccesses (s : InputStream) : List ℤ :=
  if s.avail s.rest.length ≤ 0 then []
  else [0, BUFFER_TOTAL_SIZE - 2, readLength (s.read (BUFFER_TOTAL_SIZE - 1)).1]

def accesses (c : Session) : Action → List ℤ
  | .init s => if c.call.isNone then initAccesses s else []
  | .parseToken => []
  | .turn => if c.call.isNone then [] else chAccesses c.analyzer

/-- The step stays inside the buffer, and `begin` is not ahead of `forward` when
`getNextCh` is called. -/
def Safe (c : Session) (act : Action) : Prop :=
  (∀ i ∈ c.accesses act, 0 ≤ i ∧ i < BUFFER_TOTAL_SIZE) ∧
    (c.call.isSome = true → c.analyzer.begin ≤ c.analyzer.forward)

/-- The streams answer `available()` with zero at their end. -/
def Behaved (_ : Session) : Action → Prop
  | .init s => s.AvailableSound
  | _ => True

/-- A mark lies at `forward` or behind it. -/
def MarkAhead (a : LexicalAnalyzer) : Prop :=
  ∃ j < BUFFER_TOTAL_SIZE, a.forward ≤ j ∧ a.buffer j = EOF

/-- A refill finds the mark in the right half, or in the cell before it if no token
ends there. -/
def RefillRight (a : LexicalAnalyzer) (ms : List StateMachine) : Prop :=
  a.buffer.get a.forward = .ok EOF → a.inputStream.avail a.inputStream.rest.length > 0 →
    BUFFER_SIZE ≤ a.forward ∨
      a.forward = BUFFER_SIZE - 1 ∧ peekFinalSM (moveAllStateMachine EOF ms) = none

/-- No call starts behind the last mark, except in the left half, and every refill
finds its mark in the right half. -/
def Clear (c : Session) : Action → Prop
  | .init _ => True
  | .parseToken => c.call = none → c.analyzer.begin < BUFFER_SIZE ∨ MarkAhead c.analyzer
  | .turn => ∀ ms ∈ c.call, c.analyzer.forward - c.analyzer.begin ≤ BUFFER_SIZE →
      RefillRight c.analyzer ms

/-! ## The invariant -/

/-- The pointers are in order, and while a call is under way it is stopped before
the end of the buffer: by the length limit or by a mark. -/
structure Inside (c : Session) : Prop where
  nonneg : 0 ≤ c.analyzer.forward
  ordered : c.analyzer.begin ≤ c.analyzer.forward
  stopped : c.call.isSome = true → c.analyzer.begin < BUFFER_SIZE ∨ MarkAhead c.analyzer

theorem Inside.new : Inside new := ⟨le_rfl, le_rfl, nofun⟩

theorem Inside.forward_lt {c : Session} (h : Inside c) (hcall : c.call.isSome = true)
    (hlag : c.analyzer.forward - c.analyzer.begin ≤ BUFFER_SIZE) :
    c.analyzer.forward < BUFFER_TOTAL_SIZE := by
  rcases h.stopped hcall with hbegin | ⟨j, hj, hle, -⟩
  · unfold BUFFER_SIZE BUFFER_TOTAL_SIZE at *
    omega
  · omega

theorem readLength_read {s : InputStream} {len : ℕ} (hlen : 0 < len) (hne : s.rest ≠ []) :
    0 ≤ readLength (s.read len).1 ∧ readLength (s.read len).1 ≤ len := by
  rw [InputStream.read, if_neg hlen.ne', if_neg hne]
  refine ⟨Int.natCast_nonneg _, ?_⟩
  have hdelivered : s.delivered len ≤ len := by
    unfold InputStream.delivered
    omega
  have hle := List.length_take_le (s.delivered len) s.rest
  simp only [readLength]
  omega

theorem readLength_bounds (s : InputStream) {len : ℕ} (hlen : 0 < len) :
    -1 ≤ readLength (s.read len).1 ∧ readLength (s.read len).1 ≤ len := by
  rcases eq_or_ne s.rest [] with hnil | hne
  · rw [InputStream.read, if_neg hlen.ne', if_pos hnil]
    exact ⟨le_rfl, by simp only [readLength]; omega⟩
  · have hread := readLength_read hlen hne
    exact ⟨by omega, hread.2⟩

/-- The invariant keeps a step inside the buffer. -/
theorem Inside.safe {c : Session} (h : Inside c) {act : Action} (hbehaved : c.Behaved act) :
    c.Safe act := by
  refine ⟨fun i hi => ?_, fun _ => h.ordered⟩
  cases act with
  | init s =>
      simp only [accesses, initAccesses] at hi
      split_ifs at hi with hcall havail
      · cases hi
      · have hne : s.rest ≠ [] := by
          intro hnil
          rw [hnil] at havail
          exact havail (Nat.le_of_eq hbehaved)
        have hread := readLength_read (show 0 < BUFFER_TOTAL_SIZE - 1 by decide) hne
        simp only [List.mem_cons, List.not_mem_nil, or_false] at hi
        unfold BUFFER_TOTAL_SIZE at *
        omega
      · cases hi
  | parseToken => cases hi
  | turn =>
      simp only [accesses, chAccesses] at hi
      split_ifs at hi with hcall hlag hmark
      · cases hi
      · cases hi
      · have hread := readLength_bounds c.analyzer.inputStream (show 0 < BUFFER_SIZE by decide)
        have hlt := h.forward_lt (by simpa [Option.isSome_iff_ne_none] using hcall) (by omega)
        have hnonneg := h.nonneg
        simp only [List.mem_cons, List.not_mem_nil, or_false] at hi
        unfold BUFFER_TOTAL_SIZE BUFFER_SIZE at *
        omega
      · have hlt := h.forward_lt (by simpa [Option.isSome_iff_ne_none] using hcall) (by omega)
        rw [List.mem_singleton] at hi
        rw [hi]
        exact ⟨h.nonneg, hlt⟩

/-- The ways `getNextCh` ends when `forward` is inside the buffer. -/
theorem getNextCh_cases (a : LexicalAnalyzer)
    (hin : a.forward - a.begin ≤ BUFFER_SIZE → 0 ≤ a.forward ∧ a.forward < BUFFER_TOTAL_SIZE) :
    (∃ e, getNextCh a = (.error e, a)) ∨
    a.forward - a.begin ≤ BUFFER_SIZE ∧
      ((∃ ch, a.buffer a.forward.toNat = ch ∧ ch ≠ EOF ∧
          getNextCh a = (.ok ch, a.seek a.begin (a.forward + 1))) ∨
        (∃ a', getNextCh a = (.ok EOF, a') ∧ a' = a.seek a.begin (a.forward + 1)) ∨
        a.buffer.get a.forward = .ok EOF ∧ a.inputStream.avail a.inputStream.rest.length > 0 ∧
          ∃ a', getNextCh a = (.ok EOF, a') ∧ a'.begin = a.begin - BUFFER_SIZE ∧
            a'.forward = a.forward + 1 - BUFFER_SIZE) := by
  by_cases hlag : a.forward - a.begin > BUFFER_SIZE
  · exact Or.inl ⟨_, if_pos hlag⟩
  · have hget : a.buffer.get a.forward = .ok (a.buffer a.forward.toNat) := if_pos (hin (by omega))
    refine Or.inr ⟨by omega, ?_⟩
    simp only [getNextCh, if_neg hlag, hget]
    by_cases hch : a.buffer a.forward.toNat = EOF
    · right
      by_cases havail : a.inputStream.avail a.inputStream.rest.length > 0
      · right
        have hrefill := refill_seek (a.seek a.begin (a.forward + 1))
        refine ⟨by rw [hch], havail, (a.seek a.begin (a.forward + 1)).refill, ?_, ?_, ?_⟩
        · simp only [hch, if_true, havail]
          rfl
        · rw [← hrefill]
          rfl
        · rw [← hrefill]
          rfl
      · exact Or.inl ⟨_, by simp only [hch, if_true, if_neg havail]; rfl, rfl⟩
    · exact Or.inl ⟨_, rfl, hch, by rw [if_neg hch]; rfl⟩

/-- The mark ends a call. -/
theorem turn_EOF {a a' : LexicalAnalyzer} {ms : List StateMachine}
    (h : getNextCh a = (.ok EOF, a')) :
    turn a ms = ⟨a', none⟩ ∧ peekFinalSM (moveAllStateMachine EOF ms) = none ∨
      turn a ms = ⟨source.retract a', none⟩ ∧
        peekFinalSM (moveAllStateMachine EOF ms) ≠ none := by
  simp only [turn, h, allStateMachineFinish_EOF, if_true]
  cases peekFinalSM (moveAllStateMachine EOF ms) with
  | none => exact Or.inl ⟨rfl, rfl⟩
  | some sm => exact Or.inr ⟨rfl, nofun⟩

/-- Another character ends a call or leaves it under way. -/
theorem turn_char {a a' : LexicalAnalyzer} {ms : List StateMachine} {ch : UInt8}
    (h : getNextCh a = (.ok ch, a')) (hch : ch ≠ EOF) :
    turn a ms = ⟨a', none⟩ ∨ turn a ms = ⟨source.retract a', none⟩ ∨
      turn a ms = ⟨a', some (moveAllStateMachine ch ms)⟩ := by
  simp only [turn, h, if_neg hch]
  split_ifs
  · cases peekFinalSM (moveAllStateMachine ch ms) with
    | none => exact Or.inl rfl
    | some sm => exact Or.inr (Or.inl rfl)
  · exact Or.inr (Or.inr rfl)

/-- Between two calls only the order of the pointers is needed. -/
theorem Inside.idle {a : LexicalAnalyzer} (hnonneg : 0 ≤ a.forward) (hle : a.begin ≤ a.forward) :
    Inside ⟨a, none⟩ := ⟨hnonneg, hle, nofun⟩

theorem Inside.retract {a : LexicalAnalyzer} (hpos : 1 ≤ a.forward) :
    Inside ⟨source.retract a, none⟩ := .idle (Int.sub_nonneg_of_le hpos) le_rfl

theorem Inside.turn {a : LexicalAnalyzer} {ms : List StateMachine} (h : Inside ⟨a, some ms⟩)
    (hclear : Clear ⟨a, some ms⟩ .turn) : Inside (turn a ms) := by
  have hnonneg : 0 ≤ a.forward := h.nonneg
  have hle : a.begin ≤ a.forward := h.ordered
  rcases getNextCh_cases a fun hlag => ⟨hnonneg, h.forward_lt rfl hlag⟩ with
    ⟨e, hnext⟩ | ⟨hlag, ⟨ch, hcell, hch, hnext⟩ | ⟨a', hnext, rfl⟩ |
      ⟨hget, havail, a', hnext, hbegin, hforward⟩⟩
  · simp only [Session.turn, hnext]
    exact .idle hnonneg hle
  · rcases @turn_char _ _ ms _ hnext hch with hturn | hturn | hturn <;> rw [hturn]
    · exact .idle (by simp only [seek]; omega) (by simp only [seek]; omega)
    · exact .retract (by simp only [seek]; omega)
    · refine ⟨by simp only [seek]; omega, by simp only [seek]; omega, fun _ => ?_⟩
      refine (h.stopped rfl).imp_right ?_
      rintro ⟨j, hj, hahead, hmark⟩
      -- the cell just read holds no mark
      have hne : a.forward ≠ j := by
        intro heq
        rw [heq, Int.toNat_natCast] at hcell
        exact hch (hcell ▸ hmark)
      have hahead' : a.forward ≤ j := hahead
      exact ⟨j, hj, by simp only [seek]; omega, hmark⟩
  · rcases @turn_EOF _ _ ms hnext with ⟨hturn, -⟩ | ⟨hturn, -⟩ <;> rw [hturn]
    · exact .idle (by simp only [seek]; omega) (by simp only [seek]; omega)
    · exact .retract (by simp only [seek]; omega)
  · have hright := hclear ms rfl hlag hget havail
    simp only at hright
    rcases @turn_EOF _ _ ms hnext with ⟨hturn, -⟩ | ⟨hturn, htoken⟩ <;> rw [hturn]
    · refine .idle ?_ (by omega)
      rw [hforward]
      omega
    · have hhalf := hright.resolve_right fun hcell => htoken hcell.2
      exact .retract (by omega)

theorem Inside.next {c : Session} (h : Inside c) {act : Action} (hclear : c.Clear act) :
    Inside (c.next act) := by
  obtain ⟨a, call⟩ := c
  cases act with
  | init s =>
      cases call with
      | some ms => exact h
      | none =>
          obtain ⟨hbegin, hforward⟩ := a.reinit_pointers s
          exact .idle hforward.ge (by rw [hbegin, hforward])
  | parseToken =>
      cases call with
      | some ms => exact h
      | none => exact ⟨h.nonneg, h.ordered, fun _ => hclear rfl⟩
  | turn =>
      cases call with
      | none => exact h
      | some ms => exact h.turn hclear

/-- Every session whose refills find their marks in the right half and whose calls
do not start behind the last mark stays inside the buffer. -/
theorem session_safe (acts : List Action) (hbehaved : EachStep next Behaved new acts)
    (hclear : EachStep next Clear new acts) : EachStep next Safe new acts :=
  EachStep.of_invariant (fun _ _ h hok => h.safe hok.1) (fun _ _ h hok => h.next hok.2) Inside.new
    (hbehaved.and hclear)

/-! ### Short reads -/

/-- A turn that reads a letter of an identifier. -/
theorem turn_letter {a : LexicalAnalyzer} {ms : List StateMachine} {name : List UInt16}
    (hlag : a.forward - a.begin ≤ BUFFER_SIZE) (hget : a.buffer.get a.forward = .ok (ascii 'a'))
    (hms : moveAllStateMachine (ascii 'a') ms = idMachines name) :
    next ⟨a, some ms⟩ .turn = ⟨a.seek a.begin (a.forward + 1), some (idMachines name)⟩ := by
  have hnext : getNextCh a = (.ok (ascii 'a'), a.seek a.begin (a.forward + 1)) := by
    rw [getNextCh, if_neg (by omega), hget]
    rfl
  change turn a ms = _
  simp only [turn, hnext, hms]
  rfl

theorem clear_letter {a : LexicalAnalyzer} {call : Option (List StateMachine)}
    (hget : a.buffer.get a.forward = .ok (ascii 'a')) : Clear ⟨a, call⟩ .turn := by
  intro ms _ _ hmark
  rw [hget] at hmark
  cases hmark

/-- The turns that read an identifier are clear, whatever follows them. -/
theorem eachStep_letters {a : LexicalAnalyzer} {name : List UInt16} {n : ℕ} {acts : List Action}
    (hlag : a.forward - a.begin + n ≤ BUFFER_SIZE + 1)
    (hget : ∀ i < n, a.buffer.get (a.forward + i) = .ok (ascii 'a'))
    (hacts : EachStep next Clear
      ⟨a.seek a.begin (a.forward + n), some (idMachines (name ++ List.replicate n 97))⟩ acts) :
    EachStep next Clear ⟨a, some (idMachines name)⟩ (List.replicate n .turn ++ acts) := by
  induction n generalizing a name with
  | zero => simpa [seek] using hacts
  | succ n ih =>
      have hlag' : a.forward - a.begin ≤ BUFFER_SIZE := by omega
      have hfirst : a.buffer.get a.forward = .ok (ascii 'a') := by
        simpa using hget 0 (Nat.succ_pos n)
      rw [List.replicate_succ, List.cons_append]
      refine ⟨clear_letter hfirst, ?_⟩
      rw [turn_letter hlag' hfirst (idMachines_move name)]
      refine ih ?_ (fun i hi => ?_) ?_
      · simp only [seek]
        omega
      · have hcell := hget (i + 1) (Nat.succ_lt_succ hi)
        simp only [seek]
        rwa [Nat.cast_succ, Int.add_comm (i : ℤ) 1, ← Int.add_assoc] at hcell
      · simpa [seek, List.replicate_succ, Int.add_assoc, Int.add_comm 1] using hacts

/-- An identifier of 1024 bytes and two more bytes.  A read leaves two bytes or delivers
one. -/
def shortReads : InputStream where
  rest := List.replicate BUFFER_SIZE (ascii 'a') ++ [ascii 'b', ascii 'c']
  chunk := fun m _ => m - 2
  avail := id

/-- The analyzer after `init` has read the identifier. -/
def shortReadsAnalyzer : LexicalAnalyzer where
  inputStream := { shortReads with rest := [ascii 'b', ascii 'c'] }
  buffer := (Buffer.store (fun _ => 0) 0 (List.replicate BUFFER_SIZE (ascii 'a'))).set BUFFER_SIZE EOF
  begin := 0
  forward := 0

theorem shortReads_length : shortReads.rest.length = BUFFER_SIZE + 2 := by
  simp [shortReads]

theorem reinit_shortReads : (LexicalAnalyzer.new.reinit shortReads).2 = shortReadsAnalyzer := by
  have hdelivered : shortReads.delivered (BUFFER_TOTAL_SIZE - 1) = BUFFER_SIZE := by
    rw [InputStream.delivered, shortReads_length]
    decide
  have hread : shortReads.read (BUFFER_TOTAL_SIZE - 1) =
      (some (List.replicate BUFFER_SIZE (ascii 'a')),
        { shortReads with rest := [ascii 'b', ascii 'c'] }) := by
    rw [InputStream.read, if_neg (by decide), if_neg (by simp [shortReads]), hdelivered]
    simp [shortReads]
  have havail : ¬shortReads.avail shortReads.rest.length ≤ 0 := by
    rw [shortReads_length]
    decide
  simp only [reinit, if_neg havail, hread, List.length_replicate]
  rfl

theorem shortReads_get {i : ℕ} (hi : i < BUFFER_SIZE) :
    shortReadsAnalyzer.buffer.get i = .ok (ascii 'a') := by
  have hin : (0 : ℤ) ≤ i ∧ (i : ℤ) < BUFFER_TOTAL_SIZE := by
    unfold BUFFER_TOTAL_SIZE BUFFER_SIZE at *
    omega
  rw [Buffer.get, if_pos hin]
  simp [shortReadsAnalyzer, Buffer.set, Buffer.store, hi, hi.ne]

/-- The session that reads the identifier and the mark behind it. -/
def shortReadsSession (n : ℕ) : List Action :=
  .init shortReads :: .parseToken :: .turn :: (List.replicate n .turn ++ [.turn])

theorem behaved_shortReads (n : ℕ) : EachStep next Behaved new (shortReadsSession n) := by
  refine EachStep.of_forall_mem fun act hact s => ?_
  cases act with
  | init s =>
      obtain rfl : s = shortReads := by simpa [shortReadsSession] using hact
      rfl
  | parseToken => trivial
  | turn => trivial

/-- A short read of `init`, and a refill with a short read. -/
theorem session_safe_shortReads : EachStep next Safe new (shortReadsSession 1023) := by
  refine session_safe _ (behaved_shortReads 1023) ⟨trivial, ?_⟩
  have hinit : next new (.init shortReads) = ⟨shortReadsAnalyzer, none⟩ :=
    congrArg (Session.mk · none) reinit_shortReads
  have hfirst : next ⟨shortReadsAnalyzer, some (resetAll stateMachines)⟩ .turn =
      ⟨shortReadsAnalyzer.seek 0 1, some (idMachines [97])⟩ :=
    turn_letter (by decide) (@shortReads_get 0 (by decide)) rfl
  rw [hinit]
  refine ⟨fun _ => .inl (by decide), clear_letter (@shortReads_get 0 (by decide)), ?_⟩
  change EachStep next Clear (next ⟨shortReadsAnalyzer, some (resetAll stateMachines)⟩ .turn) _
  rw [hfirst]
  refine eachStep_letters (by decide) (fun i hi => ?_) ⟨fun ms _ _ _ _ => .inl ?_, trivial⟩
  · have hcell := @shortReads_get (i + 1) (Nat.succ_lt_succ hi)
    rwa [Nat.cast_succ, Int.add_comm (i : ℤ) 1] at hcell
  -- the mark is in the first cell of the right half
  · decide

/-- A stream of two bytes that delivers one byte at a time. -/
def oneByOne : InputStream where
  rest := [ascii 'a', ascii 'b']
  chunk := fun _ _ => 1
  avail := id

/-- The mark after the first byte of `oneByOne` is found in cell 1.  The refill moves
`forward` to a negative index, and the next call uses it. -/
theorem oneByOne_not_safe :
    EachStep next Behaved new [.init oneByOne, .parseToken, .turn, .turn, .parseToken, .turn] ∧
      ¬EachStep next Safe new [.init oneByOne, .parseToken, .turn, .turn, .parseToken, .turn] := by
  refine ⟨⟨rfl, trivial, trivial, trivial, trivial, trivial, trivial⟩, ?_⟩
  rintro ⟨-, -, -, -, -, ⟨hin, -⟩, -⟩
  revert hin
  decide +kernel

end Session

end MyJavaExample.Lexer
