import MyJavaExample.Lexer.LexicalAnalyzer

/-!
# One call of `parseToken` as a function of the characters read

`scan` is the loop of `parseToken` over a list: its result and the number of
characters it read.  A source that serves a list (`Source.Serves`) makes
`parseToken` compute the scan of that list (`parseToken_eq_scan`), whatever the
source does to its state meanwhile.  What is left to compare two sources is the
lists they serve.

A scan depends only on the characters up to the one that ends it
(`scan_append_of_not_runs`), and where a character ends it, `EOF` in the place
of that character gives the same result (`scan_EOF_of_not_runs`).
-/

namespace MyJavaExample.Lexer

open Java

/-- The loop of `parseToken` on the characters `l`, with `forward - begin` equal
to `lag` at the start: the result and the number of characters read. -/
def scan : ℕ → List StateMachine → List UInt8 → Result × ℕ
  | lag, _, [] => if BUFFER_SIZE < lag then (.throws lexmeTooLong, 0) else (.running, 0)
  | lag, ms, ch :: l =>
      if BUFFER_SIZE < lag then (.throws lexmeTooLong, 0)
      else
        let ms := moveAllStateMachine ch ms
        if allStateMachineFinish ms then
          match peekFinalSM ms with
          | none => (.throws illegalString, 1)
          | some sm => (.token sm.kind.tokenType sm.name, 1)
        else if ch = EOF then (.null, 1)
        else ((scan (lag + 1) ms l).1, (scan (lag + 1) ms l).2 + 1)

/-- After the characters `l` have been read the loop still goes on. -/
def runs : ℕ → List StateMachine → List UInt8 → Bool
  | _, _, [] => true
  | lag, ms, ch :: l =>
      decide (lag ≤ BUFFER_SIZE) && !allStateMachineFinish (moveAllStateMachine ch ms) &&
        runs (lag + 1) (moveAllStateMachine ch ms) l

section Scan

variable {lag : ℕ} {ms : List StateMachine} {ch : UInt8} {l x y : List UInt8}

/-! ## Unfolding a scan -/

theorem scan_tooLong (h : BUFFER_SIZE < lag) : scan lag ms l = (.throws lexmeTooLong, 0) := by
  cases l <;> simp [scan, h]

/-- The character that ends the scan. -/
theorem scan_cons_finish (hlag : lag ≤ BUFFER_SIZE)
    (h : allStateMachineFinish (moveAllStateMachine ch ms) = true) :
    scan lag ms (ch :: l) = match peekFinalSM (moveAllStateMachine ch ms) with
      | none => (.throws illegalString, 1)
      | some sm => (.token sm.kind.tokenType sm.name, 1) := by
  rw [scan, if_neg (Nat.not_lt.2 hlag)]
  simp only [h, if_true]

/-- A character that does not end the scan is not `EOF`. -/
theorem ne_EOF_of_not_finish (h : ¬allStateMachineFinish (moveAllStateMachine ch ms) = true) :
    ch ≠ EOF := by
  rintro rfl
  exact h (allStateMachineFinish_EOF ms)

theorem scan_cons_go (hlag : lag ≤ BUFFER_SIZE)
    (h : ¬allStateMachineFinish (moveAllStateMachine ch ms) = true) :
    scan lag ms (ch :: l) =
      ((scan (lag + 1) (moveAllStateMachine ch ms) l).1,
        (scan (lag + 1) (moveAllStateMachine ch ms) l).2 + 1) := by
  rw [scan, if_neg (Nat.not_lt.2 hlag)]
  simp only [h, if_neg (ne_EOF_of_not_finish h)]
  simp

theorem runs_cons : runs lag ms (ch :: l) = true ↔
    lag ≤ BUFFER_SIZE ∧ ¬allStateMachineFinish (moveAllStateMachine ch ms) = true ∧
      runs (lag + 1) (moveAllStateMachine ch ms) l = true := by
  simp [runs, and_assoc]

/-- The three ways a scan can take its first character. -/
theorem scan_cases (lag : ℕ) (ms : List StateMachine) (ch : UInt8) :
    BUFFER_SIZE < lag ∨
      lag ≤ BUFFER_SIZE ∧ allStateMachineFinish (moveAllStateMachine ch ms) = true ∨
      lag ≤ BUFFER_SIZE ∧ ¬allStateMachineFinish (moveAllStateMachine ch ms) = true := by
  rcases Nat.lt_or_ge BUFFER_SIZE lag with h | h
  · exact .inl h
  · exact .inr ((em _).imp (⟨h, ·⟩) (⟨h, ·⟩))

/-! ## The scan is total -/

/-- A scan of characters that contain `EOF` ends. -/
theorem scan_ne_running (h : EOF ∈ l) : (scan lag ms l).1 ≠ .running := by
  induction l generalizing lag ms with
  | nil => cases h
  | cons ch l ih =>
      rcases scan_cases lag ms ch with hlag | ⟨hlag, hf⟩ | ⟨hlag, hf⟩
      · rw [scan_tooLong hlag]
        exact nofun
      · rw [scan_cons_finish hlag hf]
        split <;> exact nofun
      · rw [scan_cons_go hlag hf]
        rcases List.mem_cons.1 h with rfl | h
        · exact absurd rfl (ne_EOF_of_not_finish hf)
        · exact ih h

theorem scan_read_le : (scan lag ms l).2 ≤ l.length := by
  induction l generalizing lag ms with
  | nil =>
      rw [scan]
      split <;> rfl
  | cons ch l ih =>
      rcases scan_cases lag ms ch with hlag | ⟨hlag, hf⟩ | ⟨hlag, hf⟩
      · rw [scan_tooLong hlag]
        exact Nat.zero_le _
      · rw [scan_cons_finish hlag hf]
        split <;> simp
      · rw [scan_cons_go hlag hf]
        exact Nat.succ_le_succ ih

/-- `forward` is never more than one character too far ahead. -/
theorem scan_lag_le (hlag : lag ≤ BUFFER_SIZE + 1) : lag + (scan lag ms l).2 ≤ BUFFER_SIZE + 1 := by
  induction l generalizing lag ms with
  | nil =>
      rw [scan]
      split <;> exact hlag
  | cons ch l ih =>
      rcases scan_cases lag ms ch with h | ⟨h, hf⟩ | ⟨h, hf⟩
      · rw [scan_tooLong h]
        exact hlag
      · rw [scan_cons_finish h hf]
        split <;> exact Nat.succ_le_succ h
      · rw [scan_cons_go h hf]
        have hgo := @ih (lag + 1) (moveAllStateMachine ch ms) (Nat.succ_le_succ h)
        omega

section Token

variable {ty : TokenType} {name : List UInt16}

theorem scan_token_pos (h : (scan lag ms l).1 = .token ty name) : 1 ≤ (scan lag ms l).2 := by
  cases l with
  | nil =>
      rw [scan] at h
      split at h <;> cases h
  | cons ch l =>
      rcases scan_cases lag ms ch with hlag | ⟨hlag, hf⟩ | ⟨hlag, hf⟩
      · rw [scan_tooLong hlag] at h
        cases h
      · rw [scan_cons_finish hlag hf]
        split <;> exact le_rfl
      · rw [scan_cons_go hlag hf]
        exact Nat.le_add_left _ _

/-- The name of a token is what was read before its last character. -/
theorem scan_token {u : List UInt8} (hu : TrackAll ms u) (h : (scan lag ms l).1 = .token ty name) :
    name = (u ++ l.take ((scan lag ms l).2 - 1)).map toChar := by
  induction l generalizing lag ms u with
  | nil =>
      rw [scan] at h
      split at h <;> cases h
  | cons ch l ih =>
      rcases scan_cases lag ms ch with hlag | ⟨hlag, hf⟩ | ⟨hlag, hf⟩
      · rw [scan_tooLong hlag] at h
        cases h
      · rw [scan_cons_finish hlag hf] at h ⊢
        split at h
        next => cases h
        next sm hsm =>
          cases h
          simpa [hsm] using hu.peekFinalSM_name hsm
      · rw [scan_cons_go hlag hf] at h ⊢
        obtain ⟨m, hm⟩ := Nat.exists_eq_add_of_le' (scan_token_pos h)
        rw [ih (hu.step ch) h, hm, Nat.add_sub_cancel, Nat.add_sub_cancel, List.take_succ_cons]
        simp

/-- A token that starts from the reset machines tells how much was read. -/
theorem scan_token_read (h : (scan lag (resetAll ms) l).1 = .token ty name) :
    (scan lag (resetAll ms) l).2 = name.length + 1 := by
  have hlen := congrArg List.length (scan_token (TrackAll.reset ms) h)
  rw [List.length_map, List.nil_append, List.length_take_of_le] at hlen
  · have hpos := scan_token_pos h
    omega
  · have hread := @scan_read_le lag (resetAll ms) l
    omega

end Token

/-! ## How far a scan looks -/

/-- A scan that ends within `x` does not depend on what follows. -/
theorem scan_append_of_not_runs (h : ¬runs lag ms x = true) :
    scan lag ms (x ++ y) = scan lag ms x := by
  induction x generalizing lag ms with
  | nil => exact absurd rfl h
  | cons ch x ih =>
      rw [List.cons_append]
      rcases scan_cases lag ms ch with hlag | ⟨hlag, hf⟩ | ⟨hlag, hf⟩
      · rw [scan_tooLong hlag, scan_tooLong hlag]
      · rw [scan_cons_finish hlag hf, scan_cons_finish hlag hf]
      · rw [scan_cons_go hlag hf, scan_cons_go hlag hf,
          ih fun hx => h (runs_cons.2 ⟨hlag, hf, hx⟩)]

/-- The machines after the characters `x`. -/
def moves (ms : List StateMachine) (x : List UInt8) : List StateMachine :=
  x.foldl (fun ms ch => moveAllStateMachine ch ms) ms

/-- A scan that goes on after `x` continues with the machines moved by `x`. -/
theorem scan_append_of_runs (h : runs lag ms x = true) :
    scan lag ms (x ++ y) = ((scan (lag + x.length) (moves ms x) y).1,
      (scan (lag + x.length) (moves ms x) y).2 + x.length) := by
  induction x generalizing lag ms with
  | nil => rfl
  | cons ch x ih =>
      obtain ⟨hlag, hf, hx⟩ := runs_cons.1 h
      rw [List.cons_append, scan_cons_go hlag hf, ih hx]
      have hlen : lag + 1 + x.length = lag + (ch :: x).length := by
        rw [List.length_cons]
        omega
      rw [hlen]
      rfl

theorem runs_append : runs lag ms (x ++ y) = true ↔
    runs lag ms x = true ∧ runs (lag + x.length) (moves ms x) y = true := by
  induction x generalizing lag ms with
  | nil => simp [runs, moves]
  | cons ch x ih =>
      have hlen : lag + 1 + x.length = lag + (ch :: x).length := by
        rw [List.length_cons]
        omega
      rw [List.cons_append, runs_cons, runs_cons, ih, hlen]
      simp only [moves, List.foldl_cons, and_assoc]

/-- A scan that makes a token within `x` has ended when `x` has been read. -/
theorem not_runs_of_scan {ty : TokenType} {name : List UInt16} {n : ℕ}
    (h : scan lag ms (x ++ y) = (.token ty name, n)) (hn : n ≤ x.length) :
    ¬runs lag ms x = true := by
  intro hx
  rw [scan_append_of_runs hx, Prod.mk.injEq] at h
  have hpos := scan_token_pos h.1
  omega

/-- Where a character ends the scan, `EOF` in its place gives the same result. -/
theorem scan_EOF_of_not_runs (h : ¬runs lag ms [ch] = true) :
    scan lag ms (EOF :: x) = scan lag ms (ch :: y) := by
  rcases scan_cases lag ms ch with hlag | ⟨hlag, hf⟩ | ⟨hlag, hf⟩
  · rw [scan_tooLong hlag, scan_tooLong hlag]
  · rw [scan_cons_finish hlag hf, scan_cons_finish hlag (allStateMachineFinish_EOF ms),
      peekFinalSM_EOF hf]
  · exact absurd (runs_cons.2 ⟨hlag, hf, rfl⟩) h

/-- A scan that goes on after its first character and makes a token reads a
second one. -/
theorem two_le_scan_of_runs {ty : TokenType} {name : List UInt16} (h : runs lag ms [ch] = true)
    (hscan : (scan lag ms (ch :: y)).1 = .token ty name) : 2 ≤ (scan lag ms (ch :: y)).2 := by
  obtain ⟨hlag, hf, -⟩ := runs_cons.1 h
  rw [scan_cons_go hlag hf] at hscan ⊢
  exact Nat.succ_le_succ (scan_token_pos hscan)

end Scan

/-! ## `parseToken` computes the scan of what it is served -/

namespace Source

variable {ρ : Type} (src : Source ρ)

/-- The source serves the characters `l`: in state `st i` it has served `i` of
them, and `forward - begin` is `lag + i`. -/
structure Serves (lag : ℕ) (l : List UInt8) (st : ℕ → ρ) : Prop where
  tooLong : ∀ i, i ≤ l.length → BUFFER_SIZE < lag + i →
    src.getNextCh (st i) = (.error lexmeTooLong, st i)
  next : ∀ i (h : i < l.length), lag + i ≤ BUFFER_SIZE →
    src.getNextCh (st i) = (.ok l[i], st (i + 1))

/-- The state after a call with result `res` that has read up to state `r`. -/
def settle (res : Result) (r : ρ) : ρ := if res.isToken then src.retract r else r

variable {src}

theorem parseLoop_eq_scan {lag : ℕ} {l : List UInt8} {st : ℕ → ρ} (h : src.Serves lag l st)
    {fuel i : ℕ} {ms : List StateMachine} (hi : i ≤ l.length) (hlag : lag + i ≤ BUFFER_SIZE + 1)
    (hfuel : BUFFER_SIZE + 2 ≤ fuel + (lag + i))
    (hrun : (scan (lag + i) ms (l.drop i)).1 ≠ .running) :
    src.parseLoop fuel ms (st i) = ((scan (lag + i) ms (l.drop i)).1,
      src.settle (scan (lag + i) ms (l.drop i)).1 (st (i + (scan (lag + i) ms (l.drop i)).2))) := by
  induction fuel generalizing i ms with
  | zero => omega
  | succ fuel ih =>
      rw [parseLoop]
      rcases Nat.lt_or_ge BUFFER_SIZE (lag + i) with hlong | hshort
      · rw [h.tooLong i hi hlong, scan_tooLong hlong]
        rfl
      · rcases Nat.lt_or_ge i l.length with hlt | hge
        · have hdrop := List.drop_eq_getElem_cons hlt
          rw [hdrop] at hrun ⊢
          simp only [h.next i hlt hshort]
          by_cases hf : allStateMachineFinish (moveAllStateMachine l[i] ms) = true
          · rw [scan_cons_finish hshort hf, if_pos hf]
            cases peekFinalSM (moveAllStateMachine l[i] ms) <;> rfl
          · rw [scan_cons_go hshort hf] at hrun ⊢
            rw [if_neg hf, if_neg (ne_EOF_of_not_finish hf)]
            have hstep := ih (i := i + 1) hlt (by omega) (by omega) hrun
            rw [hstep, Nat.add_assoc i 1, Nat.add_comm 1]
            rfl
        · rw [List.drop_eq_nil_of_le hge, scan, if_neg (Nat.not_lt.2 hshort)] at hrun
          exact absurd rfl hrun

/-- A call of `parseToken` computes the scan of the characters it is served. -/
theorem parseToken_eq_scan {lag : ℕ} {l : List UInt8} {st : ℕ → ρ} (h : src.Serves lag l st)
    (hlag : lag ≤ BUFFER_SIZE + 1) (hEOF : EOF ∈ l) :
    src.parseToken (st 0) = ((scan lag (resetAll stateMachines) l).1,
      src.settle (scan lag (resetAll stateMachines) l).1
        (st (scan lag (resetAll stateMachines) l).2)) := by
  have hrun : (scan (lag + 0) (resetAll stateMachines) (l.drop 0)).1 ≠ .running :=
    scan_ne_running hEOF
  have hloop := parseLoop_eq_scan h (Nat.zero_le _) hlag (Nat.le_add_right (BUFFER_SIZE + 2) _) hrun
  simpa [parseToken] using hloop

end Source

end MyJavaExample.Lexer
