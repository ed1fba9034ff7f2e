import MyJavaExample.Lexer.DoubleBuffer

/-!
# Double-buffered lexing against lexing of the whole input

The analyzer returns the `EOF` it finds at the end of a full buffer, although
it has refilled the buffer.  `EOF` ends every machine, so the call ends there.
The first refill is at position 2047 of the input and every further one 1024
positions later.

A call of the whole input is aligned when the byte at the next refill position,
if it comes to read it, ends it.  Then `EOF` in the place of that byte makes no
difference, and the two readers stay in step (`Sync.parseToken`).  A call that
is not aligned and returns a token returns a longer token than the analyzer.
-/

namespace MyJavaExample.Lexer

open Java

/-! ## The whole input -/

namespace WholeInput

/-- The number of characters read so far.  The last character of a token has
been read and put back. -/
def seen (b : WholeInput) : ℕ :=
  if b.begin = b.forward then b.forward.toNat + 1 else b.forward.toNat

/-- The first refill position that is not before `n`. -/
def refillFrom (n : ℕ) : ℕ :=
  BUFFER_TOTAL_SIZE - 1 + BUFFER_SIZE * ((n - BUFFER_SIZE) / BUFFER_SIZE)

/-- The first refill position that has not been read yet. -/
def nextRefill (b : WholeInput) : ℕ := refillFrom b.seen

/-- The next call has ended when the byte at the next refill position has been
read. -/
def Aligned (b : WholeInput) : Prop :=
  b.nextRefill < b.input.length →
    ¬runs (b.forward - b.begin).toNat (resetAll stateMachines)
      ((b.input.drop b.forward.toNat).take (b.nextRefill - b.forward.toNat + 1)) = true

/-- The first `k` calls have not read the single `EOF` for good. -/
def Live (b : WholeInput) (k : ℕ) : Prop := ∀ j ≤ k, ¬(source.after j b).Ended

theorem refillFrom_mono {m n : ℕ} (h : m ≤ n) : refillFrom m ≤ refillFrom n := by
  unfold refillFrom BUFFER_TOTAL_SIZE BUFFER_SIZE
  omega

theorem refillFrom_eq {m n : ℕ} (hmn : m ≤ n) (hn : n ≤ refillFrom m) :
    refillFrom n = refillFrom m := by
  unfold refillFrom BUFFER_TOTAL_SIZE BUFFER_SIZE at *
  omega

theorem refillFrom_succ (n : ℕ) : refillFrom (refillFrom n + 1) = refillFrom n + BUFFER_SIZE := by
  unfold refillFrom BUFFER_TOTAL_SIZE BUFFER_SIZE
  omega

theorem serves {b : WholeInput} {p lag : ℕ} (hp : b.forward = p)
    (hlag : b.forward - b.begin = lag) :
    source.Serves lag ((b.input ++ [EOF]).drop p) (fun i => { b with forward := (p + i : ℕ) }) where
  tooLong i _ hlong := by
    have hahead : ((p + i : ℕ) : ℤ) - b.begin > BUFFER_SIZE := by omega
    simp only [source, getNextCh, if_pos hahead]
  next i hi hshort := by
    have hnear : ¬((p + i : ℕ) : ℤ) - b.begin > BUFFER_SIZE := by omega
    have hlt : p + i < (b.input ++ [EOF]).length := by
      rw [List.length_drop] at hi
      omega
    simp only [source, getNextCh, if_neg hnear, Int.toNat_natCast, List.getElem?_eq_getElem hlt,
      List.getElem_drop]
    rfl

theorem parseToken_eq {b : WholeInput} {p lag : ℕ} (hp : b.forward = p)
    (hlag : b.forward - b.begin = lag) (hle : lag ≤ BUFFER_SIZE + 1) (hin : p ≤ b.input.length) :
    source.parseToken b =
      ((scan lag (resetAll stateMachines) (b.input.drop p ++ [EOF])).1,
        source.settle (scan lag (resetAll stateMachines) (b.input.drop p ++ [EOF])).1
          { b with forward :=
            (p + (scan lag (resetAll stateMachines) (b.input.drop p ++ [EOF])).2 : ℕ) }) := by
  have hstart : ({ b with forward := (p + 0 : ℕ) } : WholeInput) = b := by
    rw [Nat.add_zero, ← hp]
  have hdrop : (b.input ++ [EOF]).drop p = b.input.drop p ++ [EOF] :=
    List.drop_append_of_le_length hin
  have hcall := Source.parseToken_eq_scan (serves hp hlag) hle
    (by rw [hdrop]; exact List.mem_append_right _ (List.mem_singleton_self EOF))
  rwa [hstart, hdrop] at hcall

end WholeInput

/-! ## Two readers in step -/

/-- The analyzer and the whole input are at the same position `p` of the input,
with the same distance between the pointers, and the mark of the buffer is at
the next refill position or at the end of the input. -/
structure Sync (a : LexicalAnalyzer) (b : WholeInput) (f p lag : ℕ) (u : List UInt8) : Prop where
  holds : a.Holds f u
  fed : a.Fed
  exact : a.inputStream.ExactAvailable
  forward : b.forward = p
  unread : b.input.drop p = u ++ a.inputStream.rest
  inside : p ≤ b.input.length
  lagBuffer : a.forward - a.begin = lag
  lagWhole : b.forward - b.begin = lag
  lag_le : lag ≤ BUFFER_SIZE + 1
  mark_le : p + u.length ≤ b.nextRefill
  mark : a.inputStream.rest ≠ [] → p + u.length = b.nextRefill

namespace Sync

open LexicalAnalyzer (Moved)

variable {a : LexicalAnalyzer} {b : WholeInput} {f p lag : ℕ} {u : List UInt8}

theorem length_eq (h : Sync a b f p lag u) :
    b.input.length = p + u.length + a.inputStream.rest.length := by
  have hlen := congrArg List.length h.unread
  rw [List.length_drop, List.length_append] at hlen
  have hin := h.inside
  omega

theorem seen_eq (h : Sync a b f p lag u) : b.seen = if lag = 0 then p + 1 else p := by
  have hlag := h.lagWhole
  unfold WholeInput.seen
  rw [h.forward] at hlag ⊢
  rw [Int.toNat_natCast]
  split <;> split <;> omega

theorem aligned_iff (h : Sync a b f p lag u) {c : UInt8} {r : List UInt8}
    (hrest : a.inputStream.rest = c :: r) :
    b.Aligned ↔ ¬runs lag (resetAll stateMachines) (u ++ [c]) = true := by
  have hmark := h.mark (by rw [hrest]; exact List.cons_ne_nil _ _)
  have hlt : b.nextRefill < b.input.length := by
    have hlen := h.length_eq
    rw [hrest, List.length_cons] at hlen
    omega
  have htake : (b.input.drop b.forward.toNat).take (b.nextRefill - b.forward.toNat + 1) =
      u ++ [c] := by
    rw [h.forward, Int.toNat_natCast, h.unread, ← hmark, Nat.add_sub_cancel_left, hrest,
      List.take_length_add_append]
    rfl
  rw [WholeInput.Aligned, htake, h.lagWhole, Int.toNat_natCast]
  exact ⟨fun hal => hal hlt, fun hal _ => hal⟩

/-- An aligned call scans the same result from the buffer and from the whole
input. -/
theorem scan_eq (h : Sync a b f p lag u) (hal : b.Aligned) :
    scan lag (resetAll stateMachines) (b.input.drop p ++ [EOF]) =
      scan lag (resetAll stateMachines) (u ++ [EOF]) := by
  rw [h.unread]
  cases hrest : a.inputStream.rest with
  | nil => rw [List.append_nil]
  | cons c r =>
      have hend := (h.aligned_iff hrest).1 hal
      rw [List.append_assoc, List.cons_append]
      by_cases hruns : runs lag (resetAll stateMachines) u = true
      · -- the byte at the refill position ends the call
        have hc := fun hc => hend (runs_append.2 ⟨hruns, hc⟩)
        rw [scan_append_of_runs hruns, scan_append_of_runs hruns, scan_EOF_of_not_runs hc]
      · rw [scan_append_of_not_runs hruns, scan_append_of_not_runs hruns]

/-- A call that is not aligned and returns a token returns another token from
the buffer. -/
theorem aligned_of_token (h : Sync a b f p lag u) {ty : TokenType} {name : List UInt16}
    (hwhole : (scan lag (resetAll stateMachines) (b.input.drop p ++ [EOF])).1 = .token ty name)
    (hbuffer : (scan lag (resetAll stateMachines) (u ++ [EOF])).1 = .token ty name) :
    b.Aligned := by
  cases hrest : a.inputStream.rest with
  | nil =>
      intro hlt
      have hlen := h.length_eq
      rw [hrest, List.length_nil] at hlen
      have hle := h.mark_le
      omega
  | cons c r =>
      rw [h.aligned_iff hrest]
      intro hruns
      obtain ⟨hu, hc⟩ := runs_append.1 hruns
      have hshort : (scan lag (resetAll stateMachines) (u ++ [EOF])).2 ≤ u.length + 1 := by
        simpa using scan_read_le (l := u ++ [EOF])
      have hread := scan_token_read hwhole
      rw [← scan_token_read hbuffer] at hread
      -- the whole input is read beyond the refill position
      rw [h.unread, hrest, List.append_assoc, List.cons_append, scan_append_of_runs hu]
        at hwhole hread
      have htwo := two_le_scan_of_runs hc hwhole
      omega

/-- The readers are in step after a call that read `n` characters and consumed
`d` of them. -/
theorem moved (h : Sync a b f p lag u) {n d f' lag' : ℕ} {u' : List UInt8} {a' : LexicalAnalyzer}
    {b' : WholeInput} (hmoved : Moved a u n d a' f' u') (hn : 1 ≤ n) (hdn : d ≤ n)
    (hinput : b'.input = b.input) (hforward : b'.forward = (p + d : ℕ)) (hseen : b'.seen = p + n)
    (hlagA : a'.forward - a'.begin = lag') (hlagB : b'.forward - b'.begin = lag')
    (hle : lag' ≤ BUFFER_SIZE + 1) : Sync a' b' f' (p + d) lag' u' := by
  have hmark : p + d + u'.length ≤ b'.nextRefill ∧
      (a'.inputStream.rest ≠ [] → p + d + u'.length = b'.nextRefill) := by
    have hseen₀ : b.seen ≤ p + n := by
      rw [h.seen_eq]
      split <;> omega
    have hmark_le := h.mark_le
    have hmark := h.mark
    unfold WholeInput.nextRefill at *
    rw [hseen]
    rcases hmoved.mark with ⟨hlen, hrest, hn' | hend⟩ | ⟨rfl, hrest, hlen, hrest'⟩
    · -- the mark was not read
      rw [WholeInput.refillFrom_eq hseen₀ (by omega), hrest]
      refine ⟨by omega, fun hne => ?_⟩
      have hfull := hmark hne
      omega
    · -- the end of the input was read
      have hnil : a.inputStream.rest = [] := by
        rw [h.exact] at hend
        exact List.length_eq_zero_iff.1 (Nat.eq_zero_of_not_pos hend)
      have hmono := WholeInput.refillFrom_mono hseen₀
      rw [hrest, hnil]
      exact ⟨by omega, fun hne => absurd rfl hne⟩
    · -- the buffer was refilled
      have hnext : WholeInput.refillFrom (p + (u.length + 1)) =
          p + u.length + BUFFER_SIZE := by
        rw [← Nat.add_assoc, hmark hrest, WholeInput.refillFrom_succ]
      have htake := List.length_take_le BUFFER_SIZE a.inputStream.rest
      rw [hnext, hrest']
      refine ⟨by omega, fun hne => ?_⟩
      have hfull : BUFFER_SIZE < a.inputStream.rest.length := by simpa using hne
      rw [List.length_take_of_le hfull.le] at hlen
      omega
  have hunread : b'.input.drop (p + d) = u' ++ a'.inputStream.rest := by
    rw [hinput, hmoved.unread, ← h.unread, List.drop_drop]
  have hinside : p + d ≤ b'.input.length := by
    rw [hinput, h.length_eq]
    have htake := List.length_take_le' BUFFER_SIZE a.inputStream.rest
    rcases hmoved.mark with ⟨hlen, -⟩ | ⟨-, -, hlen, -⟩ <;> omega
  exact ⟨hmoved.holds, hmoved.fed, fun m => by rw [hmoved.avail, h.exact], hforward, hunread,
    hinside, hlagA, hlagB, hle, hmark.1, hmark.2⟩

theorem after_token (h : Sync a b f p lag u) {n : ℕ} (hpos : 1 ≤ n) (hread : n ≤ u.length + 1) :
    ∃ f' u', Sync (LexicalAnalyzer.source.retract (a.served f u n))
      (WholeInput.source.retract { b with forward := (p + n : ℕ) }) f' (p + (n - 1)) 0 u' := by
  obtain ⟨f', u', hmoved⟩ := h.holds.after_token h.fed hpos hread
  refine ⟨f', u', h.moved hmoved hpos (Nat.sub_le _ _) rfl ?_ ?_ ?_ ?_ (Nat.zero_le _)⟩
  · simp only [WholeInput.source]
    omega
  · simp only [WholeInput.source, WholeInput.seen, if_true]
    omega
  · simp [LexicalAnalyzer.source]
  · simp [WholeInput.source]

theorem after_throw (h : Sync a b f p lag u) {n : ℕ} (hread : n ≤ u.length + 1)
    (hlag : lag + n ≤ BUFFER_SIZE + 1) :
    ({ b with forward := (p + n : ℕ) } : WholeInput).Ended ∨
      ∃ f' p' lag' u', Sync (a.served f u n) { b with forward := (p + n : ℕ) } f' p' lag' u' := by
  have hlagA := h.lagBuffer
  rw [h.holds.forward] at hlagA
  have hlagB := h.lagWhole
  rw [h.forward] at hlagB
  rcases Nat.eq_zero_or_pos n with rfl | hpos
  · -- nothing was read
    have hb : ({ b with forward := (p + 0 : ℕ) } : WholeInput) = b := by
      rw [Nat.add_zero, ← h.forward]
    rw [h.holds.served_zero, hb]
    exact .inr ⟨f, p, lag, u, h⟩
  · by_cases hmore : n ≤ u.length ∨ a.inputStream.avail a.inputStream.rest.length > 0
    · obtain ⟨f', u', hmoved⟩ := h.holds.after_throw h.fed hread hmore
      refine .inr ⟨f', p + n, lag + n, u', h.moved hmoved hpos le_rfl rfl rfl ?_ ?_ ?_ hlag⟩
      · simp only [WholeInput.seen]
        rw [if_neg (by omega)]
        omega
      · rw [LexicalAnalyzer.served_lag hread]
        omega
      · simp only
        omega
    · left
      obtain ⟨hlt, havail⟩ := not_or.1 hmore
      rw [h.exact] at havail
      have hlen := h.length_eq
      simp only [WholeInput.Ended]
      omega

/-- After an aligned call the readers have the same result and are in step,
unless the end of the input has been read for good. -/
theorem parseToken (h : Sync a b f p lag u) (hal : b.Aligned) :
    (LexicalAnalyzer.source.parseToken a).1 = (WholeInput.source.parseToken b).1 ∧
      ((WholeInput.source.parseToken b).2.Ended ∨
        ∃ f' p' lag' u', Sync (LexicalAnalyzer.source.parseToken a).2
          (WholeInput.source.parseToken b).2 f' p' lag' u') := by
  rw [h.holds.parseToken_eq h.lagBuffer h.lag_le,
    WholeInput.parseToken_eq h.forward h.lagWhole h.lag_le h.inside, h.scan_eq hal]
  refine ⟨rfl, ?_⟩
  have hread : (scan lag (resetAll stateMachines) (u ++ [EOF])).2 ≤ u.length + 1 := by
    simpa using scan_read_le (l := u ++ [EOF])
  simp only [Source.settle]
  cases hres : (scan lag (resetAll stateMachines) (u ++ [EOF])).1 with
  | token ty name =>
      obtain ⟨f', u', hsync⟩ := h.after_token (scan_token_pos hres) hread
      exact .inr ⟨f', _, 0, u', hsync⟩
  | null => exact h.after_throw hread (scan_lag_le h.lag_le)
  | throws e => exact h.after_throw hread (scan_lag_le h.lag_le)
  | running => exact h.after_throw hread (scan_lag_le h.lag_le)

/-- The readers have the same token only if the call is aligned. -/
theorem aligned_of_result (h : Sync a b f p lag u)
    (htoken : (WholeInput.source.parseToken b).1.isToken = true)
    (heq : (LexicalAnalyzer.source.parseToken a).1 = (WholeInput.source.parseToken b).1) :
    b.Aligned := by
  rw [h.holds.parseToken_eq h.lagBuffer h.lag_le,
    WholeInput.parseToken_eq h.forward h.lagWhole h.lag_le h.inside] at heq
  rw [WholeInput.parseToken_eq h.forward h.lagWhole h.lag_le h.inside] at htoken
  simp only at heq htoken
  cases hres : (scan lag (resetAll stateMachines) (b.input.drop p ++ [EOF])).1 with
  | token ty name => exact h.aligned_of_token hres (heq.trans hres)
  | null => simp [hres, Result.isToken] at htoken
  | throws e => simp [hres, Result.isToken] at htoken
  | running => simp [hres, Result.isToken] at htoken

theorem init {s : InputStream} {a : LexicalAnalyzer} (hfull : s.FullReads)
    (hexact : s.ExactAvailable) (hEOF : EOF ∉ s.rest) (h : LexicalAnalyzer.init s = .ok a) :
    Sync a { input := s.rest, begin := 0, forward := 0 } 0 0 0
      (s.rest.take (BUFFER_TOTAL_SIZE - 1)) := by
  obtain ⟨hholds, hstream, hbegin⟩ := LexicalAnalyzer.init_holds hfull (hexact 0) hEOF h
  have hfirst : WholeInput.nextRefill { input := s.rest, begin := 0, forward := 0 } =
      BUFFER_TOTAL_SIZE - 1 := by
    simp [WholeInput.nextRefill, WholeInput.seen, WholeInput.refillFrom, BUFFER_SIZE]
  refine ⟨hholds, LexicalAnalyzer.init_fed hfull (hexact 0) hEOF h, ?_, rfl, ?_, Nat.zero_le _, ?_,
    rfl, Nat.zero_le _, ?_, ?_⟩
  · rw [hstream]
    exact hexact
  · rw [hstream]
    exact (List.take_append_drop _ _).symm
  · rw [hholds.forward, hbegin]
    rfl
  · rw [hfirst, Nat.zero_add]
    exact List.length_take_le _ _
  · intro hne
    rw [hstream] at hne
    have hlt : BUFFER_TOTAL_SIZE - 1 < s.rest.length := by simpa using hne
    rw [hfirst, Nat.zero_add, List.length_take_of_le hlt.le]

end Sync

/-! ## Whole runs -/

/-- `init` succeeds on both readers or throws the same exception, and repeated
calls have the same results, up to the one that reads the end of the input for
good. -/
def SameResults (s : InputStream) : Prop :=
  match LexicalAnalyzer.init s, WholeInput.init s with
  | .ok a, .ok b => ∀ k, b.Live k →
      LexicalAnalyzer.source.result k a = WholeInput.source.result k b
  | .error e, .error e' => e = e'
  | _, _ => False

/-- Every call on the whole input is aligned. -/
def AlignedRun (s : InputStream) : Prop :=
  ∀ b, WholeInput.init s = .ok b → ∀ k, b.Live k → (WholeInput.source.after k b).Aligned

theorem WholeInput.Live.pred {b : WholeInput} {k : ℕ} (h : b.Live (k + 1)) : b.Live k :=
  fun j hj => h j (Nat.le_succ_of_le hj)

/-- The readers stay in step as long as the calls are aligned. -/
theorem Sync.after {a : LexicalAnalyzer} {b : WholeInput} {f p lag k : ℕ} {u : List UInt8}
    (h : Sync a b f p lag u) (hlive : b.Live k)
    (hal : ∀ j < k, (WholeInput.source.after j b).Aligned) :
    ∃ f' p' lag' u', Sync (LexicalAnalyzer.source.after k a) (WholeInput.source.after k b)
      f' p' lag' u' := by
  induction k with
  | zero => exact ⟨f, p, lag, u, h⟩
  | succ k ih =>
      obtain ⟨f', p', lag', u', hk⟩ := ih hlive.pred fun j hj => hal j (Nat.lt_succ_of_lt hj)
      have hended := hlive (k + 1) le_rfl
      rw [Source.after_succ] at hended ⊢
      rw [Source.after_succ]
      exact (hk.parseToken (hal k (Nat.lt_succ_self k))).2.resolve_left hended

section Runs

variable {s : InputStream} (hfull : s.FullReads) (hexact : s.ExactAvailable) (hEOF : EOF ∉ s.rest)

include hfull hexact

theorem init_cases :
    (∃ e, LexicalAnalyzer.init s = .error e ∧ WholeInput.init s = .error e) ∨
      ∃ a, LexicalAnalyzer.init s = .ok a ∧
        WholeInput.init s = .ok { input := s.rest, begin := 0, forward := 0 } := by
  by_cases havail : s.avail s.rest.length ≤ 0
  · exact .inl ⟨_, if_pos havail, if_pos havail⟩
  · have hne : s.rest ≠ [] := by
      rintro hnil
      rw [hnil, hexact] at havail
      exact havail le_rfl
    rw [LexicalAnalyzer.init, if_neg havail, s.read_of_fullReads hfull (by decide) hne]
    exact .inr ⟨_, rfl, if_neg havail⟩

include hEOF

/-- An aligned run has the same results. -/
theorem AlignedRun.sameResults (hal : AlignedRun s) : SameResults s := by
  unfold SameResults
  rcases init_cases hfull hexact with ⟨e, ha, hb⟩ | ⟨a, ha, hb⟩
  · rw [ha, hb]
  · rw [ha, hb]
    intro k hlive
    obtain ⟨f', p', lag', u', hsync⟩ := (Sync.init hfull hexact hEOF ha).after hlive
      fun j hj => hal _ hb j fun i hi => hlive i (by omega)
    exact (hsync.parseToken (hal _ hb k hlive)).1

/-- Where the results are the same, the calls are aligned as long as they return
tokens. -/
theorem SameResults.aligned (hsame : SameResults s) {b : WholeInput}
    (hb : WholeInput.init s = .ok b) {k : ℕ} (hlive : b.Live k)
    (htokens : ∀ i ≤ k, (WholeInput.source.result i b).isToken = true) :
    (WholeInput.source.after k b).Aligned := by
  unfold SameResults at hsame
  rcases init_cases hfull hexact with ⟨e, -, hb'⟩ | ⟨a, ha, hb'⟩
  · rw [hb] at hb'
    cases hb'
  · rw [ha, hb] at hsame
    rw [hb] at hb'
    cases hb'
    induction k using Nat.strong_induction_on with
    | _ k ih =>
        obtain ⟨f', p', lag', u', hsync⟩ := (Sync.init hfull hexact hEOF ha).after hlive
          fun j hj => ih j hj (fun i hi => hlive i (by omega)) fun i hi => htokens i (by omega)
        exact hsync.aligned_of_result (htokens k le_rfl) (hsame k hlive)

/-- The double buffer gives the results of the whole input in every run whose
calls are aligned, and only if its calls are aligned as long as they return
tokens. -/
theorem parseToken_refines :
    (AlignedRun s → SameResults s) ∧
      (SameResults s → ∀ b, WholeInput.init s = .ok b → ∀ k, b.Live k →
        (∀ i ≤ k, (WholeInput.source.result i b).isToken = true) →
          (WholeInput.source.after k b).Aligned) :=
  ⟨AlignedRun.sameResults hfull hexact hEOF,
    fun hsame _ hb _ hlive htokens => hsame.aligned hfull hexact hEOF hb hlive htokens⟩

end Runs

/-! ### Short inputs -/

theorem WholeInput.parseLoop_input (fuel : ℕ) (ms : List StateMachine) (b : WholeInput) :
    (source.parseLoop fuel ms b).2.input = b.input := by
  have hnext : ∀ b : WholeInput, (getNextCh b).2.input = b.input := by
    intro b
    unfold getNextCh
    split <;> rfl
  induction fuel generalizing ms b with
  | zero => rfl
  | succ fuel ih =>
      have hb := hnext b
      rw [Source.parseLoop]
      simp only [source] at ih ⊢
      split
      next heq =>
        rw [heq] at hb
        exact hb
      next heq =>
        rw [heq] at hb
        split
        · split <;> exact hb
        · split
          · exact hb
          · rw [ih]
            exact hb

theorem WholeInput.after_input (b : WholeInput) (k : ℕ) : (source.after k b).input = b.input := by
  induction k with
  | zero => rfl
  | succ k ih => rw [Source.after_succ, Source.parseToken, parseLoop_input, ih]

/-- An input that fits into the buffer is never refilled. -/
theorem AlignedRun.of_length_le {s : InputStream} (h : s.rest.length ≤ BUFFER_TOTAL_SIZE - 1) :
    AlignedRun s := by
  intro b hb k _ hlt
  unfold WholeInput.init at hb
  split at hb
  next => cases hb
  next =>
    cases hb
    rw [WholeInput.after_input] at hlt
    unfold WholeInput.nextRefill WholeInput.refillFrom at hlt
    simp only at hlt
    omega

/-! ### An identifier across a refill -/

/-- The machines while they read an identifier. -/
def idMachines (name : List UInt16) : List StateMachine :=
  [⟨.ifSM, -1, [97]⟩, ⟨.whileSM, -1, [97]⟩, ⟨.idSM, 1, name⟩, ⟨.relopSM, -1, [97]⟩,
    ⟨.whiteSM, -1, [97]⟩, ⟨.digitSM, -1, [97]⟩]

theorem idMachines_move (name : List UInt16) :
    moveAllStateMachine (ascii 'a') (idMachines name) = idMachines (name ++ [97]) := rfl

theorem idMachines_not_finish (name : List UInt16) :
    ¬allStateMachineFinish (idMachines name) = true := by
  intro h
  cases h

theorem runs_idMachines {n lag : ℕ} (h : lag + n ≤ BUFFER_SIZE + 1) (name : List UInt16) :
    runs lag (idMachines name) (List.replicate n (ascii 'a')) = true := by
  induction n generalizing lag name with
  | zero => rfl
  | succ n ih =>
      rw [List.replicate_succ, runs_cons, idMachines_move]
      exact ⟨by omega, idMachines_not_finish _, ih (by omega) _⟩

/-- A character that ends the identifier makes the token. -/
theorem scan_idMachines {n lag : ℕ} (h : lag + n ≤ BUFFER_SIZE) (name : List UInt16) {c : UInt8}
    (hc : c = ascii '<' ∨ c = EOF) (y : List UInt8) :
    scan lag (idMachines name) (List.replicate n (ascii 'a') ++ c :: y) =
      (.token .ID (name ++ List.replicate n 97), n + 1) := by
  induction n generalizing lag name with
  | zero =>
      rw [List.replicate_zero, List.nil_append, List.replicate_zero, List.append_nil]
      rcases hc with rfl | rfl
      · exact scan_cons_finish h rfl
      · exact scan_cons_finish h rfl
  | succ n ih =>
      have hmove := idMachines_move name
      rw [List.replicate_succ, List.cons_append,
        scan_cons_go (by omega) (hmove ▸ idMachines_not_finish _), hmove, ih (by omega)]
      simp [List.replicate_succ]

theorem scan_identifier {n : ℕ} (h : n < BUFFER_SIZE) {c : UInt8} (hc : c = ascii '<' ∨ c = EOF)
    (y : List UInt8) :
    scan 0 (resetAll stateMachines) (List.replicate (n + 1) (ascii 'a') ++ c :: y) =
      (.token .ID (List.replicate (n + 1) 97), n + 2) := by
  have hfirst : moveAllStateMachine (ascii 'a') (resetAll stateMachines) = idMachines [97] := rfl
  rw [List.replicate_succ, List.cons_append,
    scan_cons_go (Nat.zero_le _) (hfirst ▸ idMachines_not_finish _), hfirst,
    scan_idMachines (by omega) _ hc]
  rfl

/-- A call of the whole input that starts a token at `p`. -/
theorem WholeInput.parseToken_of_scan {w v : List UInt8} {p n : ℕ} {ty : TokenType}
    {name : List UInt16} (hp : p ≤ w.length) (hv : w.drop p = v)
    (hscan : scan 0 (resetAll stateMachines) (v ++ [EOF]) = (.token ty name, n + 1)) :
    source.parseToken ⟨w, p, p⟩ = (.token ty name, ⟨w, (p + n : ℕ), (p + n : ℕ)⟩) := by
  subst hv
  have hcall := @parseToken_eq ⟨w, p, p⟩ p 0 rfl (by simp) (Nat.zero_le _) hp
  rw [hcall, hscan]
  simp only [Source.settle, Result.isToken, source, if_true]
  have hback : ((p + (n + 1) : ℕ) : ℤ) - 1 = (p + n : ℕ) := by omega
  rw [hback]

/-- A call that makes a token and has ended when it has read the byte at the next refill
position. -/
theorem WholeInput.aligned_of_scan {w : List UInt8} {p n : ℕ} {ty : TokenType}
    {name : List UInt16} (hp : p ≤ w.length)
    (hscan : scan 0 (resetAll stateMachines) (w.drop p ++ [EOF]) = (.token ty name, n + 1))
    (hn : p + n ≤ refillFrom (p + 1)) : Aligned ⟨w, p, p⟩ := by
  have hnext : nextRefill ⟨w, p, p⟩ = refillFrom (p + 1) := by
    simp only [nextRefill, seen, if_true, Int.toNat_natCast]
  intro hlt
  rw [hnext] at hlt ⊢
  simp only [Int.toNat_natCast, Int.sub_self, Int.toNat_zero] at hlt ⊢
  rw [← List.take_append_drop (refillFrom (p + 1) - p + 1) (w.drop p), List.append_assoc] at hscan
  refine not_runs_of_scan hscan ?_
  have hfrom : p + 1 ≤ refillFrom (p + 1) + 1 := by
    unfold refillFrom BUFFER_TOTAL_SIZE BUFFER_SIZE
    omega
  rw [List.length_take_of_le (by rw [List.length_drop]; omega)]
  omega

/-- Two identifiers with `<` between them. -/
def twoIdentifiers (m n : ℕ) : List UInt8 :=
  List.replicate (m + 1) (ascii 'a') ++ ascii '<' :: List.replicate (n + 1) (ascii 'a')

section TwoIdentifiers

open WholeInput

variable {m n : ℕ}

theorem twoIdentifiers_length : (twoIdentifiers m n).length = m + n + 3 := by
  simp [twoIdentifiers]
  omega

theorem twoIdentifiers_drop : (twoIdentifiers m n).drop (m + 2) =
    List.replicate (n + 1) (ascii 'a') := by
  rw [twoIdentifiers, List.append_cons]
  exact List.drop_left' (by simp)

theorem twoIdentifiers_first (hm : m < BUFFER_SIZE) :
    source.parseToken ⟨twoIdentifiers m n, 0, 0⟩ =
      (.token .ID (List.replicate (m + 1) 97), ⟨twoIdentifiers m n, (m + 1 : ℕ), (m + 1 : ℕ)⟩) := by
  have hscan := scan_identifier hm (.inl rfl) (List.replicate (n + 1) (ascii 'a') ++ [EOF])
  have hcall := parseToken_of_scan (Nat.zero_le (twoIdentifiers m n).length) List.drop_zero
    (by rwa [twoIdentifiers, List.append_assoc, List.cons_append])
  rwa [Nat.zero_add] at hcall

theorem twoIdentifiers_second :
    source.parseToken ⟨twoIdentifiers m n, (m + 1 : ℕ), (m + 1 : ℕ)⟩ =
      (.token .RELOP [60], ⟨twoIdentifiers m n, (m + 2 : ℕ), (m + 2 : ℕ)⟩) := by
  have hdrop : (twoIdentifiers m n).drop (m + 1) =
      ascii '<' :: List.replicate (n + 1) (ascii 'a') := List.drop_left' (by simp)
  exact parseToken_of_scan (by rw [twoIdentifiers_length]; omega) hdrop rfl

theorem twoIdentifiers_third (hn : n < BUFFER_SIZE) :
    source.parseToken ⟨twoIdentifiers m n, (m + 2 : ℕ), (m + 2 : ℕ)⟩ =
      (.token .ID (List.replicate (n + 1) 97),
        ⟨twoIdentifiers m n, (m + 2 + (n + 1) : ℕ), (m + 2 + (n + 1) : ℕ)⟩) :=
  parseToken_of_scan (by rw [twoIdentifiers_length]; omega) twoIdentifiers_drop
    (scan_identifier hn (.inr rfl) _)

theorem twoIdentifiers_noEOF : EOF ∉ twoIdentifiers m n := by
  intro h
  rcases List.mem_append.1 h with h | h
  · cases List.eq_of_mem_replicate h
  · rcases List.mem_cons.1 h with h | h
    · cases h
    · cases List.eq_of_mem_replicate h

theorem twoIdentifiers_not_aligned (hm : m < BUFFER_SIZE) (hn : n < BUFFER_SIZE)
    (hspan : BUFFER_TOTAL_SIZE - 1 < m + n + 3) :
    ¬Aligned ⟨twoIdentifiers m n, (m + 2 : ℕ), (m + 2 : ℕ)⟩ := by
  have hnext : nextRefill ⟨twoIdentifiers m n, (m + 2 : ℕ), (m + 2 : ℕ)⟩ =
      BUFFER_TOTAL_SIZE - 1 := by
    simp only [nextRefill, seen, if_true, Int.toNat_natCast, refillFrom]
    unfold BUFFER_SIZE at hm ⊢
    omega
  have htake : (List.replicate (n + 1) (ascii 'a')).take (BUFFER_TOTAL_SIZE - 1 - (m + 2) + 1) =
      ascii 'a' :: List.replicate (BUFFER_TOTAL_SIZE - 1 - (m + 2)) (ascii 'a') := by
    rw [List.take_replicate, ← List.replicate_succ]
    congr 1
    unfold BUFFER_TOTAL_SIZE BUFFER_SIZE at *
    omega
  intro hal
  rw [Aligned, hnext] at hal
  simp only [Int.toNat_natCast, Int.sub_self, Int.toNat_zero, twoIdentifiers_length,
    twoIdentifiers_drop, htake] at hal
  refine hal hspan (runs_cons.2 ⟨Nat.zero_le _, idMachines_not_finish [97], runs_idMachines ?_ [97]⟩)
  unfold BUFFER_TOTAL_SIZE BUFFER_SIZE at *
  omega

/-- The double buffer splits an identifier that reaches over the first refill
position. -/
theorem twoIdentifiers_not_same (hm : m < BUFFER_SIZE) (hn : n < BUFFER_SIZE)
    (hspan : BUFFER_TOTAL_SIZE - 1 < m + n + 3) :
    ¬SameResults (.ofBytes (twoIdentifiers m n)) := by
  have hlen := @twoIdentifiers_length m n
  have hinit : WholeInput.init (.ofBytes (twoIdentifiers m n)) =
      .ok ⟨twoIdentifiers m n, 0, 0⟩ := by
    refine if_neg ?_
    simp only [InputStream.ofBytes, id, hlen]
    omega
  have h₁ : source.after 1 ⟨twoIdentifiers m n, 0, 0⟩ =
      ⟨twoIdentifiers m n, (m + 1 : ℕ), (m + 1 : ℕ)⟩ :=
    congrArg Prod.snd (twoIdentifiers_first hm)
  have h₂ : source.after 2 ⟨twoIdentifiers m n, 0, 0⟩ =
      ⟨twoIdentifiers m n, (m + 2 : ℕ), (m + 2 : ℕ)⟩ := by
    rw [Source.after_succ, h₁, twoIdentifiers_second]
  have hlive : Live ⟨twoIdentifiers m n, 0, 0⟩ 2 := by
    intro j hj
    unfold Ended
    obtain rfl | rfl | rfl : j = 0 ∨ j = 1 ∨ j = 2 := by omega
    · simp [Source.after]
    · rw [h₁]
      simp only [hlen]
      omega
    · rw [h₂]
      simp only [hlen]
      omega
  intro hsame
  have hal := hsame.aligned (InputStream.ofBytes_fullReads _) (InputStream.ofBytes_exactAvailable _)
    twoIdentifiers_noEOF hinit hlive (by
      intro i hi
      unfold Source.result
      obtain rfl | rfl | rfl : i = 0 ∨ i = 1 ∨ i = 2 := by omega
      · rw [Source.after, twoIdentifiers_first hm]
        rfl
      · rw [h₁, twoIdentifiers_second]
        rfl
      · rw [h₂, twoIdentifiers_third hn]
        rfl)
  rw [h₂] at hal
  exact twoIdentifiers_not_aligned hm hn hspan hal

end TwoIdentifiers

/-- Lexemes of 1024, 1 and 1023 bytes, the last of them over position 2047. -/
theorem span_not_sameResults : ¬SameResults (.ofBytes (twoIdentifiers 1023 1022)) :=
  twoIdentifiers_not_same (by decide) (by decide) (by decide)

/-! ### A token up to a refill -/

/-- Three identifiers with `<` between them, the third of one byte. -/
def threeIdentifiers (m n : ℕ) : List UInt8 :=
  List.replicate (m + 1) (ascii 'a') ++ ascii '<' ::
    (List.replicate (n + 1) (ascii 'a') ++ [ascii '<', ascii 'a'])

section ThreeIdentifiers

open WholeInput

variable {m n : ℕ}

theorem threeIdentifiers_length : (threeIdentifiers m n).length = m + n + 5 := by
  simp [threeIdentifiers]
  omega

theorem threeIdentifiers_noEOF : EOF ∉ (InputStream.ofBytes (threeIdentifiers m n)).rest := by
  simp [InputStream.ofBytes, threeIdentifiers, List.mem_replicate, show EOF ≠ ascii 'a' by decide,
    show EOF ≠ ascii '<' by decide]

theorem threeIdentifiers_drop {k : ℕ} (u v : List UInt8) (hu : u.length = k)
    (h : threeIdentifiers m n = u ++ v) : (threeIdentifiers m n).drop k = v := by
  rw [h, ← hu, List.drop_left]

/-- Where the tokens start, and the end of the input. -/
def threeIdentifiersAt (m n : ℕ) : ℕ → ℕ
  | 0 => 0
  | 1 => m + 1
  | 2 => m + 2
  | 3 => m + n + 3
  | 4 => m + n + 4
  | _ => m + n + 5

theorem threeIdentifiers_scan (hm : m < BUFFER_SIZE) (hn : n < BUFFER_SIZE) {k : ℕ} (hk : k < 5) :
    ∃ ty name l, threeIdentifiersAt m n (k + 1) = threeIdentifiersAt m n k + l ∧
      scan 0 (resetAll stateMachines)
        ((threeIdentifiers m n).drop (threeIdentifiersAt m n k) ++ [EOF]) =
          (.token ty name, l + 1) := by
  have hdrop₁ : (threeIdentifiers m n).drop (m + 1) =
      ascii '<' :: (List.replicate (n + 1) (ascii 'a') ++ [ascii '<', ascii 'a']) :=
    threeIdentifiers_drop (List.replicate (m + 1) (ascii 'a')) _ (by simp) rfl
  have hdrop₂ : (threeIdentifiers m n).drop (m + 2) =
      List.replicate (n + 1) (ascii 'a') ++ [ascii '<', ascii 'a'] :=
    threeIdentifiers_drop (List.replicate (m + 1) (ascii 'a') ++ [ascii '<']) _ (by simp)
      (List.append_cons ..)
  have hdrop₃ : (threeIdentifiers m n).drop (m + n + 3) = [ascii '<', ascii 'a'] := by
    rw [show m + n + 3 = m + 2 + (n + 1) by omega, ← List.drop_drop, hdrop₂]
    exact List.drop_left' (by simp)
  have hdrop₄ : (threeIdentifiers m n).drop (m + n + 4) = [ascii 'a'] := by
    rw [show m + n + 4 = m + n + 3 + 1 by omega, ← List.drop_drop, hdrop₃]
    rfl
  obtain rfl | rfl | rfl | rfl | rfl : k = 0 ∨ k = 1 ∨ k = 2 ∨ k = 3 ∨ k = 4 := by omega
  · refine ⟨.ID, List.replicate (m + 1) 97, m + 1, (Nat.zero_add _).symm, ?_⟩
    rw [threeIdentifiersAt, List.drop_zero, threeIdentifiers, List.append_assoc]
    exact scan_identifier hm (.inl rfl) _
  · refine ⟨.RELOP, [60], 1, rfl, ?_⟩
    rw [threeIdentifiersAt, hdrop₁]
    rfl
  · refine ⟨.ID, List.replicate (n + 1) 97, n + 1, ?_, ?_⟩
    · simp only [threeIdentifiersAt]
      omega
    · rw [threeIdentifiersAt, hdrop₂, List.append_assoc]
      exact scan_identifier hn (.inl rfl) _
  · refine ⟨.RELOP, [60], 1, rfl, ?_⟩
    rw [threeIdentifiersAt, hdrop₃]
    rfl
  · refine ⟨.ID, [97], 1, rfl, ?_⟩
    rw [threeIdentifiersAt, hdrop₄]
    rfl

theorem threeIdentifiersAt_le (k : ℕ) : threeIdentifiersAt m n k ≤ m + n + 5 := by
  unfold threeIdentifiersAt
  split <;> omega

/-- The first five calls return tokens. -/
theorem threeIdentifiers_after (hm : m < BUFFER_SIZE) (hn : n < BUFFER_SIZE) {k : ℕ} (hk : k ≤ 5) :
    source.after k ⟨threeIdentifiers m n, 0, 0⟩ =
      ⟨threeIdentifiers m n, threeIdentifiersAt m n k, threeIdentifiersAt m n k⟩ := by
  induction k with
  | zero => rfl
  | succ k ih =>
      obtain ⟨ty, name, l, hl, hscan⟩ := threeIdentifiers_scan hm hn (Nat.lt_of_succ_le hk)
      have hp : threeIdentifiersAt m n k ≤ (threeIdentifiers m n).length := by
        rw [threeIdentifiers_length]
        exact threeIdentifiersAt_le k
      rw [Source.after_succ, ih (by omega), parseToken_of_scan hp rfl hscan, hl]

theorem threeIdentifiers_token (hm : m < BUFFER_SIZE) (hn : n < BUFFER_SIZE) {k : ℕ} (hk : k < 5) :
    (source.result k ⟨threeIdentifiers m n, 0, 0⟩).isToken = true := by
  obtain ⟨ty, name, l, -, hscan⟩ := threeIdentifiers_scan hm hn hk
  have hp : threeIdentifiersAt m n k ≤ (threeIdentifiers m n).length := by
    rw [threeIdentifiers_length]
    exact threeIdentifiersAt_le k
  rw [Source.result, threeIdentifiers_after hm hn hk.le, parseToken_of_scan hp rfl hscan]
  rfl

theorem threeIdentifiers_live (hm : m < BUFFER_SIZE) (hn : n < BUFFER_SIZE) {k : ℕ} (hk : k ≤ 5) :
    Live ⟨threeIdentifiers m n, 0, 0⟩ k := by
  intro j hj
  have hle := @threeIdentifiersAt_le m n j
  rw [threeIdentifiers_after hm hn (hj.trans hk), Ended, threeIdentifiers_length]
  exact not_lt.2 (Int.ofNat_le.2 hle)

/-- The sixth call reads the end of the input. -/
theorem threeIdentifiers_ended (hm : m < BUFFER_SIZE) (hn : n < BUFFER_SIZE) :
    (source.after 6 ⟨threeIdentifiers m n, 0, 0⟩).Ended := by
  have hend : (threeIdentifiers m n).drop (m + n + 5) = [] :=
    List.drop_of_length_le threeIdentifiers_length.le
  have hcall := @parseToken_eq ⟨threeIdentifiers m n, (m + n + 5 : ℕ), (m + n + 5 : ℕ)⟩ (m + n + 5) 0
    rfl (by simp) (Nat.zero_le _) threeIdentifiers_length.ge
  have hscan : scan 0 (resetAll stateMachines) [EOF] = (.throws illegalString, 1) := rfl
  rw [hend, List.nil_append, hscan] at hcall
  rw [Source.after_succ, threeIdentifiers_after hm hn le_rfl,
    show threeIdentifiersAt m n 5 = m + n + 5 from rfl, hcall, Ended]
  simp only [Source.settle, Result.isToken, Bool.false_eq_true, if_false, threeIdentifiers_length]
  omega

end ThreeIdentifiers

/-- Two tokens of 1022 and 1024 bytes with `<` between them fill the buffer, and the byte
at position 2047 ends the second one. -/
theorem threeIdentifiers_aligned : AlignedRun (.ofBytes (threeIdentifiers 1021 1023)) := by
  have hm : 1021 < BUFFER_SIZE := by decide
  have hn : 1023 < BUFFER_SIZE := by decide
  have hplaces : ∀ k < 5, threeIdentifiersAt 1021 1023 (k + 1) ≤
      WholeInput.refillFrom (threeIdentifiersAt 1021 1023 k + 1) := by
    decide
  intro b hb k hlive
  rw [WholeInput.init, if_neg (by simp [InputStream.ofBytes, threeIdentifiers_length])] at hb
  cases hb
  have hk : k < 6 := Nat.lt_of_not_le fun hk => hlive 6 hk (threeIdentifiers_ended hm hn)
  change (WholeInput.source.after k ⟨threeIdentifiers 1021 1023, 0, 0⟩).Aligned
  rw [threeIdentifiers_after hm hn (Nat.le_of_lt_succ hk)]
  rcases Nat.lt_succ_iff_lt_or_eq.1 hk with hk | rfl
  · obtain ⟨ty, name, l, hl, hscan⟩ := threeIdentifiers_scan hm hn hk
    refine WholeInput.aligned_of_scan ?_ hscan ?_
    · rw [threeIdentifiers_length]
      exact threeIdentifiersAt_le k
    · rw [← hl]
      exact hplaces k hk
  -- there is no refill position left
  · intro hlt
    rw [threeIdentifiers_length] at hlt
    exact absurd hlt (by decide)

-- the runs on a long input are not to be evaluated
attribute [irreducible] SameResults

theorem parseToken_refines_refill : SameResults (.ofBytes (threeIdentifiers 1021 1023)) :=
  (parseToken_refines (InputStream.ofBytes_fullReads _) (InputStream.ofBytes_exactAvailable _)
    threeIdentifiers_noEOF).1 threeIdentifiers_aligned

/-- The names of the five tokens, two of them read after the refill, are the whole input. -/
theorem parseToken_lossless_refill : ∃ a v,
    LexicalAnalyzer.init (.ofBytes (threeIdentifiers 1021 1023)) = .ok a ∧
      (InputStream.ofBytes (threeIdentifiers 1021 1023)).rest =
        v ++ (LexicalAnalyzer.source.after 5 a).unread ∧
      a.names 5 = v.map toChar := by
  have hfull := InputStream.ofBytes_fullReads (threeIdentifiers 1021 1023)
  have hexact := InputStream.ofBytes_exactAvailable (threeIdentifiers 1021 1023)
  have hsame := threeIdentifiers_aligned.sameResults hfull hexact threeIdentifiers_noEOF
  unfold SameResults at hsame
  rcases init_cases hfull hexact with ⟨e, -, hb⟩ | ⟨a, ha, hb⟩
  · rw [WholeInput.init, if_neg (by simp [InputStream.ofBytes, threeIdentifiers_length])] at hb
    cases hb
  · rw [ha, hb] at hsame
    have htokens : ∀ i < 5, (LexicalAnalyzer.source.result i a).isToken = true := by
      intro i hi
      rw [hsame i (@threeIdentifiers_live 1021 1023 (by decide) (by decide) i hi.le)]
      exact @threeIdentifiers_token 1021 1023 (by decide) (by decide) i hi
    obtain ⟨v, hsplit, hnames⟩ := LexicalAnalyzer.parseToken_lossless hfull rfl
      threeIdentifiers_noEOF ha 5 htokens
    exact ⟨a, v, ha, hsplit, hnames⟩

end MyJavaExample.Lexer
