import MyJavaExample.Lexer.Scan

/-!
# The double buffer loses no character

`Holds a f u` says what the buffer holds from `forward` on: the bytes `u` and
then `EOF`, which is in the last cell as long as the stream has more.  A call
of `parseToken` on such a buffer computes the scan of `u` followed by `EOF`,
and a refill happens exactly when that `EOF` is read (`Holds.parseToken_eq`).
The refill puts the next byte of the stream into the cell the `EOF` was in.  A
token gives its last character back, so afterwards `forward` is at that cell;
an exception gives nothing back and skips it.
-/

namespace MyJavaExample.Lexer

open Java

namespace LexicalAnalyzer

/-- From cell `f` on, where `forward` points, the buffer holds `u` and then
`EOF`. -/
structure Holds (a : LexicalAnalyzer) (f : ℕ) (u : List UInt8) : Prop where
  forward : a.forward = f
  fits : f + u.length < BUFFER_TOTAL_SIZE
  byte : ∀ i (h : i < u.length), a.buffer (f + i) = u[i]
  mark : a.buffer (f + u.length) = EOF
  noEOF : EOF ∉ u
  full : a.inputStream.rest ≠ [] → f + u.length = BUFFER_TOTAL_SIZE - 1

/-- The pointers set anew. -/
def seek (a : LexicalAnalyzer) (begin forward : ℤ) : LexicalAnalyzer := { a with begin, forward }

theorem Holds.seek {a : LexicalAnalyzer} {f n : ℕ} {u : List UInt8} (h : a.Holds f u)
    (hn : n ≤ u.length) (begin : ℤ) : (a.seek begin (f + n : ℕ)).Holds (f + n) (u.drop n) where
  forward := rfl
  fits := by
    have hfits := h.fits
    rw [List.length_drop]
    omega
  byte i hi := by
    rw [List.length_drop] at hi
    rw [List.getElem_drop, ← h.byte (n + i) (by omega), Nat.add_assoc]
    rfl
  mark := by
    have hcell : f + n + (u.drop n).length = f + u.length := by
      rw [List.length_drop]
      omega
    rw [hcell]
    exact h.mark
  noEOF hm := h.noEOF (List.mem_of_mem_drop hm)
  full hr := by
    have hfull := h.full hr
    rw [List.length_drop]
    omega

/-- What a `read` into the buffer at `off`, followed by the mark, leaves there. -/
theorem Holds.of_read {s : InputStream} {b : Buffer} {off len : ℕ} (begin : ℤ)
    (hlen : off + len = BUFFER_TOTAL_SIZE - 1) (hEOF : EOF ∉ s.rest) :
    Holds { inputStream := { s with rest := s.rest.drop len }
            buffer := (b.store off (s.rest.take len)).set (off + (s.rest.take len).length) EOF
            begin := begin
            forward := off } off (s.rest.take len) where
  forward := rfl
  fits := by
    have hle := List.length_take_le len s.rest
    unfold BUFFER_TOTAL_SIZE at *
    omega
  byte i hi := by
    simp only [Buffer.set, Buffer.store]
    rw [if_neg (by omega), if_pos ⟨by omega, by omega⟩, Nat.add_sub_cancel_left,
      List.getD_eq_getElem?_getD, List.getElem?_eq_getElem hi]
    rfl
  mark := if_pos rfl
  noEOF hm := hEOF (List.mem_of_mem_take hm)
  full hr := by
    have hlt : len < s.rest.length := by simpa using hr
    rw [List.length_take_of_le hlt.le]
    exact hlen

theorem init_holds {s : InputStream} {a : LexicalAnalyzer} (hfull : s.FullReads)
    (hsound : s.AvailableSound) (hEOF : EOF ∉ s.rest) (h : init s = .ok a) :
    a.Holds 0 (s.rest.take (BUFFER_TOTAL_SIZE - 1)) ∧
      a.inputStream = { s with rest := s.rest.drop (BUFFER_TOTAL_SIZE - 1) } ∧ a.begin = 0 := by
  rw [init] at h
  split at h
  next => cases h
  next havail =>
    have hne : s.rest ≠ [] := by
      intro hnil
      rw [hnil] at havail
      exact havail (le_of_eq hsound)
    rw [s.read_of_fullReads hfull (by decide) hne] at h
    cases h
    refine ⟨?_, rfl, rfl⟩
    have hread := @Holds.of_read s (fun _ => 0) 0 (BUFFER_TOTAL_SIZE - 1) 0 (Nat.zero_add _) hEOF
    rwa [Nat.zero_add] at hread

/-! ## The refill -/

/-- A refill moves both pointers back by half of the buffer. -/
theorem refill_seek (a : LexicalAnalyzer) :
    a.refill.seek (a.begin - BUFFER_SIZE) (a.forward - BUFFER_SIZE) = a.refill := by
  unfold refill
  rcases h : a.inputStream.read BUFFER_SIZE with ⟨_ | bs, s⟩ <;> simp [h, seek]

theorem refill_lag (a : LexicalAnalyzer) :
    a.refill.forward - a.refill.begin = a.forward - a.begin := by
  rw [← refill_seek]
  simp [seek]

section Refill

variable {a : LexicalAnalyzer} (hfull : a.inputStream.FullReads) (hrest : a.inputStream.rest ≠ [])

include hfull hrest

theorem refill_inputStream : a.refill.inputStream =
    { a.inputStream with rest := a.inputStream.rest.drop BUFFER_SIZE } := by
  unfold refill
  simp only [a.inputStream.read_of_fullReads hfull (show BUFFER_SIZE ≠ 0 by decide) hrest]

/-- The cell before `forward` holds the first byte the refill read. -/
theorem refill_holds (hEOF : EOF ∉ a.inputStream.rest) (begin : ℤ) :
    (a.refill.seek begin (BUFFER_SIZE - 1 : ℕ)).Holds (BUFFER_SIZE - 1)
      (a.inputStream.rest.take BUFFER_SIZE) := by
  have hread := Holds.of_read (b := a.buffer.arraycopy BUFFER_SIZE 0 (BUFFER_SIZE - 1)) begin
    (show BUFFER_SIZE - 1 + BUFFER_SIZE = BUFFER_TOTAL_SIZE - 1 by decide) hEOF
  unfold refill
  simp only [a.inputStream.read_of_fullReads hfull (show BUFFER_SIZE ≠ 0 by decide) hrest]
  exact hread

end Refill

/-! ## What the buffer serves -/

/-- The state after the mark has been read. -/
def passMark (a : LexicalAnalyzer) (f : ℕ) (u : List UInt8) : LexicalAnalyzer :=
  let a := a.seek a.begin (f + u.length + 1 : ℕ)
  if a.inputStream.avail a.inputStream.rest.length > 0 then a.refill else a

/-- The state after `i` characters have been read. -/
def served (a : LexicalAnalyzer) (f : ℕ) (u : List UInt8) (i : ℕ) : LexicalAnalyzer :=
  if i ≤ u.length then a.seek a.begin (f + i : ℕ) else a.passMark f u

theorem passMark_refill {a : LexicalAnalyzer} {f : ℕ} {u : List UInt8}
    (h : a.inputStream.avail a.inputStream.rest.length > 0) :
    a.passMark f u = (a.seek a.begin (f + u.length + 1 : ℕ)).refill :=
  if_pos h

theorem passMark_end {a : LexicalAnalyzer} {f : ℕ} {u : List UInt8}
    (h : ¬a.inputStream.avail a.inputStream.rest.length > 0) :
    a.passMark f u = a.seek a.begin (f + u.length + 1 : ℕ) :=
  if_neg h

theorem passMark_lag (a : LexicalAnalyzer) (f : ℕ) (u : List UInt8) :
    (a.passMark f u).forward - (a.passMark f u).begin = (f + u.length + 1 : ℕ) - a.begin := by
  by_cases h : a.inputStream.avail a.inputStream.rest.length > 0
  · rw [passMark_refill h, refill_lag]
    rfl
  · rw [passMark_end h]
    rfl

theorem served_lag {a : LexicalAnalyzer} {f i : ℕ} {u : List UInt8} (hi : i ≤ u.length + 1) :
    (a.served f u i).forward - (a.served f u i).begin = (f + i : ℕ) - a.begin := by
  unfold served
  split
  · rfl
  · rw [passMark_lag]
    omega

theorem Holds.served_zero {a : LexicalAnalyzer} {f : ℕ} {u : List UInt8} (h : a.Holds f u) :
    a.served f u 0 = a := by
  rw [served, if_pos (Nat.zero_le _), Nat.add_zero, ← h.forward]
  rfl

theorem Holds.serves {a : LexicalAnalyzer} {f lag : ℕ} {u : List UInt8} (h : a.Holds f u)
    (hlag : a.forward - a.begin = lag) : source.Serves lag (u ++ [EOF]) (a.served f u) where
  tooLong i hi hlong := by
    have hahead : (a.served f u i).forward - (a.served f u i).begin > BUFFER_SIZE := by
      rw [served_lag (by simpa using hi)]
      have hf := h.forward
      omega
    simp only [source, getNextCh, if_pos hahead]
  next i hi hshort := by
    have hi' : i ≤ u.length := by
      rw [List.length_append, List.length_singleton] at hi
      omega
    have hstate : a.served f u i = a.seek a.begin (f + i : ℕ) := if_pos hi'
    have hnear : ¬((f + i : ℕ) : ℤ) - a.begin > BUFFER_SIZE := by
      have := h.forward
      omega
    have hget : a.buffer.get ((f + i : ℕ) : ℤ) = .ok (a.buffer (f + i)) := by
      have hfits := h.fits
      rw [Buffer.get, if_pos ⟨by omega, by omega⟩, Int.toNat_natCast]
    rw [hstate]
    simp only [source, getNextCh, LexicalAnalyzer.seek, if_neg hnear, hget]
    rcases Nat.lt_or_ge i u.length with hlt | hge
    · -- a byte before the mark
      have hne : u[i] ≠ EOF := fun hm => h.noEOF (hm ▸ List.getElem_mem hlt)
      rw [h.byte i hlt, if_neg hne, List.getElem_append_left hlt, served,
        if_pos (Nat.succ_le_of_lt hlt)]
      rfl
    · -- the mark
      obtain rfl : i = u.length := Nat.le_antisymm hi' hge
      rw [h.mark, if_pos rfl, served, if_neg (Nat.not_succ_le_self _)]
      simp only [List.getElem_concat_length]
      by_cases hav : a.inputStream.avail a.inputStream.rest.length > 0
      · rw [if_pos hav, passMark_refill hav]
        rfl
      · rw [if_neg hav, passMark_end hav]
        rfl

/-- A call of `parseToken` computes the scan of what the buffer holds. -/
theorem Holds.parseToken_eq {a : LexicalAnalyzer} {f lag : ℕ} {u : List UInt8} (h : a.Holds f u)
    (hlag : a.forward - a.begin = lag) (hle : lag ≤ BUFFER_SIZE + 1) :
    source.parseToken a = ((scan lag (resetAll stateMachines) (u ++ [EOF])).1,
      source.settle (scan lag (resetAll stateMachines) (u ++ [EOF])).1
        (a.served f u (scan lag (resetAll stateMachines) (u ++ [EOF])).2)) := by
  have hcall := Source.parseToken_eq_scan (h.serves hlag) hle
    (List.mem_append_right u (List.mem_singleton_self EOF))
  rwa [h.served_zero] at hcall

/-! ## The state after a call -/

/-- The bytes not consumed yet: those of the buffer from `forward` up to the
mark, and those of the stream. -/
def unread (a : LexicalAnalyzer) : List UInt8 :=
  ((List.range' a.forward.toNat (BUFFER_TOTAL_SIZE - a.forward.toNat)).map a.buffer).takeWhile
    (· ≠ EOF) ++ a.inputStream.rest

theorem Holds.unread_eq {a : LexicalAnalyzer} {f : ℕ} {u : List UInt8} (h : a.Holds f u) :
    a.unread = u ++ a.inputStream.rest := by
  have hfits := h.fits
  obtain ⟨m, hm⟩ : ∃ m, BUFFER_TOTAL_SIZE - f = u.length + (m + 1) :=
    ⟨BUFFER_TOTAL_SIZE - f - u.length - 1, by omega⟩
  have hu : (List.range' f u.length).map a.buffer = u := by
    refine List.ext_getElem (by simp) fun i _ hi => ?_
    rw [List.getElem_map, List.getElem_range', Nat.one_mul]
    exact h.byte i hi
  have hrange : (List.range' f (u.length + (m + 1))).map a.buffer =
      u ++ EOF :: (List.range' (f + u.length + 1) m).map a.buffer := by
    rw [← List.range'_append_1, List.map_append, hu, List.range'_succ, List.map_cons, h.mark]
  have hne : ∀ b ∈ u, decide (b ≠ EOF) = true := by
    intro b hb
    exact decide_eq_true fun he => h.noEOF (he ▸ hb)
  rw [unread, h.forward, Int.toNat_natCast, hm, hrange, List.takeWhile_append_of_pos hne,
    List.takeWhile_cons_of_neg (by simp), List.append_nil]

/-- The stream of the analyzer serves its reads in full, and what is left in it
contains no mark. -/
structure Fed (a : LexicalAnalyzer) : Prop where
  fullReads : a.inputStream.FullReads
  sound : a.inputStream.AvailableSound
  noEOF : EOF ∉ a.inputStream.rest

theorem Fed.rest_ne_nil {a : LexicalAnalyzer} (h : a.Fed)
    (havail : a.inputStream.avail a.inputStream.rest.length > 0) : a.inputStream.rest ≠ [] := by
  intro hnil
  rw [hnil] at havail
  exact absurd h.sound (Nat.ne_of_gt havail)

theorem init_fed {s : InputStream} {a : LexicalAnalyzer} (hfull : s.FullReads)
    (hsound : s.AvailableSound) (hEOF : EOF ∉ s.rest) (h : init s = .ok a) : a.Fed := by
  obtain ⟨-, hstream, -⟩ := init_holds hfull hsound hEOF h
  refine ⟨?_, ?_, ?_⟩
  · rw [hstream]
    exact hfull
  · rw [hstream]
    exact hsound
  · rw [hstream]
    exact fun hm => hEOF (List.mem_of_mem_drop hm)

section AfterCall

variable {a : LexicalAnalyzer} {f n : ℕ} {u : List UInt8}

/-- A token that ends before the mark, or at the mark when the stream has no
more. -/
theorem retract_served (hn : 1 ≤ n) (hle : n ≤ u.length + 1)
    (hkept : n ≤ u.length ∨ ¬a.inputStream.avail a.inputStream.rest.length > 0) :
    source.retract (a.served f u n) = a.seek (f + (n - 1) : ℕ) (f + (n - 1) : ℕ) := by
  have hpos : ((f + n : ℕ) : ℤ) - 1 = (f + (n - 1) : ℕ) := by omega
  rcases Nat.lt_or_ge u.length n with hlt | hge
  · obtain rfl : n = u.length + 1 := by omega
    have havail := hkept.resolve_left (Nat.not_le.2 hlt)
    rw [served, if_neg (Nat.not_succ_le_self _), passMark_end havail, ← hpos]
    rfl
  · rw [served, if_pos hge, ← hpos]
    rfl

/-- A call that reads the mark while the stream has more. -/
theorem served_refill (h : a.Holds f u) (hfed : a.Fed)
    (havail : a.inputStream.avail a.inputStream.rest.length > 0) :
    a.served f u (u.length + 1) =
      (a.seek a.begin BUFFER_TOTAL_SIZE).refill.seek (a.begin - BUFFER_SIZE) BUFFER_SIZE := by
  have hcell : f + u.length + 1 = BUFFER_TOTAL_SIZE := by
    rw [h.full (hfed.rest_ne_nil havail)]
    rfl
  rw [served, if_neg (Nat.not_succ_le_self _), passMark_refill havail, hcell, ← refill_seek]
  rfl

theorem seek_fed (h : a.Fed) (begin forward : ℤ) : (a.seek begin forward).Fed :=
  ⟨h.fullReads, h.sound, h.noEOF⟩

theorem refill_fed (h : a.Fed) (hrest : a.inputStream.rest ≠ []) : a.refill.Fed := by
  have hstream := refill_inputStream h.fullReads hrest
  refine ⟨?_, ?_, ?_⟩
  · rw [hstream]
    exact h.fullReads
  · rw [hstream]
    exact h.sound
  · rw [hstream]
    exact fun hm => h.noEOF (List.mem_of_mem_drop hm)

/-- The analyzer `a'` after a call that read `n` characters on an analyzer `a`
that held `u`, and consumed `d` of them: what it holds starts `d` bytes later.
Either nothing was read from the stream, or the mark was read and the buffer
refilled. -/
structure Moved (a : LexicalAnalyzer) (u : List UInt8) (n d : ℕ) (a' : LexicalAnalyzer) (f' : ℕ)
    (u' : List UInt8) : Prop where
  holds : a'.Holds f' u'
  fed : a'.Fed
  avail : a'.inputStream.avail = a.inputStream.avail
  unread : u' ++ a'.inputStream.rest = (u ++ a.inputStream.rest).drop d
  mark : d + u'.length = u.length ∧ a'.inputStream.rest = a.inputStream.rest ∧
      (n ≤ u.length ∨ ¬a.inputStream.avail a.inputStream.rest.length > 0) ∨
    n = u.length + 1 ∧ a.inputStream.rest ≠ [] ∧
      d + u'.length = u.length + (a.inputStream.rest.take BUFFER_SIZE).length ∧
      a'.inputStream.rest = a.inputStream.rest.drop BUFFER_SIZE

/-- Nothing was read from the stream. -/
theorem Moved.kept {d : ℕ} (h : a.Holds f u) (hfed : a.Fed) (hd : d ≤ u.length)
    (hn : n ≤ u.length ∨ ¬a.inputStream.avail a.inputStream.rest.length > 0) (begin : ℤ) :
    Moved a u n d (a.seek begin (f + d : ℕ)) (f + d) (u.drop d) where
  holds := h.seek hd begin
  fed := seek_fed hfed _ _
  avail := rfl
  unread := (List.drop_append_of_le_length hd).symm
  mark := .inl ⟨by rw [List.length_drop]; omega, rfl, hn⟩

/-- The mark was read and `e` bytes of the refill were consumed. -/
theorem Moved.refilled {e : ℕ} (hfed : a.Fed) (hrest : a.inputStream.rest ≠ []) (he : e ≤ 1)
    (begin : ℤ) (x y : ℤ) :
    Moved a u (u.length + 1) (u.length + e)
      ((a.seek x y).refill.seek begin (BUFFER_SIZE - 1 + e : ℕ)) (BUFFER_SIZE - 1 + e)
      ((a.inputStream.rest.take BUFFER_SIZE).drop e) := by
  have hfed' := seek_fed hfed x y
  have hstream : (a.seek x y).refill.inputStream = _ := refill_inputStream hfed'.fullReads hrest
  have hpos : 1 ≤ (a.inputStream.rest.take BUFFER_SIZE).length := by
    have := List.length_pos_iff.2 hrest
    rw [List.length_take]
    unfold BUFFER_SIZE
    omega
  refine ⟨(refill_holds hfed'.fullReads hrest hfed'.noEOF begin).seek (by exact he.trans hpos) begin,
    seek_fed (refill_fed hfed' hrest) _ _, ?_, ?_, .inr ⟨rfl, hrest, ?_, ?_⟩⟩
  · have havail := congrArg InputStream.avail hstream
    exact havail
  · have hrest' : ((a.seek x y).refill.seek begin (BUFFER_SIZE - 1 + e : ℕ)).inputStream.rest =
        a.inputStream.rest.drop BUFFER_SIZE := congrArg InputStream.rest hstream
    rw [hrest', ← List.drop_append_of_le_length (he.trans hpos), List.take_append_drop,
      List.drop_append, Nat.add_sub_cancel_left, List.drop_of_length_le (Nat.le_add_right _ _)]
    rfl
  · rw [List.length_drop]
    omega
  · exact congrArg InputStream.rest hstream

/-- After a token the buffer holds what follows it. -/
theorem Holds.after_token (h : a.Holds f u) (hfed : a.Fed) (hn : 1 ≤ n) (hle : n ≤ u.length + 1) :
    ∃ f' u', Moved a u n (n - 1) (source.retract (a.served f u n)) f' u' := by
  by_cases hkept : n ≤ u.length ∨ ¬a.inputStream.avail a.inputStream.rest.length > 0
  · rw [retract_served hn hle hkept]
    exact ⟨_, _, .kept h hfed (by omega) hkept _⟩
  · obtain ⟨hlt, havail⟩ := not_or.1 hkept
    obtain rfl : n = u.length + 1 := by omega
    rw [served_refill h hfed (not_not.1 havail)]
    exact ⟨_, _, .refilled hfed (hfed.rest_ne_nil (not_not.1 havail)) (Nat.zero_le 1) _ _ _⟩

/-- After an exception the buffer holds what follows the last character read,
unless that was the mark at the end of the input. -/
theorem Holds.after_throw (h : a.Holds f u) (hfed : a.Fed) (hle : n ≤ u.length + 1)
    (hmore : n ≤ u.length ∨ a.inputStream.avail a.inputStream.rest.length > 0) :
    ∃ f' u', Moved a u n n (a.served f u n) f' u' := by
  rcases Nat.lt_or_ge u.length n with hlt | hge
  · obtain rfl : n = u.length + 1 := by omega
    have havail := hmore.resolve_left (Nat.not_le.2 hlt)
    rw [served_refill h hfed havail]
    exact ⟨_, _, .refilled hfed (hfed.rest_ne_nil havail) le_rfl _ _ _⟩
  · rw [served, if_pos hge]
    exact ⟨_, _, .kept h hfed hge (.inl hge) _⟩

end AfterCall

/-! ## The names of the tokens -/

/-- A call on a buffer that holds `u`, with `forward` at `begin`, returns a token
only if its name is the text it consumed. -/
theorem Holds.token_call {a : LexicalAnalyzer} {f : ℕ} {u : List UInt8} (h : a.Holds f u)
    (hfed : a.Fed) (hbegin : a.begin = a.forward) (htoken : (source.result 0 a).isToken) :
    ∃ f' u' v, (source.parseToken a).2.Holds f' u' ∧ (source.parseToken a).2.Fed ∧
      (source.parseToken a).2.begin = (source.parseToken a).2.forward ∧
      u ++ a.inputStream.rest = v ++ (u' ++ (source.parseToken a).2.inputStream.rest) ∧
      (source.result 0 a).name = v.map toChar := by
  have hlag : a.forward - a.begin = (0 : ℕ) := by
    rw [hbegin]
    simp
  have hcall := h.parseToken_eq hlag (Nat.zero_le _)
  have hres : source.result 0 a = (scan 0 (resetAll stateMachines) (u ++ [EOF])).1 :=
    congrArg Prod.fst hcall
  have hread : (scan 0 (resetAll stateMachines) (u ++ [EOF])).2 ≤ u.length + 1 := by
    simpa using scan_read_le (l := u ++ [EOF])
  rw [hres] at htoken ⊢
  rw [hcall, Source.settle, if_pos htoken]
  cases hscan : (scan 0 (resetAll stateMachines) (u ++ [EOF])).1 with
  | token ty name =>
      have hpos := scan_token_pos hscan
      have hname := scan_token (TrackAll.reset stateMachines) hscan
      obtain ⟨f', u', hmoved⟩ := h.after_token hfed hpos hread
      refine ⟨f', u', (u ++ a.inputStream.rest).take
        ((scan 0 (resetAll stateMachines) (u ++ [EOF])).2 - 1), hmoved.holds, hmoved.fed, rfl, ?_, ?_⟩
      · rw [hmoved.unread, List.take_append_drop]
      · rw [List.take_append_of_le_length (by omega)]
        rw [List.nil_append, List.take_append_of_le_length (by omega)] at hname
        exact hname
  | null => simp [hscan, Result.isToken] at htoken
  | throws e => simp [hscan, Result.isToken] at htoken
  | running => simp [hscan, Result.isToken] at htoken

/-- The names of the tokens of the first `k` calls, one after the other. -/
def names (a : LexicalAnalyzer) (k : ℕ) : List UInt16 :=
  (List.range k).flatMap fun i => (source.result i a).name

theorem names_succ (a : LexicalAnalyzer) (k : ℕ) :
    a.names (k + 1) = a.names k ++ (source.result 0 (source.after k a)).name := by
  rw [names, List.range_succ, List.flatMap_append]
  simp [names, Source.result, Source.after]

/-- As long as the calls return tokens, their names are the input up to where
the next call starts to read. -/
theorem Holds.names_eq {a : LexicalAnalyzer} {f k : ℕ} {u : List UInt8} (h : a.Holds f u)
    (hfed : a.Fed) (hbegin : a.begin = a.forward)
    (htokens : ∀ i < k, (source.result i a).isToken) :
    ∃ f' u' v, (source.after k a).Holds f' u' ∧ (source.after k a).Fed ∧
      (source.after k a).begin = (source.after k a).forward ∧
      u ++ a.inputStream.rest = v ++ (u' ++ (source.after k a).inputStream.rest) ∧
      a.names k = v.map toChar := by
  induction k with
  | zero => exact ⟨f, u, [], h, hfed, hbegin, rfl, rfl⟩
  | succ k ih =>
      obtain ⟨f₁, u₁, v₁, h₁, hfed₁, hbegin₁, hsplit₁, hnames₁⟩ :=
        ih fun i hi => htokens i (Nat.lt_succ_of_lt hi)
      obtain ⟨f₂, u₂, v₂, h₂, hfed₂, hbegin₂, hsplit₂, hname₂⟩ :=
        h₁.token_call hfed₁ hbegin₁ (htokens k (Nat.lt_succ_self k))
      rw [Source.after_succ]
      refine ⟨f₂, u₂, v₁ ++ v₂, h₂, hfed₂, hbegin₂, ?_, ?_⟩
      · rw [hsplit₁, hsplit₂, List.append_assoc]
      · rw [names_succ, hnames₁, hname₂, List.map_append]

/-- If the first `k` calls return tokens, the names of these, one after the
other, are the prefix of the input that ends where the next call starts to
read. -/
theorem parseToken_lossless {s : InputStream} {a : LexicalAnalyzer} (hfull : s.FullReads)
    (hsound : s.AvailableSound) (hEOF : EOF ∉ s.rest) (hinit : init s = .ok a) (k : ℕ)
    (htokens : ∀ i < k, (source.result i a).isToken) :
    ∃ v, s.rest = v ++ (source.after k a).unread ∧ a.names k = v.map toChar := by
  obtain ⟨hholds, hstream, hbegin⟩ := init_holds hfull hsound hEOF hinit
  obtain ⟨f', u', v, h', -, -, hsplit, hnames⟩ :=
    hholds.names_eq (init_fed hfull hsound hEOF hinit) (by rw [hbegin, hholds.forward]; rfl) htokens
  refine ⟨v, ?_, hnames⟩
  rw [h'.unread_eq, ← hsplit, hstream, List.take_append_drop]

/-- The input `if x == 10 x = 15` of the test `parseToken3`. -/
def testInput : InputStream := .ofBytes ("if x == 10 x = 15".toList.map ascii)

/-- The analyzer that `init` makes for it. -/
def testAnalyzer : LexicalAnalyzer where
  inputStream := .ofBytes []
  buffer := (Buffer.store (fun _ => 0) 0 testInput.rest).set testInput.rest.length EOF
  begin := 0
  forward := 0

theorem testInput_init : init testInput = .ok testAnalyzer := rfl

end LexicalAnalyzer

end MyJavaExample.Lexer
