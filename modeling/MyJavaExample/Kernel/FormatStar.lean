import MyJavaExample.Kernel.Vsprintf

/-!
# A `*` in a format

`vsprintf` takes the argument for a `*` and leaves the pointer at it.  The `*`
is then the letter of the conversion, which no case knows: it is written behind
a `%`, and what follows is plain text.  A width in digits gives a number there,
and no number starts with a `%`.
-/

namespace MyJavaExample.Kernel

open Lib

/-! ## Integer conversions -/

inductive Flag where
  | minus
  | plus
  | space
  | hash
  | zero

def Flag.char : Flag → UInt8
  | .minus => ascii '-'
  | .plus => ascii '+'
  | .space => ascii ' '
  | .hash => ascii '#'
  | .zero => ascii '0'

/-- A width or a precision; without digits there is none. -/
inductive Field where
  | literal (digits : List (Fin 10))
  | star

def digitChar (d : Fin 10) : UInt8 := digit false d.val

def Field.text : Field → List UInt8
  | .literal digits => digits.map digitChar
  | .star => [ascii '*']

def Field.isStar : Field → Bool
  | .literal _ => false
  | .star => true

/-- The numeral of a number. -/
def Field.decimal (n : ℕ) : Field := .literal ((digitsOf 10 n).reverse.map (Fin.ofNat 10))

inductive Qualifier where
  | h
  | l
  | L

def Qualifier.char : Qualifier → UInt8
  | .h => ascii 'h'
  | .l => ascii 'l'
  | .L => ascii 'L'

inductive IntLetter where
  | d
  | i
  | u
  | o
  | x
  | X

def IntLetter.char : IntLetter → UInt8
  | .d => ascii 'd'
  | .i => ascii 'i'
  | .u => ascii 'u'
  | .o => ascii 'o'
  | .x => ascii 'x'
  | .X => ascii 'X'

/-- An integer conversion; a precision stands behind a point. -/
structure IntConv where
  flags : List Flag
  width : Field
  precision : Option Field
  qualifier : Option Qualifier
  letter : IntLetter

namespace IntConv

variable (c : IntConv)

/-- The qualifier and the letter. -/
def lastText : List UInt8 := (c.qualifier.map Qualifier.char).toList ++ [c.letter.char]

def precisionText : List UInt8 :=
  match c.precision with
  | none => []
  | some p => ascii '.' :: p.text

def text : List UInt8 :=
  ascii '%' :: (c.flags.map Flag.char ++ (c.width.text ++ (c.precisionText ++ c.lastText)))

/-- The place of a `*`. -/
inductive Place where
  | width
  | precision

def get : Place → Option Field
  | .width => some c.width
  | .precision => c.precision

def set (f : Field) : Place → IntConv
  | .width => { c with width := f }
  | .precision => { c with precision := some f }

/-- The number of arguments of the conversion before the one for a `*`. -/
def before : Place → ℕ
  | .width => 0
  | .precision => if c.width.isStar then 1 else 0

end IntConv

/-- The arguments without one of them. -/
def dropArg (i : ℕ) (args : ℕ → UInt32) (j : ℕ) : UInt32 := if j < i then args j else args (j + 1)

/-- The same output and the same value returned, with one argument more taken in
the first call. -/
def Same (r r' : Scan) : Prop :=
  r.str = r'.str ∧ r.ap = r'.ap + 1 ∧ r.str.length = r'.str.length

section

variable {strings : UInt32 → List UInt8} {args args' : ℕ → UInt32} {s s' : Scan} {spec : Spec}
  {str t : List UInt8} {fuel : ℕ} {flags : UInt32} {base : ℤ} {stored : List (UInt32 × ℤ)}

/-! ## The output only grows -/

theorem prefix_widthLoop (fuel : ℕ) (fieldWidth : ℤ) (str : List UInt8) :
    str <+: (widthLoop fuel fieldWidth str).1 := by
  induction fuel generalizing fieldWidth str with
  | zero => exact List.prefix_rfl
  | succ fuel ih =>
      rw [widthLoop]
      split
      next => exact (List.prefix_append str _).trans (ih _ _)
      next => exact List.prefix_rfl

theorem prefix_lenLoop (len : ℤ) (fuel : ℕ) (fieldWidth : ℤ) (str : List UInt8) :
    str <+: (lenLoop len fuel fieldWidth str).1 := by
  induction fuel generalizing fieldWidth str with
  | zero => exact List.prefix_rfl
  | succ fuel ih =>
      rw [lenLoop]
      split
      next => exact (List.prefix_append str _).trans (ih _ _)
      next => exact List.prefix_rfl

theorem prefix_convertChar (spec : Spec) (arg : UInt32) (str : List UInt8) :
    str <+: convertChar spec arg str := by
  unfold convertChar
  dsimp only
  refine List.IsPrefix.trans ?_ ((List.prefix_append _ _).trans (prefix_widthLoop ..))
  by_cases hleft : ¬has spec.flags LEFT
  · rw [if_pos hleft]
    exact prefix_widthLoop ..
  · rw [if_neg hleft]

theorem prefix_convertString (spec : Spec) (text str : List UInt8) :
    str <+: convertString spec text str := by
  unfold convertString
  dsimp only
  refine List.IsPrefix.trans ?_ ((List.prefix_append _ _).trans (prefix_lenLoop ..))
  by_cases hleft : ¬has spec.flags LEFT
  · rw [if_pos hleft]
    exact prefix_lenLoop ..
  · rw [if_neg hleft]

theorem prefix_convert (spec : Spec) (str : List UInt8) (stored : List (UInt32 × ℤ)) :
    str <+: (convert strings args spec str stored).str := by
  unfold convert
  cases letterOf (peek spec.fmt) with
  | char => exact prefix_convertChar ..
  | string => exact prefix_convertString ..
  | count => exact List.prefix_rfl
  | other =>
      have hpercent : str <+: if peek spec.fmt ≠ ascii '%' then str ++ [ascii '%'] else str := by
        split
        next => exact List.prefix_append ..
        next => exact List.prefix_rfl
      dsimp only
      split
      next => exact hpercent.trans (List.prefix_append ..)
      next => exact hpercent
  | _ => exact List.prefix_append ..

theorem prefix_turn (s : Scan) : s.str <+: (turn strings args s).str := by
  unfold turn
  split
  next => exact List.prefix_append ..
  next => exact prefix_convert ..

theorem prefix_scanLoop (fuel : ℕ) (s : Scan) : s.str <+: (scanLoop strings args fuel s).str := by
  induction fuel generalizing s with
  | zero => exact List.prefix_rfl
  | succ fuel ih =>
      rw [scanLoop]
      split
      next => exact List.prefix_rfl
      next => exact (prefix_turn s).trans (ih _)

theorem Scans.prefix_scanLoop (h : Scans strings args s s') (hfuel : s.fmt.length ≤ fuel) :
    s'.str <+: (scanLoop strings args fuel s).str := by
  obtain ⟨fuel', -, heq⟩ := scanLoop_of_scans h hfuel
  rw [heq]
  exact MyJavaExample.Kernel.prefix_scanLoop fuel' s'

/-! ## A number does not start with a percent sign -/

theorem digit_ne_percent (small : Bool) {d : ℕ} (h : d < 36) : digit small d ≠ ascii '%' := by
  revert small
  interval_cases d <;> decide

theorem signOf_ne_percent {num : BitVec 32} {sign : UInt8} (h : signOf num flags = some sign) :
    sign ≠ ascii '%' := by
  unfold signOf at h
  split at h
  next =>
    cases h
    decide
  next =>
    split at h
    next =>
      cases h
      decide
    next =>
      split at h
      next =>
        cases h
        decide
      next => cases h

theorem prefixOf_ne_percent {c : UInt8} (h : c ∈ prefixOf base flags) : c ≠ ascii '%' := by
  unfold prefixOf at h
  split at h
  next =>
    split at h
    next =>
      rw [List.mem_singleton.1 h]
      decide
    next =>
      split at h
      next =>
        rcases List.mem_cons.1 h with rfl | h
        · decide
        · rw [List.mem_singleton.1 h]
          exact digit_ne_percent _ (by decide)
      next => cases h
  next => cases h

/-- What `number` writes, for any width. -/
theorem number_ne_percent (num : BitVec 32) {size precision : ℤ} (hb : 2 ≤ base) (hb' : base ≤ 36)
    (hl : -2 ^ 31 ≤ size) (hu : size < 2 ^ 31) :
    ∃ c out, number num base size precision flags = some (c :: out) ∧ c ≠ ascii '%' := by
  have hall : ∃ out, number num base size precision flags = some out ∧ out ≠ [] ∧
      ∀ c ∈ out, c ≠ ascii '%' := by
    refine ⟨_, number_eq hb hb' hl hu, fun hnil => ?_, fun c hc => ?_⟩
    · have hlength := congrArg List.length hnil
      simp only [List.length_append, List.length_reverse, List.length_map, List.length_nil]
        at hlength
      have hpos : 0 < (digitsOf base.toNat (magnitude num flags)).length := length_digitsOf_pos
      omega
    · simp only [List.mem_append, List.mem_reverse, List.mem_map, List.mem_replicate,
        Option.mem_toList] at hc
      rcases hc with (((((⟨-, rfl⟩ | hsign) | hspecial) | ⟨-, rfl⟩) | ⟨-, rfl⟩) | ⟨d, hd, rfl⟩) |
        ⟨-, rfl⟩
      · decide
      · exact signOf_ne_percent hsign
      · exact prefixOf_ne_percent hspecial
      · split <;> decide
      · decide
      · have hlt := digitsOf_lt (show 2 ≤ base.toNat by omega) hd
        exact digit_ne_percent _ (by omega)
      · decide
  obtain ⟨out, hout, hne, hall⟩ := hall
  cases out with
  | nil => exact absurd rfl hne
  | cons c out => exact ⟨c, out, hout, hall c List.mem_cons_self⟩

theorem convertNumber_ne_percent (hb : 2 ≤ base) (hb' : base ≤ 36)
    (hl : -2 ^ 31 ≤ spec.fieldWidth) (hu : spec.fieldWidth < 2 ^ 31) (arg : UInt32) :
    ∃ c out, convertNumber spec arg base flags str = str ++ c :: out ∧ c ≠ ascii '%' := by
  obtain ⟨c, out, hout, hne⟩ := number_ne_percent arg.toBitVec hb hb' hl hu
  refine ⟨c, out, ?_, hne⟩
  unfold convertNumber
  rw [hout]
  rfl

/-! ## Reading a conversion -/

theorem flagOf_char (f : Flag) : ∃ flag, flagOf f.char = some flag := by
  cases f <;> exact ⟨_, rfl⟩

theorem isDigit_digitChar (d : Fin 10) : isDigit (digitChar d) = true := by
  revert d
  decide

theorem flagOf_digitChar (d : Fin 10) : d ≠ 0 → flagOf (digitChar d) = none := by
  revert d
  decide

/-- The flags are read, and the zeros behind them. -/
theorem flagLoop_text (fs : List Flag) (ds : List (Fin 10)) (hstop : flagOf (peek t) = none)
    (flags : UInt32) : ∃ (ds' : List (Fin 10)) (flags' : UInt32), ds' <:+ ds ∧
      flagLoop (fs.map Flag.char ++ (ds.map digitChar ++ t)) flags =
        (ds'.map digitChar ++ t, flags') := by
  induction fs generalizing flags with
  | nil =>
      induction ds generalizing flags with
      | nil => exact ⟨[], flags, List.suffix_rfl, flagLoop_stop hstop⟩
      | cons d ds ih =>
          by_cases hzero : d = 0
          · subst hzero
            obtain ⟨ds', flags', hsuffix, hloop⟩ := ih (flags ||| ZEROPAD)
            exact ⟨ds', flags', hsuffix.trans (List.suffix_cons 0 ds), hloop⟩
          · exact ⟨d :: ds, flags, List.suffix_rfl, flagLoop_stop (flagOf_digitChar d hzero)⟩
  | cons f fs ih =>
      obtain ⟨flag, hflag⟩ := flagOf_char f
      obtain ⟨ds', flags', hsuffix, hloop⟩ := ih (flags ||| flag)
      refine ⟨ds', flags', hsuffix, ?_⟩
      rw [List.map_cons, List.cons_append, flagLoop, hflag]
      exact hloop

theorem skipAtoi_text (ds : List (Fin 10)) (hstop : isDigit (peek t) = false) {i : ℤ}
    (hl : -2 ^ 31 ≤ i) (hu : i < 2 ^ 31) : ∃ j, skipAtoi (ds.map digitChar ++ t) i = (t, j) ∧
      -2 ^ 31 ≤ j ∧ j < 2 ^ 31 := by
  induction ds generalizing i with
  | nil => exact ⟨i, skipAtoi_stop hstop, hl, hu⟩
  | cons d ds ih =>
      obtain ⟨j, hj, hrange⟩ := ih (toInt32_lower (i * 10 + (digitChar d).toNat - 48))
        (toInt32_upper _)
      refine ⟨j, ?_, hrange⟩
      rw [List.map_cons, List.cons_append, skipAtoi, if_pos (isDigit_digitChar d)]
      exact hj

/-- A character that ends the digits and is no `*`. -/
def Ends (c : UInt8) : Prop := isDigit c = false ∧ c ≠ ascii '*'

/-- What is known about a conversion when the pointer is at `t`. -/
structure Reading (spec : Spec) (ap : ℕ) (t : List UInt8) : Prop where
  fmt : spec.fmt = t
  ap : spec.ap = ap
  lower : -2 ^ 31 ≤ spec.fieldWidth
  upper : spec.fieldWidth < 2 ^ 31

variable {ap : ℕ}

theorem readNumber_literal {digits star : ℤ → Spec → Spec} {ds : List (Fin 10)}
    (h : Reading spec ap (ds.map digitChar ++ t)) (ht : Ends (peek t))
    (hdigits : ∀ j spec, -2 ^ 31 ≤ j → j < 2 ^ 31 → Reading spec ap t →
      Reading (digits j spec) ap t) : Reading (readNumber args digits star spec) ap t := by
  unfold readNumber
  cases ds with
  | nil =>
      have hfmt : spec.fmt = t := h.fmt
      rw [hfmt, if_neg (Bool.eq_false_iff.1 ht.1), if_neg ht.2]
      exact ⟨hfmt, h.ap, h.lower, h.upper⟩
  | cons d ds =>
      obtain ⟨j, hj, hl, hu⟩ :=
        skipAtoi_text (d :: ds) ht.1 (by decide : (-2 ^ 31 : ℤ) ≤ 0) (by decide)
      have hdigit : isDigit (peek spec.fmt) = true := by
        rw [h.fmt]
        exact isDigit_digitChar d
      rw [if_pos hdigit, h.fmt, hj]
      exact hdigits j _ hl hu ⟨rfl, h.ap, h.lower, h.upper⟩

theorem readWidth_literal {ds : List (Fin 10)} (h : Reading spec ap (ds.map digitChar ++ t))
    (ht : Ends (peek t)) : Reading (readWidth args spec) ap t :=
  readNumber_literal h ht fun _ _ hl hu h => ⟨h.fmt, h.ap, hl, hu⟩

theorem readDigits_literal {ds : List (Fin 10)} (h : Reading spec ap (ds.map digitChar ++ t))
    (ht : Ends (peek t)) : Reading (readDigits args spec) ap t :=
  readNumber_literal h ht fun _ _ _ _ h => ⟨h.fmt, h.ap, h.lower, h.upper⟩

theorem readPrecision_none (h : Reading spec ap t) (ht : peek t ≠ ascii '.') :
    Reading (readPrecision args spec) ap t := by
  have hread : readPrecision args spec = spec := if_neg (h.fmt.symm ▸ ht)
  exact hread.symm ▸ h

theorem readPrecision_literal {ds : List (Fin 10)}
    (h : Reading spec ap (ascii '.' :: (ds.map digitChar ++ t))) (ht : Ends (peek t)) :
    Reading (readPrecision args spec) ap t := by
  have hpoint : peek spec.fmt = ascii '.' := by
    rw [h.fmt]
    rfl
  have htail : Reading (spec.at spec.fmt.tail) ap (ds.map digitChar ++ t) :=
    ⟨by rw [h.fmt]; rfl, h.ap, h.lower, h.upper⟩
  have hdigits : Reading (readDigits args (spec.at spec.fmt.tail)) ap t :=
    readDigits_literal htail ht
  have hread : readPrecision args spec = _ := if_pos hpoint
  exact hread.symm ▸ ⟨hdigits.fmt, hdigits.ap, hdigits.lower, hdigits.upper⟩

/-- The `*` of a precision is left in the format. -/
theorem readPrecision_star (h : Reading spec ap (ascii '.' :: ascii '*' :: t)) :
    Reading (readPrecision args spec) (ap + 1) (ascii '*' :: t) := by
  have hpoint : peek spec.fmt = ascii '.' := by
    rw [h.fmt]
    rfl
  have hdigits : readDigits args (spec.at spec.fmt.tail) =
      { spec with fmt := ascii '*' :: t, ap := spec.ap + 1, precision := intArg args spec.ap } := by
    unfold readDigits readNumber Spec.at
    rw [h.fmt]
    rfl
  have hread : readPrecision args spec = _ := if_pos hpoint
  have heq := congrArg (fun s : Spec => { s with precision := if s.precision < 0 then 0 else s.precision })
    hdigits
  exact (hread.trans heq).symm ▸ ⟨rfl, congrArg (· + 1) h.ap, h.lower, h.upper⟩

theorem intArg_range (args : ℕ → UInt32) (i : ℕ) :
    -2 ^ 31 ≤ intArg args i ∧ intArg args i < 2 ^ 31 := by
  have hlt := (args i).toBitVec.isLt
  unfold intArg
  rw [BitVec.toInt_eq_toNat_cond]
  split <;> omega

/-- The `*` of a width is left in the format. -/
theorem readWidth_star (h : Reading spec ap (ascii '*' :: t)) :
    Reading (readWidth args spec) (ap + 1) (ascii '*' :: t) := by
  obtain ⟨hl, hu⟩ := intArg_range args spec.ap
  have hdigit : ¬isDigit (peek spec.fmt) = true := by
    rw [h.fmt]
    exact Bool.false_ne_true
  have hstar : peek spec.fmt = ascii '*' := by
    rw [h.fmt]
    rfl
  have hread : readWidth args spec = _ := (if_neg hdigit).trans (if_pos hstar)
  refine hread.symm ▸ ⟨h.fmt, congrArg (· + 1) h.ap, ?_, ?_⟩
  · show -2 ^ 31 ≤ if intArg args spec.ap < 0 then _ else _
    split
    next => exact toInt32_lower _
    next => exact hl
  · show (if intArg args spec.ap < 0 then _ else _) < _
    split
    next => exact toInt32_upper _
    next => exact hu

theorem readQualifier_star (h : Reading spec ap (ascii '*' :: t)) :
    Reading (readQualifier spec) ap (ascii '*' :: t) := by
  have hread : readQualifier spec = spec := by
    unfold readQualifier
    rw [h.fmt, peek_of_cons]
    exact if_neg (by decide)
  exact hread.symm ▸ h

/-! ## One conversion -/

variable {c : IntConv} {post : List UInt8}

/-- The qualifier or the letter ends what is in front of it. -/
theorem peek_lastText (c : IntConv) (post : List UInt8) :
    Ends (peek (c.lastText ++ post)) ∧ flagOf (peek (c.lastText ++ post)) = none ∧
      peek (c.lastText ++ post) ≠ ascii '.' ∧ peek (c.lastText ++ post) ≠ ascii '%' ∧
      peek (c.lastText ++ post) ≠ 0 := by
  have hpeek : peek (c.lastText ++ post) =
      match c.qualifier with
      | none => c.letter.char
      | some q => q.char := by
    unfold IntConv.lastText
    cases c.qualifier <;> rfl
  rw [hpeek]
  cases c.qualifier with
  | none => cases c.letter <;> exact ⟨⟨rfl, by decide⟩, rfl, by decide, by decide, by decide⟩
  | some q =>
      dsimp only
      cases q <;> exact ⟨⟨rfl, by decide⟩, rfl, by decide, by decide, by decide⟩

theorem readQualifier_lastText (c : IntConv) (post : List UInt8)
    (h : Reading spec ap (c.lastText ++ post)) :
    Reading (readQualifier spec) ap (c.letter.char :: post) := by
  unfold readQualifier
  unfold IntConv.lastText at h
  cases hq : c.qualifier with
  | none =>
      rw [hq] at h
      have hfmt : spec.fmt = c.letter.char :: post := h.fmt
      rw [hfmt, peek_of_cons, if_neg (by cases c.letter <;> decide)]
      exact h
  | some q =>
      rw [hq] at h
      have hfmt : spec.fmt = q.char :: (c.letter.char :: post) := h.fmt
      rw [hfmt, peek_of_cons, if_pos (by cases q <;> decide)]
      exact ⟨rfl, h.ap, h.lower, h.upper⟩

/-- The flags of a conversion are behind. -/
theorem reading_flags (fs : List Flag) (ds : List (Fin 10)) (hstop : flagOf (peek t) = none)
    (ap : ℕ) : ∃ ds' : List (Fin 10), ds' <:+ ds ∧
      Reading ⟨(flagLoop (fs.map Flag.char ++ (ds.map digitChar ++ t)) 0).1, ap,
        (flagLoop (fs.map Flag.char ++ (ds.map digitChar ++ t)) 0).2, -1, -1⟩ ap
        (ds'.map digitChar ++ t) := by
  obtain ⟨ds', flags', hsuffix, hloop⟩ := flagLoop_text fs ds hstop 0
  refine ⟨ds', hsuffix, ?_⟩
  rw [hloop]
  exact ⟨rfl, rfl, (by decide : (-2 ^ 31 : ℤ) ≤ -1), (by decide : (-1 : ℤ) < 2 ^ 31)⟩

/-- What is behind the width of a conversion. -/
theorem peek_precisionText (c : IntConv) (post : List UInt8) :
    Ends (peek (c.precisionText ++ (c.lastText ++ post))) ∧
      flagOf (peek (c.precisionText ++ (c.lastText ++ post))) = none := by
  unfold IntConv.precisionText
  cases c.precision with
  | none => exact ⟨(peek_lastText c post).1, (peek_lastText c post).2.1⟩
  | some p => exact ⟨⟨rfl, show ascii '.' ≠ ascii '*' by decide⟩, rfl⟩

/-- A width in digits is behind, whatever the precision. -/
theorem reading_width (args : ℕ → UInt32) (c : IntConv) (ds : List (Fin 10)) (post : List UInt8)
    (ap : ℕ) :
    Reading (readWidth args
      ⟨(flagLoop (c.flags.map Flag.char ++
          (ds.map digitChar ++ (c.precisionText ++ (c.lastText ++ post)))) 0).1, ap,
        (flagLoop (c.flags.map Flag.char ++
          (ds.map digitChar ++ (c.precisionText ++ (c.lastText ++ post)))) 0).2, -1, -1⟩) ap
      (c.precisionText ++ (c.lastText ++ post)) := by
  obtain ⟨ds', -, hreading⟩ := reading_flags c.flags ds (peek_precisionText c post).2 ap
  exact readWidth_literal hreading (peek_precisionText c post).1

/-- The `*` is written behind a percent sign. -/
theorem convert_star (h : Reading spec ap (ascii '*' :: t)) (str : List UInt8)
    (stored : List (UInt32 × ℤ)) : convert strings args spec str stored =
      { fmt := t, ap := ap, str := str ++ [ascii '%', ascii '*'], stored := stored } := by
  have hletter : letterOf (peek spec.fmt) = .other := by
    rw [h.fmt]
    rfl
  unfold convert
  rw [hletter]
  dsimp only
  rw [h.fmt, h.ap, peek_of_cons, if_pos (by decide), if_pos (by decide), List.append_assoc]
  rfl

/-- A number is written. -/
theorem convert_letter (c : IntConv) (post : List UInt8) (ap : ℕ)
    (h : Reading spec ap (c.letter.char :: post)) (str : List UInt8)
    (stored : List (UInt32 × ℤ)) :
    ∃ x out, (convert strings args spec str stored).str = str ++ x :: out ∧ x ≠ ascii '%' := by
  unfold convert
  rw [h.fmt, peek_of_cons]
  cases c.letter with
  | d => exact convertNumber_ne_percent (by decide) (by decide) h.lower h.upper _
  | i => exact convertNumber_ne_percent (by decide) (by decide) h.lower h.upper _
  | u => exact convertNumber_ne_percent (by decide) (by decide) h.lower h.upper _
  | o => exact convertNumber_ne_percent (by decide) (by decide) h.lower h.upper _
  | x => exact convertNumber_ne_percent (by decide) (by decide) h.lower h.upper _
  | X => exact convertNumber_ne_percent (by decide) (by decide) h.lower h.upper _

theorem text_append (c : IntConv) (post : List UInt8) : c.text ++ post = ascii '%' ::
    (c.flags.map Flag.char ++
      (c.width.text ++ (c.precisionText ++ (c.lastText ++ post)))) := by
  unfold IntConv.text
  simp only [List.cons_append, List.append_assoc]

/-- A turn at a conversion. -/
theorem turn_text (c : IntConv) (post : List UInt8) (ap : ℕ) (str : List UInt8)
    (stored : List (UInt32 × ℤ)) : turn strings args ⟨c.text ++ post, ap, str, stored⟩ =
      convert strings args (readSpec args (c.flags.map Flag.char ++
        (c.width.text ++ (c.precisionText ++ (c.lastText ++ post)))) ap) str stored :=
  turn_percent (text_append c post)

theorem turn_number {ds : List (Fin 10)} (hwidth : c.width = .literal ds)
    (hprecision : c.precision ≠ some .star) (ap : ℕ) (str : List UInt8)
    (stored : List (UInt32 × ℤ)) :
    ∃ x out, (turn strings args ⟨c.text ++ post, ap, str, stored⟩).str = str ++ x :: out ∧
      x ≠ ascii '%' := by
  have hw := reading_width args c ds post ap
  rw [turn_text, hwidth]
  refine convert_letter c post ap (readQualifier_lastText c post ?_) str stored
  cases hp : c.precision with
  | none =>
      unfold IntConv.precisionText at hw ⊢
      rw [hp] at hw ⊢
      exact readPrecision_none hw (peek_lastText c post).2.2.1
  | some p =>
      cases p with
      | star => exact absurd hp hprecision
      | literal ps =>
          unfold IntConv.precisionText at hw ⊢
          rw [hp] at hw ⊢
          exact readPrecision_literal hw (peek_lastText c post).1

theorem turn_precisionStar {ds : List (Fin 10)} (hwidth : c.width = .literal ds)
    (hprecision : c.precision = some .star) (ap : ℕ) (str : List UInt8)
    (stored : List (UInt32 × ℤ)) : turn strings args ⟨c.text ++ post, ap, str, stored⟩ =
      ⟨c.lastText ++ post, ap + 1, str ++ [ascii '%', ascii '*'], stored⟩ := by
  have hw := reading_width args c ds post ap
  rw [turn_text, hwidth]
  refine convert_star (readQualifier_star ?_) str stored
  unfold IntConv.precisionText at hw ⊢
  rw [hprecision] at hw ⊢
  exact readPrecision_star hw

theorem turn_widthStar (hwidth : c.width = .star) (ap : ℕ) (str : List UInt8)
    (stored : List (UInt32 × ℤ)) : turn strings args ⟨c.text ++ post, ap, str, stored⟩ =
      ⟨c.precisionText ++ (c.lastText ++ post), ap + 1, str ++ [ascii '%', ascii '*'], stored⟩ := by
  obtain ⟨ds', hsuffix, hflags⟩ := reading_flags c.flags []
    (show flagOf (peek (ascii '*' :: (c.precisionText ++ (c.lastText ++ post)))) = none from rfl) ap
  rw [List.suffix_nil.1 hsuffix] at hflags
  rw [turn_text, hwidth]
  exact convert_star (readQualifier_star (readPrecision_none (readWidth_star hflags)
    (show ascii '*' ≠ ascii '.' by decide))) str stored

/-! ## The two formats -/

/-- Two runs with the same output wrote, at any time, one a part of the
other. -/
theorem prefix_of_same {r r' : Scan} {fuel' : ℕ} (h : Scans strings args s s')
    (h' : Scans strings args' r r') (hfuel : s.fmt.length ≤ fuel) (hfuel' : r.fmt.length ≤ fuel')
    (hsame : (scanLoop strings args fuel s).str = (scanLoop strings args' fuel' r).str) :
    s'.str <+: r'.str ∨ r'.str <+: s'.str :=
  List.prefix_or_prefix_of_prefix (h.prefix_scanLoop hfuel)
    (hsame ▸ h'.prefix_scanLoop hfuel')

theorem Scans.trans {s'' : Scan} (h : Scans strings args s s') (h' : Scans strings args s' s'') :
    Scans strings args s s'' := by
  induction h with
  | refl s => exact h'
  | step hne _ ih => exact .step hne (ih h')

theorem Scans.one (hne : peek s.fmt ≠ 0) : Scans strings args s (turn strings args s) :=
  .step hne (.refl _)

theorem peek_text_ne (c : IntConv) (post : List UInt8) : peek (c.text ++ post) ≠ 0 := by
  rw [text_append, peek_of_cons]
  decide

/-- Plain text is copied. -/
theorem scans_plain (out : List UInt8) (hplain : ∀ x ∈ out, x ≠ 0 ∧ x ≠ ascii '%') (ap : ℕ)
    (str : List UInt8) (stored : List (UInt32 × ℤ)) :
    Scans strings args ⟨out ++ t, ap, str, stored⟩ ⟨t, ap, str ++ out, stored⟩ := by
  induction out generalizing str with
  | nil =>
      rw [List.append_nil]
      exact .refl _
  | cons x out ih =>
      obtain ⟨hzero, hpercent⟩ := hplain x List.mem_cons_self
      have hturn : turn strings args ⟨x :: out ++ t, ap, str, stored⟩ =
          ⟨out ++ t, ap, str ++ [x], stored⟩ := turn_plain hpercent
      have hrest := ih (fun y hy => hplain y (List.mem_cons_of_mem x hy)) (str ++ [x])
      rw [List.append_assoc, List.singleton_append] at hrest
      refine .step hzero ?_
      rw [hturn]
      exact hrest

/-- The run writes `out` behind what is written. -/
def Writes (strings : UInt32 → List UInt8) (args : ℕ → UInt32) (s : Scan) (out : List UInt8) :
    Prop :=
  ∃ s', Scans strings args s s' ∧ s'.str = s.str ++ out

variable {stored : List (UInt32 × ℤ)}

/-- A conversion without a `*` writes a number. -/
theorem writes_number {ds : List (Fin 10)} (hwidth : c.width = .literal ds)
    (hprecision : c.precision ≠ some .star) :
    ∃ x out, Writes strings args ⟨c.text ++ post, ap, str, stored⟩ (x :: out) ∧
      x ≠ ascii '%' := by
  obtain ⟨x, out, hstr, hne⟩ := turn_number hwidth hprecision ap str stored
  exact ⟨x, out, ⟨_, .one (peek_text_ne c post), hstr⟩, hne⟩

/-- After the `*` of a precision the qualifier or the letter is plain text. -/
theorem writes_precisionStar {ds : List (Fin 10)} (hwidth : c.width = .literal ds)
    (hprecision : c.precision = some .star) :
    Writes strings args ⟨c.text ++ post, ap, str, stored⟩
      [ascii '%', ascii '*', peek (c.lastText ++ post)] := by
  obtain ⟨-, -, -, hpercent, hzero⟩ := peek_lastText c post
  have hscans : Scans strings args ⟨c.text ++ post, ap, str, stored⟩
      (turn strings args ⟨c.lastText ++ post, ap + 1, str ++ [ascii '%', ascii '*'], stored⟩) := by
    refine .step (peek_text_ne c post) ?_
    rw [turn_precisionStar hwidth hprecision]
    exact .one hzero
  refine ⟨_, hscans, ?_⟩
  rw [turn_plain hpercent]
  exact List.append_assoc ..

theorem plain_text (f : Field) : ∀ x ∈ f.text, x ≠ 0 ∧ x ≠ ascii '%' := by
  intro x hx
  cases f with
  | star =>
      rw [List.mem_singleton.1 hx]
      decide
  | literal ds =>
      obtain ⟨d, -, rfl⟩ := List.mem_map.1 hx
      clear hx
      revert d
      decide

/-- A conversion with a `*` writes it behind a percent sign. -/
theorem writes_star (hstar : c.width = .star ∨ c.precision = some .star) :
    Writes strings args ⟨c.text ++ post, ap, str, stored⟩ [ascii '%', ascii '*'] := by
  refine ⟨_, .one (peek_text_ne c post), ?_⟩
  cases hwidth : c.width with
  | star => rw [turn_widthStar hwidth]
  | literal ds =>
      rw [hwidth] at hstar
      rw [turn_precisionStar hwidth (hstar.resolve_left fun heq => Field.noConfusion heq)]

/-- After the `*` of a width the precision is plain text. -/
theorem writes_widthStar (hwidth : c.width = .star) {p : Field} (hprecision : c.precision = some p) :
    Writes strings args ⟨c.text ++ post, ap, str, stored⟩
      (ascii '%' :: ascii '*' :: ascii '.' :: p.text) := by
  have hplain : ∀ x ∈ ascii '.' :: p.text, x ≠ 0 ∧ x ≠ ascii '%' := by
    intro x hx
    rcases List.mem_cons.1 hx with rfl | hx
    · decide
    · exact plain_text p x hx
  have hscans : Scans strings args ⟨c.text ++ post, ap, str, stored⟩
      ⟨c.lastText ++ post, ap + 1, str ++ [ascii '%', ascii '*'] ++ (ascii '.' :: p.text), stored⟩ := by
    refine .step (peek_text_ne c post) ?_
    rw [turn_widthStar hwidth, IntConv.precisionText, hprecision]
    exact scans_plain (ascii '.' :: p.text) hplain (ap + 1) (str ++ [ascii '%', ascii '*']) stored
  exact ⟨_, hscans, List.append_assoc ..⟩

theorem Field.decimal_text (n : ℕ) : ∃ d ds, (Field.decimal n).text = digitChar d :: ds := by
  have hpos : 0 < (digitsOf 10 n).length := length_digitsOf_pos
  have hlength : 0 < ((digitsOf 10 n).reverse.map (Fin.ofNat 10)).length := by
    rwa [List.length_map, List.length_reverse]
  unfold Field.decimal
  cases hds : (digitsOf 10 n).reverse.map (Fin.ofNat 10) with
  | nil =>
      rw [hds] at hlength
      exact absurd hlength (Nat.lt_irrefl 0)
  | cons d ds => exact ⟨d, ds.map digitChar, rfl⟩

theorem digitChar_ne_star (d : Fin 10) : digitChar d ≠ ascii '*' := by
  revert d
  decide

/-- Neither of two texts begins with the other. -/
def Apart (a b : List UInt8) : Prop := ¬a <+: b ∧ ¬b <+: a

theorem apart_of_head {x y : UInt8} (h : x ≠ y) (a b : List UInt8) : Apart (x :: a) (y :: b) :=
  ⟨fun hab => h (List.cons_prefix_cons.1 hab).1, fun hba => h (List.cons_prefix_cons.1 hba).1.symm⟩

theorem Apart.cons {a b : List UInt8} (h : Apart a b) (x : UInt8) : Apart (x :: a) (x :: b) :=
  ⟨fun hab => h.1 (List.cons_prefix_cons.1 hab).2, fun hba => h.2 (List.cons_prefix_cons.1 hba).2⟩

/-- The conversion with the `*` and the one with the numeral write different
texts. -/
theorem writes_apart (place : IntConv.Place) (hget : c.get place = some .star) (n : ℕ) :
    ∃ a b, Writes strings args ⟨c.text ++ post, ap, str, stored⟩ a ∧
      Writes strings args' ⟨(c.set (.decimal n) place).text ++ post, ap, str, stored⟩ b ∧
      Apart a b := by
  obtain ⟨d, ds, hdecimal⟩ := Field.decimal_text n
  -- a number stands there only when no other field is a `*`
  have hnumber (ds : List (Fin 10)) (hwidth : (c.set (.decimal n) place).width = .literal ds)
      (hprecision : (c.set (.decimal n) place).precision ≠ some .star)
      (hstar : c.width = .star ∨ c.precision = some .star) :
      ∃ a b, Writes strings args ⟨c.text ++ post, ap, str, stored⟩ a ∧
        Writes strings args' ⟨(c.set (.decimal n) place).text ++ post, ap, str, stored⟩ b ∧
        Apart a b := by
    obtain ⟨x, out, hwrites, hne⟩ : ∃ x out, Writes strings args'
        ⟨(c.set (.decimal n) place).text ++ post, ap, str, stored⟩ (x :: out) ∧ x ≠ ascii '%' :=
      writes_number hwidth hprecision
    exact ⟨_, _, writes_star hstar, hwrites, apart_of_head hne.symm _ _⟩
  cases place with
  | width =>
      have hwidth : c.width = .star := Option.some_inj.1 hget
      by_cases hprecision : c.precision = some .star
      · refine ⟨_, _, writes_widthStar hwidth hprecision, writes_precisionStar rfl hprecision,
          ((apart_of_head ?_ _ _).cons _).cons _⟩
        exact (peek_lastText (c.set (.decimal n) .width) post).2.2.1.symm
      · exact hnumber _ rfl hprecision (.inl hwidth)
  | precision =>
      have hprecision : c.precision = some .star := hget
      cases hwidth : c.width with
      | star =>
          have hwrites : Writes strings args'
              ⟨(c.set (.decimal n) .precision).text ++ post, ap, str, stored⟩
              (ascii '%' :: ascii '*' :: ascii '.' :: (Field.decimal n).text) :=
            writes_widthStar (c := c.set (.decimal n) .precision) hwidth rfl
          refine ⟨_, _, writes_widthStar hwidth hprecision, hwrites,
            ((Apart.cons ?_ _).cons _).cons _⟩
          rw [hdecimal]
          exact apart_of_head (digitChar_ne_star d).symm _ _
      | literal ws =>
          refine hnumber ws hwidth ?_ (.inr hprecision)
          exact fun heq => Field.noConfusion (Option.some_inj.1 heq)

variable {pre : List UInt8}

/-- Wherever a conversion stands in a format, a `*` in it never gives what a
numeral in its place gives, also not the one of its argument. -/
theorem star_ne_decimal (place : IntConv.Place) (hget : c.get place = some .star)
    (hscans : Scans strings args (.start (pre ++ (c.text ++ post)))
      ⟨c.text ++ post, ap, str, stored⟩) (n : ℕ) :
    ¬Same (vsprintf strings args (pre ++ (c.text ++ post)))
      (vsprintf strings (dropArg (ap + c.before place) args)
        (pre ++ ((c.set (.decimal n) place).text ++ post))) := by
  rintro ⟨hsame, -, -⟩
  have hne (c : IntConv) : c.text ++ post ≠ [] := fun hnil => peek_text_ne c post (hnil ▸ rfl)
  obtain ⟨-, p, hp, hreplace⟩ := hscans.replace (hne c)
  have hpre : pre = p := List.append_cancel_right hp
  subst hpre
  have hscans' := hreplace (dropArg (ap + c.before place) args)
    ((c.set (.decimal n) place).text ++ post) (hne _)
    fun i hi => if_pos (hi.trans_le (Nat.le_add_right ap _))
  obtain ⟨a, b, ⟨s, hs, ha⟩, ⟨s', hs', hb⟩, hab, hba⟩ :
      ∃ a b, Writes strings args ⟨c.text ++ post, ap, str, stored⟩ a ∧
        Writes strings (dropArg (ap + c.before place) args)
          ⟨(c.set (.decimal n) place).text ++ post, ap, str, stored⟩ b ∧ Apart a b :=
    writes_apart place hget n
  rcases prefix_of_same (hscans.trans hs) (hscans'.trans hs') le_rfl le_rfl hsame with h | h
  · rw [ha, hb] at h
    exact hab ((List.prefix_append_right_inj str).1 h)
  · rw [ha, hb] at h
    exact hba ((List.prefix_append_right_inj str).1 h)

end

/-- The conversion `%*d`. -/
def starConv : IntConv where
  flags := []
  width := .star
  precision := none
  qualifier := none
  letter := .d

/-- The arguments 5, the width, and 42. -/
def starArgs (i : ℕ) : UInt32 := if i = 0 then 5 else 42

theorem star_ne_decimal_five : ¬Same
    (vsprintf (fun _ => []) starArgs ([] ++ (starConv.text ++ [])))
    (vsprintf (fun _ => []) (dropArg (0 + starConv.before .width) starArgs)
      ([] ++ ((starConv.set (.decimal 5) .width).text ++ []))) :=
  star_ne_decimal .width rfl (.refl _) 5

/-- `%*d` is copied, where `%5d` gives the number in a field of five. -/
theorem star_not_same : ¬Same
    (vsprintf (fun _ => []) starArgs ("%*d".toList.map ascii))
    (vsprintf (fun _ => []) (dropArg 0 starArgs) ("%5d".toList.map ascii)) := by
  have hstar : (vsprintf (fun _ => []) starArgs ("%*d".toList.map ascii)).str =
      "%*d".toList.map ascii := rfl
  have hfive : (vsprintf (fun _ => []) (dropArg 0 starArgs) ("%5d".toList.map ascii)).str =
      "   42".toList.map ascii := rfl
  rintro ⟨hsame, -, -⟩
  rw [hstar, hfive] at hsame
  exact absurd hsame (by decide)

end MyJavaExample.Kernel
