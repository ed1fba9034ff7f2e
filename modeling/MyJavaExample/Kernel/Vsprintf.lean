import Mathlib.Data.List.Basic
import MyJavaExample.Kernel.Number

/-!
# Formatted output: `vsprintf` of `kernel/vsprintf.c`

One pointer moves through the format.  A conversion is read in parts: flags,
width, precision, qualifier, letter.  A width or a precision written in digits
moves the pointer behind them; for a `*` the argument is taken and the pointer
stays, so the `*` is then read as the letter of the conversion.

What a turn of the loop does depends on the format only up to where the pointer
stands afterwards, and on the arguments only as far as they are taken.  This
gives the comparison of two formats that differ in one conversion.
-/

namespace MyJavaExample.Kernel

open Lib

/-- `*fmt`; a format ends with a zero. -/
def peek (fmt : List UInt8) : UInt8 := fmt.headD 0

def isDigit (c : UInt8) : Bool := ascii '0' ≤ c && c ≤ ascii '9'

/-- `skip_atoi` -/
def skipAtoi : List UInt8 → ℤ → List UInt8 × ℤ
  | [], i => ([], i)
  | c :: s, i => if isDigit c then skipAtoi s (toInt32 (i * 10 + c.toNat - 48)) else (c :: s, i)

/-! ## The parts of a conversion -/

def flagOf (c : UInt8) : Option UInt32 :=
  if c = ascii '-' then some LEFT
  else if c = ascii '+' then some PLUS
  else if c = ascii ' ' then some SPACE
  else if c = ascii '#' then some SPECIAL
  else if c = ascii '0' then some ZEROPAD
  else none

/-- The loop at `repeat`. -/
def flagLoop : List UInt8 → UInt32 → List UInt8 × UInt32
  | [], flags => ([], flags)
  | c :: fmt, flags =>
      match flagOf c with
      | some flag => flagLoop fmt (flags ||| flag)
      | none => (c :: fmt, flags)

/-- A conversion while it is read: the rest of the format, the number of
arguments taken, and the variables. -/
structure Spec where
  fmt : List UInt8
  ap : ℕ
  flags : UInt32
  fieldWidth : ℤ
  precision : ℤ

/-- `va_arg(args, int)` -/
def intArg (args : ℕ → UInt32) (i : ℕ) : ℤ := (args i).toBitVec.toInt

/-- A number of the format: its digits, or a `*` for the next argument.  At a
`*` the pointer is not moved. -/
def readNumber (args : ℕ → UInt32) (digits star : ℤ → Spec → Spec) (s : Spec) : Spec :=
  if isDigit (peek s.fmt) then digits (skipAtoi s.fmt 0).2 { s with fmt := (skipAtoi s.fmt 0).1 }
  else if peek s.fmt = ascii '*' then star (intArg args s.ap) { s with ap := s.ap + 1 }
  else s

/-- `/* get field width */` -/
def readWidth (args : ℕ → UInt32) : Spec → Spec :=
  readNumber args (fun i s => { s with fieldWidth := i }) fun arg s =>
    { s with
      fieldWidth := if arg < 0 then toInt32 (-arg) else arg
      flags := if arg < 0 then s.flags ||| LEFT else s.flags }

/-- The precision behind the point. -/
def readDigits (args : ℕ → UInt32) : Spec → Spec :=
  readNumber args (fun i s => { s with precision := i }) fun arg s => { s with precision := arg }

/-- `/* get the precision */` -/
def readPrecision (args : ℕ → UInt32) (s : Spec) : Spec :=
  if peek s.fmt = ascii '.' then
    let s := readDigits args { s with fmt := s.fmt.tail }
    { s with precision := if s.precision < 0 then 0 else s.precision }
  else s

/-- `/* get the conversion qualifier */`; nothing looks at it. -/
def readQualifier (s : Spec) : Spec :=
  let c := peek s.fmt
  if c = ascii 'h' ∨ c = ascii 'l' ∨ c = ascii 'L' then { s with fmt := s.fmt.tail } else s

/-- The conversion up to its letter. -/
def readSpec (args : ℕ → UInt32) (fmt : List UInt8) (ap : ℕ) : Spec :=
  let start : Spec :=
    { fmt := (flagLoop fmt 0).1, ap, flags := (flagLoop fmt 0).2, fieldWidth := -1, precision := -1 }
  readQualifier (readPrecision args (readWidth args start))

/-! ## The conversions -/

/-- `while (--field_width > 0) *str++ = ' '` -/
def widthLoop : ℕ → ℤ → List UInt8 → List UInt8 × ℤ
  | 0, fieldWidth, str => (str, toInt32 (fieldWidth - 1))
  | fuel + 1, fieldWidth, str =>
      if 0 < toInt32 (fieldWidth - 1) then
        widthLoop fuel (toInt32 (fieldWidth - 1)) (str ++ [ascii ' '])
      else (str, toInt32 (fieldWidth - 1))

/-- `while (len < field_width--) *str++ = ' '` -/
def lenLoop (len : ℤ) : ℕ → ℤ → List UInt8 → List UInt8 × ℤ
  | 0, fieldWidth, str => (str, toInt32 (fieldWidth - 1))
  | fuel + 1, fieldWidth, str =>
      if len < fieldWidth then
        lenLoop len fuel (toInt32 (fieldWidth - 1)) (str ++ [ascii ' '])
      else (str, toInt32 (fieldWidth - 1))

/-- `case 'c'` -/
def convertChar (s : Spec) (arg : UInt32) (str : List UInt8) : List UInt8 :=
  let fuel := fun fieldWidth : ℤ => (toInt32 (fieldWidth - 1)).toNat
  let (str, fieldWidth) :=
    if ¬has s.flags LEFT then widthLoop (fuel s.fieldWidth) s.fieldWidth str
    else (str, s.fieldWidth)
  let str := str ++ [arg.toUInt8]
  (widthLoop (fuel fieldWidth) fieldWidth str).1

/-- `case 's'`, for the characters of a string. -/
def convertString (s : Spec) (text : List UInt8) (str : List UInt8) : List UInt8 :=
  let len : ℤ := if 0 ≤ s.precision ∧ s.precision < text.length then s.precision else text.length
  let fuel := fun fieldWidth : ℤ => (fieldWidth - len).toNat
  let (str, fieldWidth) :=
    if ¬has s.flags LEFT then lenLoop len (fuel s.fieldWidth) s.fieldWidth str
    else (str, s.fieldWidth)
  let str := str ++ text.take len.toNat
  (lenLoop len (fuel fieldWidth) fieldWidth str).1

/-- A call of `number`. -/
def convertNumber (s : Spec) (arg : UInt32) (base : ℤ) (flags : UInt32) (str : List UInt8) :
    List UInt8 :=
  str ++ (number arg.toBitVec base s.fieldWidth s.precision flags).getD []

/-- The cases of the `switch`. -/
inductive Letter where
  | char
  | string
  | octal
  | pointer
  | hex (small : Bool)
  | decimal (signed : Bool)
  | count
  | other

def letterOf (c : UInt8) : Letter :=
  if c = ascii 'c' then .char
  else if c = ascii 's' then .string
  else if c = ascii 'o' then .octal
  else if c = ascii 'p' then .pointer
  else if c = ascii 'x' then .hex true
  else if c = ascii 'X' then .hex false
  else if c = ascii 'd' ∨ c = ascii 'i' then .decimal true
  else if c = ascii 'u' then .decimal false
  else if c = ascii 'n' then .count
  else .other

/-- A turn of the loop: the rest of the format, the number of arguments taken,
the characters written, and what `%n` stored, by its address. -/
structure Scan where
  fmt : List UInt8
  ap : ℕ
  str : List UInt8
  stored : List (UInt32 × ℤ)

/-- The `switch` and the `++fmt` of the loop.  `strings` gives the characters of
the string at an address. -/
def convert (strings : UInt32 → List UInt8) (args : ℕ → UInt32) (s : Spec) (str : List UInt8)
    (stored : List (UInt32 × ℤ)) : Scan :=
  let arg := args s.ap
  let next := s.fmt.tail
  match letterOf (peek s.fmt) with
  | .char => { fmt := next, ap := s.ap + 1, str := convertChar s arg str, stored }
  | .string => { fmt := next, ap := s.ap + 1, str := convertString s (strings arg) str, stored }
  | .octal => { fmt := next, ap := s.ap + 1, str := convertNumber s arg 8 s.flags str, stored }
  | .pointer =>
      let p :=
        if s.fieldWidth = -1 then { s with fieldWidth := 8, flags := s.flags ||| ZEROPAD } else s
      { fmt := next, ap := s.ap + 1, str := convertNumber p arg 16 p.flags str, stored }
  | .hex small =>
      let flags := if small then s.flags ||| SMALL else s.flags
      { fmt := next, ap := s.ap + 1, str := convertNumber s arg 16 flags str, stored }
  | .decimal signed =>
      let flags := if signed then s.flags ||| SIGN else s.flags
      { fmt := next, ap := s.ap + 1, str := convertNumber s arg 10 flags str, stored }
  | .count => { fmt := next, ap := s.ap + 1, str, stored := stored ++ [(arg, (str.length : ℤ))] }
  | .other =>
      let c := peek s.fmt
      let str := if c ≠ ascii '%' then str ++ [ascii '%'] else str
      -- at the end of the format the pointer goes back and forth
      { fmt := next, ap := s.ap, str := if c ≠ 0 then str ++ [c] else str, stored }

section

variable (strings : UInt32 → List UInt8) (args : ℕ → UInt32)

/-- One turn of the loop. -/
def turn (s : Scan) : Scan :=
  if peek s.fmt ≠ ascii '%' then { s with fmt := s.fmt.tail, str := s.str ++ [peek s.fmt] }
  else convert strings args (readSpec args s.fmt.tail s.ap) s.str s.stored

/-- The loop `for (str=buf ; *fmt ; ++fmt)`. -/
def scanLoop : ℕ → Scan → Scan
  | 0, s => s
  | fuel + 1, s => if peek s.fmt = 0 then s else scanLoop fuel (turn strings args s)

def Scan.start (fmt : List UInt8) : Scan where
  fmt := fmt
  ap := 0
  str := []
  stored := []

/-- `vsprintf`.  Every turn takes at least one character of the format.  The
value returned is the length of `str`. -/
def vsprintf (fmt : List UInt8) : Scan := scanLoop strings args fmt.length (.start fmt)

end

/-! ## A turn looks no further than it goes -/

section

variable {fmt l t t' : List UInt8} {i : ℤ} {flags : UInt32} {c : UInt8} {ap n : ℕ}
  {args args' : ℕ → UInt32} {s s' : Spec}

@[simp] theorem peek_of_cons (c : UInt8) (t : List UInt8) : peek (c :: t) = c := rfl

theorem peek_append (p : List UInt8) (h : peek t = peek t') : peek (p ++ t) = peek (p ++ t') := by
  cases p with
  | nil => exact h
  | cons c p => rfl

theorem skipAtoi_stop (h : isDigit (peek t) = false) : skipAtoi t i = (t, i) := by
  cases t with
  | nil => rfl
  | cons c t => exact if_neg (Bool.eq_false_iff.1 h)

theorem skipAtoi_local (l : List UInt8) (i : ℤ) :
    ∃ p, l = p ++ (skipAtoi l i).1 ∧
      ∀ t, peek t = peek (skipAtoi l i).1 → skipAtoi (p ++ t) i = (t, (skipAtoi l i).2) := by
  induction l generalizing i with
  | nil =>
      refine ⟨[], rfl, fun t ht => ?_⟩
      have hzero : peek t = 0 := ht
      exact skipAtoi_stop (hzero ▸ rfl)
  | cons c l ih =>
      cases hdigit : isDigit c with
      | true =>
          obtain ⟨p, hp, hlocal⟩ := ih (toInt32 (i * 10 + c.toNat - 48))
          have hstep : skipAtoi (c :: l) i = skipAtoi l (toInt32 (i * 10 + c.toNat - 48)) :=
            if_pos hdigit
          rw [hstep]
          refine ⟨c :: p, congrArg (c :: ·) hp, fun t ht => ?_⟩
          exact (if_pos hdigit).trans (hlocal t ht)
      | false =>
          have hstop : skipAtoi (c :: l) i = (c :: l, i) := skipAtoi_stop hdigit
          rw [hstop]
          refine ⟨[], rfl, fun t ht => ?_⟩
          have hc : peek t = c := ht
          exact skipAtoi_stop (hc ▸ hdigit)

theorem flagLoop_stop (h : flagOf (peek t) = none) : flagLoop t flags = (t, flags) := by
  cases t with
  | nil => rfl
  | cons c t =>
      have hc : flagOf c = none := h
      rw [flagLoop, hc]

theorem flagLoop_local (l : List UInt8) (flags : UInt32) :
    ∃ p, l = p ++ (flagLoop l flags).1 ∧
      ∀ t, peek t = peek (flagLoop l flags).1 →
        flagLoop (p ++ t) flags = (t, (flagLoop l flags).2) := by
  induction l generalizing flags with
  | nil =>
      refine ⟨[], rfl, fun t ht => ?_⟩
      have hzero : peek t = 0 := ht
      exact flagLoop_stop (hzero ▸ rfl)
  | cons c l ih =>
      cases hflag : flagOf c with
      | some flag =>
          obtain ⟨p, hp, hlocal⟩ := ih (flags ||| flag)
          have hstep (l : List UInt8) : flagLoop (c :: l) flags = flagLoop l (flags ||| flag) := by
            rw [flagLoop, hflag]
          rw [hstep]
          exact ⟨c :: p, congrArg (c :: ·) hp, fun t ht => (hstep _).trans (hlocal t ht)⟩
      | none =>
          have hstop : flagLoop (c :: l) flags = (c :: l, flags) := flagLoop_stop hflag
          rw [hstop]
          refine ⟨[], rfl, fun t ht => ?_⟩
          have hc : peek t = c := ht
          exact flagLoop_stop (hc ▸ hflag)

/-- The same variables with the pointer elsewhere. -/
def Spec.at (s : Spec) (t : List UInt8) : Spec := { s with fmt := t }

/-- A part of a conversion is read up to where the pointer stands afterwards,
and the character there decides that it ends.  Only the arguments that are taken
matter. -/
def Local (read : (ℕ → UInt32) → Spec → Spec) : Prop :=
  ∀ args s, s.ap ≤ (read args s).ap ∧ ∃ p, s.fmt = p ++ (read args s).fmt ∧
    ∀ args' t, (∀ i < (read args s).ap, args' i = args i) → peek t = peek (read args s).fmt →
      read args' (s.at (p ++ t)) = (read args s).at t

theorem Local.comp {read read' : (ℕ → UInt32) → Spec → Spec} (h : Local read)
    (h' : Local read') : Local fun args s => read' args (read args s) := by
  intro args s
  obtain ⟨hle, p, hp, hread⟩ := h args s
  obtain ⟨hle', p', hp', hread'⟩ := h' args (read args s)
  refine ⟨hle.trans hle', p ++ p', ?_, fun args' t hargs ht => ?_⟩
  · rw [List.append_assoc, ← hp', ← hp]
  · have hpeek : peek (p' ++ t) = peek (read args s).fmt := by
      rw [hp']
      exact peek_append p' ht
    dsimp only
    rw [List.append_assoc, hread args' (p' ++ t) (fun i hi => hargs i (hi.trans_le hle')) hpeek,
      hread' args' t hargs ht]

/-- Variables are set, the pointer and the arguments stay. -/
structure Sets (set : Spec → Spec) : Prop where
  fmt : ∀ s, (set s).fmt = s.fmt
  ap : ∀ s, (set s).ap = s.ap
  at_eq : ∀ s t, set (s.at t) = (set s).at t

theorem Local.of_sets {set : Spec → Spec} (h : Sets set) : Local fun _ => set := by
  intro args s
  refine ⟨(h.ap s).symm.le, [], (h.fmt s).symm, fun args' t _ _ => h.at_eq s t⟩

theorem local_readNumber {digits star : ℤ → Spec → Spec} (hdigits : ∀ i, Sets (digits i))
    (hstar : ∀ i, Sets (star i)) : Local fun args => readNumber args digits star := by
  intro args s
  by_cases hdigit : isDigit (peek s.fmt)
  · have hread : readNumber args digits star s =
        digits (skipAtoi s.fmt 0).2 (s.at (skipAtoi s.fmt 0).1) := if_pos hdigit
    obtain ⟨p, hp, hlocal⟩ := skipAtoi_local s.fmt 0
    dsimp only
    rw [hread, (hdigits _).fmt, (hdigits _).ap]
    refine ⟨le_rfl, p, hp, fun args' t _ ht => ?_⟩
    have hpeek : peek (p ++ t) = peek s.fmt := by
      rw [hp]
      exact peek_append p ht
    refine (if_pos (hpeek.symm ▸ hdigit)).trans ?_
    rw [← (hdigits _).at_eq, Spec.at, hlocal t ht]
    rfl
  · by_cases hpoint : peek s.fmt = ascii '*'
    · have hread : readNumber args digits star s =
          star (intArg args s.ap) { s with ap := s.ap + 1 } :=
        (if_neg hdigit).trans (if_pos hpoint)
      dsimp only
      rw [hread, (hstar _).fmt, (hstar _).ap]
      refine ⟨Nat.le_succ _, [], rfl, fun args' t hargs ht => ?_⟩
      have hpeek : peek t = peek s.fmt := ht
      have harg : intArg args' s.ap = intArg args s.ap := by
        unfold intArg
        rw [hargs s.ap (Nat.lt_succ_self _)]
      refine (if_neg (hpeek.symm ▸ hdigit)).trans ((if_pos (hpeek.trans hpoint)).trans ?_)
      rw [← (hstar _).at_eq, ← harg]
      rfl
    · have hread (args : ℕ → UInt32) : readNumber args digits star s = s :=
        (if_neg hdigit).trans (if_neg hpoint)
      dsimp only
      rw [hread]
      refine ⟨le_rfl, [], rfl, fun args' t _ ht => ?_⟩
      have hpeek : peek t = peek s.fmt := ht
      exact (if_neg (hpeek.symm ▸ hdigit)).trans (if_neg (hpeek.symm ▸ hpoint))

theorem local_readWidth : Local readWidth :=
  local_readNumber (fun _ => ⟨fun _ => rfl, fun _ => rfl, fun _ _ => rfl⟩)
    fun _ => ⟨fun _ => rfl, fun _ => rfl, fun _ _ => rfl⟩

theorem local_readDigits : Local readDigits :=
  local_readNumber (fun _ => ⟨fun _ => rfl, fun _ => rfl, fun _ _ => rfl⟩)
    fun _ => ⟨fun _ => rfl, fun _ => rfl, fun _ _ => rfl⟩

theorem peek_cons (h : peek l ≠ 0) : l = peek l :: l.tail := by
  cases l with
  | nil => exact absurd rfl h
  | cons c t => rfl

/-- `++fmt` and a part behind it, where the format has the character `c`. -/
theorem Local.skip {read : (ℕ → UInt32) → Spec → Spec} (h : Local read) (hc : peek s.fmt ≠ 0)
    (args : ℕ → UInt32) : s.ap ≤ (read args (s.at s.fmt.tail)).ap ∧
      ∃ p, s.fmt = peek s.fmt :: p ++ (read args (s.at s.fmt.tail)).fmt ∧
        ∀ args' t, (∀ i < (read args (s.at s.fmt.tail)).ap, args' i = args i) →
          peek t = peek (read args (s.at s.fmt.tail)).fmt →
          read args' (s.at (p ++ t)) = (read args (s.at s.fmt.tail)).at t := by
  obtain ⟨hle, p, hp, hlocal⟩ := h args (s.at s.fmt.tail)
  refine ⟨hle, p, ?_, hlocal⟩
  have htail : s.fmt.tail = p ++ (read args (s.at s.fmt.tail)).fmt := hp
  rw [List.cons_append, ← htail]
  exact peek_cons hc

theorem local_readPrecision : Local readPrecision := by
  intro args s
  by_cases hpoint : peek s.fmt = ascii '.'
  · have hsets : Sets fun s => { s with precision := if s.precision < 0 then 0 else s.precision } :=
      ⟨fun _ => rfl, fun _ => rfl, fun _ _ => rfl⟩
    have hne : peek s.fmt ≠ 0 := by
      rw [hpoint]
      decide
    obtain ⟨hle, p, hp, hlocal⟩ := (local_readDigits.comp (.of_sets hsets)).skip hne args
    have hread : readPrecision args s = _ := if_pos hpoint
    rw [hread]
    refine ⟨hle, peek s.fmt :: p, hp, fun args' t hargs ht => ?_⟩
    exact (if_pos hpoint).trans (hlocal args' t hargs ht)
  · have hread (args : ℕ → UInt32) : readPrecision args s = s := if_neg hpoint
    rw [hread]
    refine ⟨le_rfl, [], rfl, fun args' t _ ht => ?_⟩
    have hpeek : peek t = peek s.fmt := ht
    exact if_neg (hpeek.symm ▸ hpoint)

theorem local_readQualifier : Local fun _ => readQualifier := by
  intro args s
  dsimp only
  by_cases hc : peek s.fmt = ascii 'h' ∨ peek s.fmt = ascii 'l' ∨ peek s.fmt = ascii 'L'
  · have hne : peek s.fmt ≠ 0 := by
      obtain hc | hc | hc := hc <;> rw [hc] <;> decide
    have hread : readQualifier s = s.at s.fmt.tail := if_pos hc
    rw [hread]
    refine ⟨le_rfl, [peek s.fmt], peek_cons hne, fun args' t _ _ => ?_⟩
    exact if_pos hc
  · have hread : readQualifier s = s := if_neg hc
    rw [hread]
    refine ⟨le_rfl, [], rfl, fun args' t _ ht => ?_⟩
    have hpeek : peek t = peek s.fmt := ht
    exact if_neg (hpeek.symm ▸ hc)

/-- The parts behind the flags. -/
def readParts (args : ℕ → UInt32) (s : Spec) : Spec :=
  readQualifier (readPrecision args (readWidth args s))

theorem local_readParts : Local readParts :=
  (local_readWidth.comp local_readPrecision).comp local_readQualifier

theorem readSpec_local (args : ℕ → UInt32) (fmt : List UInt8) (ap : ℕ) :
    ap ≤ (readSpec args fmt ap).ap ∧ ∃ p, fmt = p ++ (readSpec args fmt ap).fmt ∧
      ∀ args' t, (∀ i < (readSpec args fmt ap).ap, args' i = args i) →
        peek t = peek (readSpec args fmt ap).fmt →
        readSpec args' (p ++ t) ap = (readSpec args fmt ap).at t := by
  obtain ⟨p, hp, hflags⟩ := flagLoop_local fmt 0
  obtain ⟨hle, p', hp', hparts⟩ := local_readParts args
    ⟨(flagLoop fmt 0).1, ap, (flagLoop fmt 0).2, -1, -1⟩
  refine ⟨hle, p ++ p', ?_, fun args' t hargs ht => ?_⟩
  · have hfmt : (flagLoop fmt 0).1 = p' ++ (readSpec args fmt ap).fmt := hp'
    rw [List.append_assoc, ← hfmt, ← hp]
  · have hpeek : peek (p' ++ t) = peek (flagLoop fmt 0).1 := by
      rw [show (flagLoop fmt 0).1 = p' ++ (readSpec args fmt ap).fmt from hp']
      exact peek_append p' ht
    have hread : readSpec args' (p ++ (p' ++ t)) ap = readParts args'
        ⟨(flagLoop (p ++ (p' ++ t)) 0).1, ap, (flagLoop (p ++ (p' ++ t)) 0).2, -1, -1⟩ := rfl
    rw [List.append_assoc, hread, hflags _ hpeek]
    exact hparts args' t hargs ht

/-- The number of arguments a conversion takes by its letter. -/
theorem convert_local (strings : UInt32 → List UInt8) (args args' : ℕ → UInt32) (s : Spec)
    (str : List UInt8) (stored : List (UInt32 × ℤ)) {t : List UInt8} (hpeek : peek t = peek s.fmt)
    (hargs : ∀ i < (convert strings args s str stored).ap, args' i = args i) :
    s.ap ≤ (convert strings args s str stored).ap ∧
      convert strings args' (s.at t) str stored =
        { convert strings args s str stored with fmt := t.tail } := by
  unfold convert Spec.at at *
  dsimp only at *
  rw [hpeek]
  cases hletter : letterOf (peek s.fmt) with
  | other => exact ⟨le_rfl, rfl⟩
  | pointer =>
      rw [hletter] at hargs
      rw [hargs s.ap (Nat.lt_succ_self _)]
      refine ⟨Nat.le_succ _, ?_⟩
      by_cases hwidth : s.fieldWidth = -1
      · simp only [if_pos hwidth]
        rfl
      · simp only [if_neg hwidth]
        rfl
  | _ =>
      rw [hletter] at hargs
      rw [hargs s.ap (Nat.lt_succ_self _)]
      exact ⟨Nat.le_succ _, rfl⟩

end

/-! ## Turns of the loop -/

section

variable {strings : UInt32 → List UInt8} {args args' : ℕ → UInt32} {s s' : Scan} {t : List UInt8}
  {fuel : ℕ}

/-- The same state with another rest of the format. -/
def Scan.at (s : Scan) (t : List UInt8) : Scan := { s with fmt := t }

theorem fmt_convert (s : Spec) (str : List UInt8) (stored : List (UInt32 × ℤ)) :
    (convert strings args s str stored).fmt = s.fmt.tail := by
  unfold convert
  cases letterOf (peek s.fmt) <;> rfl

theorem turn_plain (h : peek s.fmt ≠ ascii '%') : turn strings args s =
    { s with fmt := s.fmt.tail, str := s.str ++ [peek s.fmt] } := if_pos h

theorem turn_percent (h : s.fmt = ascii '%' :: t) : turn strings args s =
    convert strings args (readSpec args t s.ap) s.str s.stored := by
  unfold turn
  rw [h]
  exact if_neg fun hne => hne rfl

theorem percent_cons (h : peek s.fmt = ascii '%') : s.fmt = ascii '%' :: s.fmt.tail := by
  have hcons : s.fmt = peek s.fmt :: s.fmt.tail := peek_cons (h.symm ▸ by decide)
  rwa [h] at hcons

theorem length_turn (hne : peek s.fmt ≠ 0) :
    (turn strings args s).fmt.length < s.fmt.length := by
  have hcons := congrArg List.length (peek_cons hne)
  rw [List.length_cons] at hcons
  by_cases hpercent : peek s.fmt = ascii '%'
  · obtain ⟨-, p, hp, -⟩ := readSpec_local args s.fmt.tail s.ap
    have hlength := congrArg List.length hp
    rw [List.length_append] at hlength
    rw [turn_percent (percent_cons hpercent), fmt_convert, List.length_tail]
    omega
  · rw [turn_plain hpercent]
    dsimp only
    omega

/-- The fuel is enough: the loop stops at the end of the format. -/
theorem scanLoop_ends (h : s.fmt.length ≤ fuel) :
    peek (scanLoop strings args fuel s).fmt = 0 := by
  induction fuel generalizing s with
  | zero =>
      have hnil : s.fmt = [] := List.length_eq_zero_iff.1 (Nat.le_zero.1 h)
      rw [scanLoop, hnil]
      rfl
  | succ fuel ih =>
      rw [scanLoop]
      split
      next hzero => exact hzero
      next hne =>
        have hlt : (turn strings args s).fmt.length < s.fmt.length := length_turn hne
        exact ih (by omega)

theorem vsprintf_ends (fmt : List UInt8) : peek (vsprintf strings args fmt).fmt = 0 :=
  scanLoop_ends le_rfl

/-- A turn depends on the characters that it passes and on the arguments that it
takes. -/
theorem turn_local (hne : peek s.fmt ≠ 0) (hrest : (turn strings args s).fmt ≠ []) :
    s.ap ≤ (turn strings args s).ap ∧
      ∃ p, s.fmt = peek s.fmt :: p ++ (turn strings args s).fmt ∧
        ∀ args' t, (∀ i < (turn strings args s).ap, args' i = args i) →
          turn strings args' (s.at (peek s.fmt :: p ++ t)) = (turn strings args s).at t := by
  by_cases hpercent : peek s.fmt = ascii '%'
  · obtain ⟨hle, p, hp, hlocal⟩ := readSpec_local args s.fmt.tail s.ap
    rw [turn_percent (percent_cons hpercent)] at hrest ⊢
    rw [fmt_convert] at hrest ⊢
    generalize hspec : readSpec args s.fmt.tail s.ap = spec at *
    obtain ⟨c, r, hcons⟩ : ∃ c r, spec.fmt = c :: r := by
      cases hfmt : spec.fmt with
      | nil => exact absurd (congrArg List.tail hfmt) hrest
      | cons c r => exact ⟨c, r, rfl⟩
    have hpeek (t : List UInt8) : peek (c :: t) = peek spec.fmt := by
      rw [hcons]
      rfl
    refine ⟨?_, p ++ [c], ?_, fun args' t hargs => ?_⟩
    · exact hle.trans (convert_local strings args args spec s.str s.stored rfl fun _ _ => rfl).1
    · rw [List.cons_append, List.append_assoc, hcons, List.tail_cons, List.singleton_append,
        ← hcons, ← hp]
      exact peek_cons hne
    · obtain ⟨hap, hconvert⟩ := convert_local strings args args' spec s.str s.stored (hpeek t) hargs
      have hread : readSpec args' (p ++ [c] ++ t) s.ap = spec.at (c :: t) := by
        rw [List.append_assoc]
        exact hlocal args' (c :: t) (fun i hi => hargs i (hi.trans_le hap)) (hpeek t)
      have hfmt : (s.at (peek s.fmt :: (p ++ [c]) ++ t)).fmt = ascii '%' :: (p ++ [c] ++ t) :=
        congrArg (· :: (p ++ [c] ++ t)) hpercent
      rw [turn_percent hfmt, show (s.at (peek s.fmt :: (p ++ [c]) ++ t)).ap = s.ap from rfl, hread]
      exact hconvert
  · rw [turn_plain hpercent]
    exact ⟨le_rfl, [], peek_cons hne, fun args' t _ => if_pos hpercent⟩

/-- The states at the head of the loop. -/
inductive Scans (strings : UInt32 → List UInt8) (args : ℕ → UInt32) : Scan → Scan → Prop where
  | refl (s : Scan) : Scans strings args s s
  | step {s s' : Scan} (hne : peek s.fmt ≠ 0) (h : Scans strings args (turn strings args s) s') :
      Scans strings args s s'

/-- The loop goes on from every state at its head. -/
theorem scanLoop_of_scans (h : Scans strings args s s') (hfuel : s.fmt.length ≤ fuel) :
    ∃ fuel', s'.fmt.length ≤ fuel' ∧
      scanLoop strings args fuel s = scanLoop strings args fuel' s' := by
  induction h generalizing fuel with
  | refl s => exact ⟨fuel, hfuel, rfl⟩
  | @step s s' hne h ih =>
      have hlt : (turn strings args s).fmt.length < s.fmt.length := length_turn hne
      cases fuel with
      | zero => omega
      | succ fuel =>
          obtain ⟨fuel', hle, heq⟩ := @ih fuel (by omega)
          exact ⟨fuel', hle, (if_neg hne).trans heq⟩

/-- What is behind the place where the pointer stands, and the arguments that
are not yet taken, may be replaced. -/
theorem Scans.replace (h : Scans strings args s s') (hrest : s'.fmt ≠ []) :
    s.ap ≤ s'.ap ∧ ∃ p, s.fmt = p ++ s'.fmt ∧
      ∀ args' t, t ≠ [] → (∀ i < s'.ap, args' i = args i) →
        Scans strings args' (s.at (p ++ t)) (s'.at t) := by
  induction h with
  | refl s => exact ⟨le_rfl, [], rfl, fun args' t _ _ => .refl _⟩
  | @step s s' hne h ih =>
      obtain ⟨hle, p, hp, hscans⟩ := ih hrest
      have hnil : (turn strings args s).fmt ≠ [] := by
        rw [hp]
        exact fun h => hrest (List.append_eq_nil_iff.1 h).2
      obtain ⟨hle', p', hp', hturn⟩ := turn_local hne hnil
      refine ⟨hle'.trans hle, peek s.fmt :: p' ++ p, ?_, fun args' t ht hargs => ?_⟩
      · rw [List.append_assoc, ← hp, ← hp']
      · refine .step (s := s.at _) hne ?_
        rw [List.append_assoc, hturn args' (p ++ t) fun i hi => hargs i (hi.trans_le hle)]
        exact hscans args' t ht hargs

end

end MyJavaExample.Kernel
