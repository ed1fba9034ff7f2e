import Mathlib.Computability.Language
import MyJavaExample.Lexer.Languages

/-!
# The token definitions: `statemachine/RegularExpression`

The definitions of the token classes are regular expressions.  They are languages
here, with the letters that `Defines.isLetter` accepts and with the operator `==`
that the tests of the lexer add.

`DigitSM` and `IdSM` accept just the words of their classes (`digitSM_accepts_iff`,
`idSM_accepts_iff`).  `RelopSM` misses two of its own.  After `=` it accepts
nothing but a second `=`, and after `>` it accepts at once, so that `>=` is never
read as one operator.
-/

namespace MyJavaExample.Lexer

open Computability

/-! ## The definitions -/

namespace RegularExpression

/-- The words of one byte that satisfies `p`. -/
def oneOf (p : UInt8 → Bool) : Language UInt8 := {w | ∃ c, p c = true ∧ w = [c]}

/-- The word of one character. -/
def char (c : Char) : Language UInt8 := oneOf (· == ascii c)

def digit : Language UInt8 := oneOf isNumber

def letter : Language UInt8 := oneOf isLetter

def digits : Language UInt8 := digit * digit∗

/-- `digits(. digits)?(E[+-]?digits)?`. -/
def number : Language UInt8 :=
  digits * (1 + char '.' * digits) * (1 + char 'E' * (1 + (char '+' + char '-')) * digits)

/-- `letter(letter|digit)*`. -/
def id : Language UInt8 := letter * (letter + digit)∗

/-- `<|>|<=|>=|=|<>`, and `==`. -/
def relop : Language UInt8 :=
  {w | w ∈ (["<", ">", "<=", ">=", "=", "<>", "=="].map fun s => s.toList.map ascii)}

variable {p q : UInt8 → Bool} {w : List UInt8} {c : UInt8}

theorem mem_oneOf : w ∈ oneOf p ↔ ∃ c, p c = true ∧ w = [c] := Iff.rfl

theorem mem_char {c : Char} : w ∈ char c ↔ w = [ascii c] := by
  simp [char, mem_oneOf]

theorem oneOf_add (p q : UInt8 → Bool) : oneOf p + oneOf q = oneOf fun c => p c || q c := by
  ext w
  rw [Language.mem_add, mem_oneOf, mem_oneOf, mem_oneOf]
  constructor
  · rintro (⟨c, hc, rfl⟩ | ⟨c, hc, rfl⟩)
    · exact ⟨c, by rw [hc, Bool.true_or], rfl⟩
    · exact ⟨c, by rw [hc, Bool.or_true], rfl⟩
  · rintro ⟨c, hc, rfl⟩
    rcases Bool.or_eq_true_iff.1 hc with hc | hc
    · exact Or.inl ⟨c, hc, rfl⟩
    · exact Or.inr ⟨c, hc, rfl⟩

/-- A word of the star of a class of bytes. -/
theorem mem_oneOf_kstar : w ∈ (oneOf p)∗ ↔ ∀ c ∈ w, p c = true := by
  rw [Language.mem_kstar]
  constructor
  · rintro ⟨ws, rfl, hws⟩ c hc
    obtain ⟨v, hv, hcv⟩ := List.mem_flatten.1 hc
    obtain ⟨d, hd, rfl⟩ := mem_oneOf.1 (hws v hv)
    rwa [List.mem_singleton.1 hcv]
  · intro hw
    refine ⟨w.map fun c => [c], ?_, fun v hv => ?_⟩
    · induction w with
      | nil => rfl
      | cons c w ih =>
          rw [List.map_cons, List.flatten_cons, ← ih fun d hd => hw d (List.mem_cons_of_mem c hd)]
          rfl
    · obtain ⟨c, hc, rfl⟩ := List.mem_map.1 hv
      exact ⟨c, hw c hc, rfl⟩

/-- A word that starts with a byte of one class and goes on with bytes of another. -/
theorem mem_oneOf_mul_kstar : w ∈ oneOf p * (oneOf q)∗ ↔
    ∃ c v, p c = true ∧ (∀ d ∈ v, q d = true) ∧ w = c :: v := by
  rw [Language.mem_mul]
  constructor
  · rintro ⟨_, ⟨c, hc, rfl⟩, v, hv, rfl⟩
    exact ⟨c, v, hc, mem_oneOf_kstar.1 hv, rfl⟩
  · rintro ⟨c, v, hc, hv, rfl⟩
    exact ⟨[c], ⟨c, hc, rfl⟩, v, mem_oneOf_kstar.2 hv, rfl⟩

theorem mem_digits_singleton (hc : isNumber c = true) : [c] ∈ digits :=
  mem_oneOf_mul_kstar.2 ⟨c, [], hc, nofun, rfl⟩

theorem mem_digits_concat (hw : w ∈ digits) (hc : isNumber c = true) : w ++ [c] ∈ digits := by
  obtain ⟨d, v, hd, hv, rfl⟩ := mem_oneOf_mul_kstar.1 hw
  refine mem_oneOf_mul_kstar.2 ⟨d, v ++ [c], hd, fun e he => ?_, rfl⟩
  rcases List.mem_append.1 he with he | he
  · exact hv e he
  · rwa [List.mem_singleton.1 he]

/-- The fraction of a number. -/
def fraction : Language UInt8 := 1 + char '.' * digits

/-- The sign of an exponent. -/
def sign : Language UInt8 := 1 + (char '+' + char '-')

theorem mem_fraction : w ∈ fraction ↔ w = [] ∨ ∃ d ∈ digits, w = ascii '.' :: d := by
  rw [fraction, Language.mem_add, Language.mem_one, Language.mem_mul]
  refine or_congr_right ⟨?_, ?_⟩
  · rintro ⟨v, hv, d, hd, rfl⟩
    rw [mem_char.1 hv]
    exact ⟨d, hd, rfl⟩
  · rintro ⟨d, hd, rfl⟩
    exact ⟨_, mem_char.2 rfl, d, hd, rfl⟩

theorem mem_sign : w ∈ sign ↔ w = [] ∨ w = [ascii '+'] ∨ w = [ascii '-'] := by
  rw [sign, Language.mem_add, Language.mem_add, Language.mem_one, mem_char, mem_char]

theorem mem_number : w ∈ number ↔ ∃ i ∈ digits, ∃ f ∈ fraction,
    w = i ++ f ∨ ∃ s ∈ sign, ∃ d ∈ digits, w = i ++ f ++ ascii 'E' :: (s ++ d) := by
  rw [number, Language.mem_mul]
  constructor
  · rintro ⟨m, hm, e, he, rfl⟩
    obtain ⟨i, hi, f, hf, rfl⟩ := Language.mem_mul.1 hm
    refine ⟨i, hi, f, hf, ?_⟩
    rcases (Language.mem_add _ _ _).1 he with he | he
    · rw [(Language.mem_one _).1 he, List.append_nil]
      exact Or.inl rfl
    · obtain ⟨es, hes, d, hd, rfl⟩ := Language.mem_mul.1 he
      obtain ⟨v, hv, s, hs, rfl⟩ := Language.mem_mul.1 hes
      rw [mem_char.1 hv]
      exact Or.inr ⟨s, hs, d, hd, rfl⟩
  · rintro ⟨i, hi, f, hf, rfl | ⟨s, hs, d, hd, rfl⟩⟩
    · refine ⟨i ++ f, Language.append_mem_mul hi hf, [], ?_, List.append_nil _⟩
      exact (Language.mem_add _ _ _).2 (Or.inl rfl)
    · refine ⟨i ++ f, Language.append_mem_mul hi hf, ascii 'E' :: (s ++ d), ?_, rfl⟩
      refine (Language.mem_add _ _ _).2 (Or.inr ?_)
      exact Language.append_mem_mul (Language.append_mem_mul (mem_char.2 rfl) hs) hd

end RegularExpression

open MyJavaExample.Lexer.RegularExpression

namespace Kind

variable {k : Kind} {w : List UInt8}

/-- The words of the language are those after which the end of the input is
accepted. -/
theorem accepts_iff_EOF : k.Accepts w ↔ k.moveToNextState (k.run w) EOF = k.acceptState :=
  (accepts_iff (k.next_EOF _)).symm

end Kind

/-! ## Identifiers -/

namespace IdSM

/-- The machine stays in state 1 as long as it reads letters and digits. -/
theorem foldl_one_iff {v : List UInt8} : v.foldl moveToNextState 1 = 1 ↔
    ∀ c ∈ v, (isLetter c || isNumber c) = true := by
  induction v with
  | nil => simp
  | cons c v ih =>
      rw [List.foldl_cons, List.forall_mem_cons]
      by_cases hc : (isLetter c || isNumber c) = true
      · have hnext : moveToNextState 1 c = 1 := if_pos hc
        rw [hnext, ih]
        exact (and_iff_right hc).symm
      · have hnext : moveToNextState 1 c = 2 := if_neg hc
        rw [hnext]
        refine iff_of_false ?_ fun h => hc h.1
        cases v with
        | nil => decide
        | cons d v =>
            have hfail : v.foldl moveToNextState (-1) = -1 := Kind.idSM.foldl_fail v
            have hnext' : moveToNextState 2 d = -1 := rfl
            rw [List.foldl_cons, hnext', hfail]
            decide

theorem run_eq_one_iff {w : List UInt8} : Kind.idSM.run w = 1 ↔ w ∈ RegularExpression.id := by
  rw [RegularExpression.id, letter, digit, oneOf_add, mem_oneOf_mul_kstar]
  cases w with
  | nil => simp [Kind.run]
  | cons c v =>
      change v.foldl moveToNextState (moveToNextState 0 c) = 1 ↔ _
      constructor
      · intro h
        by_cases hc : isLetter c = true
        · have hnext : moveToNextState 0 c = 1 := if_pos hc
          rw [hnext, foldl_one_iff] at h
          exact ⟨c, v, hc, h, rfl⟩
        · have hnext : moveToNextState 0 c = -1 := if_neg hc
          have hfail : v.foldl moveToNextState (-1) = -1 := Kind.idSM.foldl_fail v
          rw [hnext, hfail] at h
          exact absurd h (by decide)
      · rintro ⟨_, _, hc, hv, rfl, rfl⟩
        have hnext : moveToNextState 0 c = 1 := if_pos hc
        rw [hnext]
        exact foldl_one_iff.2 hv

end IdSM

theorem idSM_accepts_iff {w : List UInt8} : Kind.idSM.Accepts w ↔ w ∈ RegularExpression.id := by
  rw [Kind.accepts_iff_EOF, ← IdSM.run_eq_one_iff]
  rcases Kind.idSM.run_mem w with hended | hgoing
  · rw [Kind.next_ended hended]
    refine iff_of_false (by decide) fun h => ?_
    rw [h] at hended
    revert hended
    decide
  · simp only [Kind.goingOn, List.mem_cons, List.not_mem_nil, or_false] at hgoing
    rcases hgoing with h | h <;> rw [h] <;> decide

/-! ## Numbers -/

namespace DigitSM

/-- What has been read in a state. -/
def Reached (w : List UInt8) : ℤ → Prop
  | 0 => w = []
  | 1 => w ∈ digits
  | 2 => ∃ i ∈ digits, w = i ++ [ascii '.']
  | 3 => ∃ i ∈ digits, ∃ f ∈ fraction, w = i ++ f ++ [ascii 'E']
  | 4 => ∃ i ∈ digits, ∃ d ∈ digits, w = i ++ ascii '.' :: d
  | 5 => ∃ i ∈ digits, ∃ f ∈ fraction, ∃ c, [c] ∈ sign ∧ w = i ++ f ++ [ascii 'E', c]
  | 6 => ∃ i ∈ digits, ∃ f ∈ fraction, ∃ s ∈ sign, ∃ d ∈ digits,
      w = i ++ f ++ ascii 'E' :: (s ++ d)
  | _ => True

theorem Reached.step {w : List UInt8} {state : ℤ} (hmem : state ∈ Kind.digitSM.goingOn)
    (h : Reached w state) (c : UInt8) : Reached (w ++ [c]) (moveToNextState state c) := by
  simp only [Kind.goingOn, List.mem_cons, List.not_mem_nil, or_false] at hmem
  rcases hmem with rfl | rfl | rfl | rfl | rfl | rfl | rfl
  · obtain rfl : w = [] := h
    simp only [moveToNextState]
    split_ifs with hc
    · exact mem_digits_singleton hc
    · trivial
  · simp only [moveToNextState]
    split_ifs with hc hdot hE
    · exact mem_digits_concat h hc
    · exact ⟨w, h, by rw [hdot]⟩
    · exact ⟨w, h, [], mem_fraction.2 (Or.inl rfl), by rw [hE, List.append_nil]⟩
    · trivial
  · obtain ⟨i, hi, rfl⟩ := h
    simp only [moveToNextState]
    split_ifs with hc
    · exact ⟨i, hi, [c], mem_digits_singleton hc, by simp⟩
    · trivial
  · obtain ⟨i, hi, f, hf, rfl⟩ := h
    simp only [moveToNextState]
    split_ifs with hsign hc
    · refine ⟨i, hi, f, hf, c, ?_, by simp⟩
      rw [mem_sign]
      simpa using hsign
    · exact ⟨i, hi, f, hf, [], mem_sign.2 (Or.inl rfl), [c], mem_digits_singleton hc, by simp⟩
    · trivial
  · obtain ⟨i, hi, d, hd, rfl⟩ := h
    simp only [moveToNextState]
    split_ifs with hc hE
    · exact ⟨i, hi, d ++ [c], mem_digits_concat hd hc, by simp⟩
    · exact ⟨i, hi, _, mem_fraction.2 (Or.inr ⟨d, hd, rfl⟩), by rw [hE]⟩
    · trivial
  · obtain ⟨i, hi, f, hf, s, hs, rfl⟩ := h
    simp only [moveToNextState]
    split_ifs with hc
    · exact ⟨i, hi, f, hf, [s], hs, [c], mem_digits_singleton hc, by simp⟩
    · trivial
  · obtain ⟨i, hi, f, hf, s, hs, d, hd, rfl⟩ := h
    simp only [moveToNextState]
    split_ifs with hc
    · exact ⟨i, hi, f, hf, s, hs, d ++ [c], mem_digits_concat hd hc, by simp⟩
    · trivial

theorem reached_run (w : List UInt8) : Reached w (Kind.digitSM.run w) :=
  Kind.digitSM.run_induct rfl (fun _ => trivial) (fun _ _ c hmem h => h.step hmem c) w

/-- Digits take the machine to the state it stays in for more of them. -/
theorem foldl_digits {state state' : ℤ} {d : List UInt8} (hd : d ∈ digits)
    (hfirst : ∀ c, isNumber c = true → moveToNextState state c = state')
    (hstay : ∀ c, isNumber c = true → moveToNextState state' c = state') :
    d.foldl moveToNextState state = state' := by
  obtain ⟨c, v, hc, hv, rfl⟩ := mem_oneOf_mul_kstar.1 hd
  rw [List.foldl_cons, hfirst c hc]
  clear hc hd
  induction v with
  | nil => rfl
  | cons e v ih =>
      rw [List.foldl_cons, hstay e (hv e List.mem_cons_self)]
      exact ih fun c hc => hv c (List.mem_cons_of_mem e hc)

theorem foldl_fraction {f : List UInt8} (hf : f ∈ fraction) :
    f.foldl moveToNextState 1 = 1 ∨ f.foldl moveToNextState 1 = 4 := by
  rcases mem_fraction.1 hf with rfl | ⟨d, hd, rfl⟩
  · exact Or.inl rfl
  · right
    have hdot : moveToNextState 1 (ascii '.') = 2 := by decide
    rw [List.foldl_cons, hdot]
    exact foldl_digits hd (fun c hc => if_pos hc) fun c hc => if_pos hc

theorem foldl_exponent {s d : List UInt8} (hs : s ∈ sign) (hd : d ∈ digits) {state : ℤ}
    (hstate : state = 1 ∨ state = 4) :
    (ascii 'E' :: (s ++ d)).foldl moveToNextState state = 6 := by
  have hE : moveToNextState state (ascii 'E') = 3 := by
    rcases hstate with rfl | rfl <;> decide
  have hdigit : ∀ c, isNumber c = true → moveToNextState 3 c = 6 := by
    intro c hc
    have hsign : ¬((c = ascii '+' || c = ascii '-') = true) := by
      intro h
      rcases by simpa using h with rfl | rfl <;> revert hc <;> decide
    exact (if_neg hsign).trans (if_pos hc)
  rw [List.foldl_cons, hE, List.foldl_append]
  rcases mem_sign.1 hs with rfl | rfl | rfl
  · exact foldl_digits hd hdigit fun c hc => if_pos hc
  · exact foldl_digits hd (fun c hc => if_pos hc) fun c hc => if_pos hc
  · exact foldl_digits hd (fun c hc => if_pos hc) fun c hc => if_pos hc

/-- The machine is in one of the states where a number may end. -/
theorem run_number {w : List UInt8} (hw : w ∈ number) :
    Kind.digitSM.run w = 1 ∨ Kind.digitSM.run w = 4 ∨ Kind.digitSM.run w = 6 := by
  obtain ⟨i, hi, f, hf, hw⟩ := mem_number.1 hw
  have hint : Kind.digitSM.run i = 1 :=
    foldl_digits hi (fun c hc => if_pos hc) fun c hc => if_pos hc
  have hmantissa : Kind.digitSM.run (i ++ f) = 1 ∨ Kind.digitSM.run (i ++ f) = 4 := by
    rw [Kind.run_append, hint]
    exact foldl_fraction hf
  rcases hw with rfl | ⟨s, hs, d, hd, rfl⟩
  · exact hmantissa.imp_right Or.inl
  · rw [Kind.run_append]
    exact Or.inr (Or.inr (foldl_exponent hs hd hmantissa))

end DigitSM

theorem digitSM_accepts_iff {w : List UInt8} : Kind.digitSM.Accepts w ↔ w ∈ number := by
  rw [Kind.accepts_iff_EOF]
  constructor
  · intro h
    have hreached := DigitSM.reached_run w
    rcases Kind.digitSM.run_mem w with hended | hgoing
    · rw [Kind.next_ended hended] at h
      exact absurd h (by decide)
    · simp only [Kind.goingOn, List.mem_cons, List.not_mem_nil, or_false] at hgoing
      rw [mem_number]
      rcases hgoing with hs | hs | hs | hs | hs | hs | hs <;> rw [hs] at h hreached
      · exact absurd h (by decide)
      · exact ⟨w, hreached, [], mem_fraction.2 (Or.inl rfl), Or.inl (List.append_nil w).symm⟩
      · exact absurd h (by decide)
      · exact absurd h (by decide)
      · obtain ⟨i, hi, d, hd, rfl⟩ := hreached
        exact ⟨i, hi, _, mem_fraction.2 (Or.inr ⟨d, hd, rfl⟩), Or.inl rfl⟩
      · exact absurd h (by decide)
      · obtain ⟨i, hi, f, hf, s, hs', d, hd, rfl⟩ := hreached
        exact ⟨i, hi, f, hf, Or.inr ⟨s, hs', d, hd, rfl⟩⟩
  · intro hw
    rcases DigitSM.run_number hw with h | h | h <;> rw [h] <;> decide

/-! ## Operators -/

namespace RelopSM

/-- What has been read in a state. -/
def Reached (w : List UInt8) : ℤ → Prop
  | 0 => w = []
  | 1 => w = [ascii '<']
  | 2 => w = [ascii '=']
  | 3 => w = [ascii '>']
  | 4 => w = [ascii '<', ascii '=']
  | 5 => w = [ascii '<', ascii '>']
  | 6 => w = [ascii '=', ascii '=']
  | _ => True

theorem Reached.step {w : List UInt8} {state : ℤ} (hmem : state ∈ Kind.relopSM.goingOn)
    (h : Reached w state) (c : UInt8) : Reached (w ++ [c]) (moveToNextState state c) := by
  simp only [Kind.goingOn, List.mem_cons, List.not_mem_nil, or_false] at hmem
  rcases hmem with rfl | rfl | rfl | rfl | rfl | rfl | rfl <;>
    simp only [Reached] at h <;>
    subst h <;>
    simp only [moveToNextState] <;>
    (try split_ifs) <;>
    simp_all [Reached]

theorem reached_run (w : List UInt8) : Reached w (Kind.relopSM.run w) :=
  Kind.relopSM.run_induct rfl (fun _ => trivial) (fun _ _ c hmem h => h.step hmem c) w

end RelopSM

/-- The operators the machine misses. -/
def missedRelops : List (List UInt8) := [[ascii '='], [ascii '>', ascii '=']]

theorem mem_relop_iff {w : List UInt8} :
    w ∈ relop ↔ Kind.relopSM.Accepts w ∨ w ∈ missedRelops := by
  have hmem : w ∈ relop ↔
      w ∈ (["<", ">", "<=", ">=", "=", "<>", "=="].map fun s => s.toList.map ascii) := Iff.rfl
  rw [hmem, Kind.accepts_iff_EOF]
  constructor
  · intro h
    simp only [List.map_cons, List.map_nil, List.mem_cons, List.not_mem_nil, or_false] at h
    rcases h with rfl | rfl | rfl | rfl | rfl | rfl | rfl <;> decide
  · rintro (h | h)
    · have hreached := RelopSM.reached_run w
      rcases Kind.relopSM.run_mem w with hended | hgoing
      · rw [Kind.next_ended hended] at h
        exact absurd h (by decide)
      · simp only [Kind.goingOn, List.mem_cons, List.not_mem_nil, or_false] at hgoing
        rcases hgoing with hs | hs | hs | hs | hs | hs | hs <;>
          rw [hs] at h hreached <;>
          simp only [RelopSM.Reached] at hreached <;>
          subst hreached <;>
          revert h <;> decide
    · simp only [missedRelops, List.mem_cons, List.not_mem_nil, or_false] at h
      rcases h with rfl | rfl <;> decide

theorem not_accepts_missed {w : List UInt8} (h : w ∈ missedRelops) : ¬Kind.relopSM.Accepts w := by
  rw [Kind.accepts_iff_EOF]
  simp only [missedRelops, List.mem_cons, List.not_mem_nil, or_false] at h
  rcases h with rfl | rfl <;> decide

/-! ## The machines and the definitions -/

/-- The classes that `RegularExpression` defines and that have a machine of their
own. -/
inductive TokenClass where
  | relop
  | number
  | id
deriving DecidableEq

namespace TokenClass

def machine : TokenClass → Kind
  | relop => .relopSM
  | number => .digitSM
  | id => .idSM

def definition : TokenClass → Language UInt8
  | relop => RegularExpression.relop
  | number => RegularExpression.number
  | id => RegularExpression.id

variable {t : TokenClass} {w : List UInt8}

theorem mem_definition_iff :
    w ∈ t.definition ↔ t.machine.Accepts w ∨ t = .relop ∧ w ∈ missedRelops := by
  cases t with
  | relop => simpa [definition, machine] using mem_relop_iff
  | number => simpa [definition, machine] using digitSM_accepts_iff.symm
  | id => simpa [definition, machine] using idSM_accepts_iff.symm

end TokenClass

/-- The machine after it has read `w`. -/
def StateMachine.feed (m : StateMachine) (w : List UInt8) : StateMachine :=
  w.foldl StateMachine.move m

theorem StateMachine.feed_run (k : Kind) (state : ℤ) (name : List UInt16) (w : List UInt8) :
    ((StateMachine.mk k state name).reset.feed w).state = k.run w ∧
      ((StateMachine.mk k state name).reset.feed w).kind = k := by
  induction w using List.reverseRecOn with
  | nil => exact ⟨rfl, rfl⟩
  | append_singleton w c ih =>
      have hfeed : (StateMachine.mk k state name).reset.feed (w ++ [c]) =
          ((StateMachine.mk k state name).reset.feed w).move c := List.foldl_append
      rw [hfeed, StateMachine.move_state, StateMachine.move_kind, ih.1, ih.2, Kind.run_concat]
      exact ⟨rfl, rfl⟩

/-- After a word `w` and a character with which no word of the class goes on, a
machine accepts if `w` is in its class, and only then, except for the two
operators that `RelopSM` misses. -/
theorem tokenClass_conforms_iff (t : TokenClass) (state : ℤ) (name : List UInt16) (w : List UInt8)
    (c : UInt8) (hc : ¬∃ v, w ++ [c] ++ v ∈ t.definition) :
    ((((StateMachine.mk t.machine state name).reset.feed (w ++ [c])).accept = true ↔
        w ∈ t.definition) ↔
      ¬(t = .relop ∧ (w = [ascii '='] ∨ w = [ascii '>', ascii '=']))) := by
  have hended : t.machine.Ended (t.machine.moveToNextState (t.machine.run w) c) := by
    rw [← Kind.run_concat]
    by_contra hgoing
    obtain ⟨v, hv⟩ := Kind.viable_iff.2 hgoing
    exact hc ⟨v, TokenClass.mem_definition_iff.2 (Or.inl hv)⟩
  have haccept : ((StateMachine.mk t.machine state name).reset.feed (w ++ [c])).accept = true ↔
      t.machine.Accepts w := by
    obtain ⟨hstate, hkind⟩ := StateMachine.feed_run t.machine state name (w ++ [c])
    rw [StateMachine.accept, hstate, hkind, Kind.run_concat, beq_iff_eq, Kind.accepts_iff hended]
  have hmissed : (w = [ascii '='] ∨ w = [ascii '>', ascii '=']) ↔ w ∈ missedRelops := by
    simp [missedRelops]
  rw [haccept, TokenClass.mem_definition_iff, hmissed]
  constructor
  · rintro h ⟨rfl, hw⟩
    exact not_accepts_missed hw (h.2 (Or.inr ⟨rfl, hw⟩))
  · intro h
    exact ⟨Or.inl, fun haccepts => haccepts.resolve_right h⟩

/-- The number `15` before a blank. -/
theorem tokenClass_conforms_test :
    ((((StateMachine.mk .digitSM 0 []).reset.feed [ascii '1', ascii '5', ascii ' ']).accept = true ↔
        [ascii '1', ascii '5'] ∈ number) ↔
      ¬(TokenClass.number = .relop ∧
        ([ascii '1', ascii '5'] = [ascii '='] ∨ [ascii '1', ascii '5'] = [ascii '>', ascii '=']))) := by
  refine tokenClass_conforms_iff .number 0 [] [ascii '1', ascii '5'] (ascii ' ') ?_
  rintro ⟨v, hv⟩
  have hviable : Kind.digitSM.Viable [ascii '1', ascii '5', ascii ' '] :=
    ⟨v, digitSM_accepts_iff.2 hv⟩
  revert hviable
  rw [Kind.viable_iff]
  decide

/-- The operator `=` before a blank, as in the test `parseToken2`. -/
theorem relopSM_misses_assign :
    (¬∃ v, [ascii '=', ascii ' '] ++ v ∈ TokenClass.relop.definition) ∧
      [ascii '='] ∈ TokenClass.relop.definition ∧
      ((StateMachine.mk .relopSM 0 []).reset.feed [ascii '=', ascii ' ']).accept = false := by
  refine ⟨?_, mem_relop_iff.2 (Or.inr (by decide)), by decide⟩
  rintro ⟨v, hv⟩
  rcases mem_relop_iff.1 hv with hv | hv
  · have hviable : Kind.relopSM.Viable [ascii '=', ascii ' '] := ⟨v, hv⟩
    revert hviable
    rw [Kind.viable_iff]
    decide
  · have hlength : ∀ u ∈ missedRelops, u.head? = some (ascii '=') → u.length = 1 := by decide
    have hone := hlength _ hv rfl
    simp at hone

end MyJavaExample.Lexer
