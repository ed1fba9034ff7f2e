import Mathlib.Data.Nat.Digits.Lemmas
import MyJavaExample.Lib.Int32

/-!
# Formatting an integer: `number` of `kernel/vsprintf.c`

`number` writes the digits of `num` in a base, with a sign, a prefix, at least
`precision` digits, and padded to `size` characters.  All of this shares the
variable `size`: what is written is taken off it, and each of three loops
`while (size-->0)` writes what is left and leaves a negative number behind.

`size` is an `int`.  A width so far below zero that taking off the lengths
passes the smallest `int` becomes a large positive one, and the next loop fills
up with two thousand million characters.
-/

namespace MyJavaExample.Kernel

open Lib

/-- The code of an ASCII character. -/
def ascii (c : Char) : UInt8 := c.toNat.toUInt8

/-! ## The flags -/

def ZEROPAD : UInt32 := 1
def SIGN : UInt32 := 2
def PLUS : UInt32 := 4
def SPACE : UInt32 := 8
def LEFT : UInt32 := 16
def SPECIAL : UInt32 := 32
def SMALL : UInt32 := 64

/-- `type&flag` -/
def has (type flag : UInt32) : Bool := type &&& flag != 0

/-- The character for a digit, in capital letters or in small ones. -/
def digit (small : Bool) (d : ℕ) : UInt8 :=
  if d < 10 then ascii '0' + d.toUInt8
  else if small then ascii 'a' + (d - 10).toUInt8 else ascii 'A' + (d - 10).toUInt8

/-! ## The loops -/

/-- `while (size-->0) *str++ = c` -/
def padLoop (c : UInt8) : ℕ → ℤ → List UInt8 → List UInt8 × ℤ
  | 0, size, str => (str, toInt32 (size - 1))
  | fuel + 1, size, str =>
      if 0 < size then padLoop c fuel (toInt32 (size - 1)) (str ++ [c])
      else (str, toInt32 (size - 1))

/-- The loop runs `size` times. -/
def pad (c : UInt8) (size : ℤ) (str : List UInt8) : List UInt8 × ℤ := padLoop c size.toNat size str

/-- `while (num!=0) tmp[i++]=digits[do_div(num,base)]`.  The division takes `num`
as an unsigned number, so it ends within the 36 characters of `tmp`. -/
def digitLoop (small : Bool) (base : ℕ) : ℕ → ℕ → List UInt8 → List UInt8
  | 0, _, tmp => tmp
  | fuel + 1, num, tmp =>
      if num = 0 then tmp
      else digitLoop small base fuel (num / base) (tmp ++ [digit small (num % base)])

/-- `while(i<precision--) *str++ = '0'` -/
def zeroLoop (i : ℕ) : ℕ → ℤ → List UInt8 → List UInt8
  | 0, _, str => str
  | fuel + 1, precision, str =>
      if i < precision then zeroLoop i fuel (precision - 1) (str ++ [ascii '0']) else str

/-! ## The function -/

/-- The variable `sign`; none is zero. -/
def signOf (num : BitVec 32) (type : UInt32) : Option UInt8 :=
  if has type SIGN ∧ num.toInt < 0 then some (ascii '-')
  else if has type PLUS then some (ascii '+')
  else if has type SPACE then some (ascii ' ')
  else none

/-- The number that is divided: `-num` for a negative one with the flag `SIGN`. -/
def unsignedOf (num : BitVec 32) (type : UInt32) : BitVec 32 :=
  if has type SIGN ∧ num.toInt < 0 then -num else num

/-- What the flag `SPECIAL` writes before the digits. -/
def prefixOf (base : ℤ) (type : UInt32) : List UInt8 :=
  if has type SPECIAL then
    if base = 8 then [ascii '0']
    else if base = 16 then [ascii '0', digit (has type SMALL) 33]
    else []
  else []

/-- `number`: the characters written, or none for a base it refuses. -/
def number (num : BitVec 32) (base size precision : ℤ) (type : UInt32) : Option (List UInt8) :=
  let type := if has type LEFT then type &&& ~~~ZEROPAD else type
  if base < 2 ∨ 36 < base then none
  else
    let c := if has type ZEROPAD then ascii '0' else ascii ' '
    let sign := signOf num type
    let num := unsignedOf num type
    let size := if sign.isSome then toInt32 (size - 1) else size
    let size :=
      if has type SPECIAL then
        if base = 16 then toInt32 (size - 2)
        else if base = 8 then toInt32 (size - 1)
        else size
      else size
    let tmp :=
      if num = 0 then [ascii '0'] else digitLoop (has type SMALL) base.toNat 36 num.toNat []
    let i := tmp.length
    let precision := if precision < i then (i : ℤ) else precision
    let size := toInt32 (size - precision)
    let (str, size) :=
      if ¬(has type ZEROPAD ∨ has type LEFT) then pad (ascii ' ') size [] else ([], size)
    let str := str ++ sign.toList
    let str := str ++ prefixOf base type
    let (str, size) := if ¬has type LEFT then pad c size str else (str, size)
    let str := zeroLoop i precision.toNat precision str
    let str := str ++ tmp.reverse
    let (str, _) := pad (ascii ' ') size str
    some str

/-! ## What the number looks like -/

/-- The text of a number, piece by piece; the digits from the first to the
last. -/
structure Parts where
  left : ℕ
  sign : Option UInt8
  special : List UInt8
  zeros : ℕ
  digits : List ℕ
  right : ℕ

def Parts.text (p : Parts) (small : Bool) : List UInt8 :=
  List.replicate p.left (ascii ' ') ++ p.sign.toList ++ p.special ++
    List.replicate p.zeros (ascii '0') ++ p.digits.map (digit small) ++
    List.replicate p.right (ascii ' ')

/-- The value to be shown. -/
def magnitude (num : BitVec 32) (type : UInt32) : ℕ :=
  if has type SIGN then num.toInt.natAbs else num.toNat

/-- The digits of a number without leading zeros; zero has one. -/
def digitsOf (base num : ℕ) : List ℕ := if num = 0 then [0] else base.digits num

/-- The length of the sign, the prefix and the digits. -/
def textLength (num : BitVec 32) (base precision : ℤ) (type : UInt32) : ℤ :=
  (signOf num type).toList.length + (prefixOf base type).length +
    max precision (digitsOf base.toNat (magnitude num type)).length

/-- The number is written with at least `precision` digits and padded to
`size`. -/
structure Parts.Shows (p : Parts) (num : BitVec 32) (base size precision : ℤ) (type : UInt32) :
    Prop where
  sign : p.sign = signOf num type
  minus : p.sign = some (ascii '-') ↔ has type SIGN ∧ num.toInt < 0
  special : p.special = prefixOf base type
  lt : ∀ d ∈ p.digits, d < base.toNat
  value : Nat.ofDigits base.toNat p.digits.reverse = magnitude num type
  count : (p.digits.length : ℤ) = max precision (digitsOf base.toNat (magnitude num type)).length
  length : ((p.text (has type SMALL)).length : ℤ) = max size (textLength num base precision type)

/-- `number` gives the text of the number. -/
def Formatted (num : BitVec 32) (base size precision : ℤ) (type : UInt32) : Prop :=
  ∃ p : Parts, number num base size precision type = some (p.text (has type SMALL)) ∧
    p.Shows num base size precision type

/-- The loops that run before the last one that fills up. -/
def fillLoops (type : UInt32) : ℤ :=
  if has type LEFT then 0 else if has type ZEROPAD then 1 else 2

section

variable {c : UInt8} {size precision base : ℤ} {str tmp : List UInt8} {num : BitVec 32}
  {type f : UInt32} {small : Bool} {b u i : ℕ}

/-! ## What the loops write -/

theorem padLoop_eq (hl : -2 ^ 31 ≤ size) (hu : size < 2 ^ 31) {fuel : ℕ} (hfuel : fuel = size.toNat)
    (str : List UInt8) : padLoop c fuel size str =
      (str ++ List.replicate fuel c, toInt32 (min size 0 - 1)) := by
  induction fuel generalizing size str with
  | zero =>
      have hle : size ≤ 0 := by omega
      rw [padLoop, List.replicate_zero, List.append_nil, min_eq_left hle]
  | succ fuel ih =>
      have hpos : 0 < size := by omega
      rw [padLoop, if_pos hpos, toInt32_of_range (by omega) (by omega),
        ih (by omega) (by omega) (by omega), List.append_assoc, min_eq_right (by omega),
        min_eq_right (by omega)]
      rfl

theorem pad_eq (hl : -2 ^ 31 ≤ size) (hu : size < 2 ^ 31) (c : UInt8) (str : List UInt8) :
    pad c size str = (str ++ List.replicate size.toNat c, toInt32 (min size 0 - 1)) :=
  padLoop_eq hl hu rfl str

/-- The digits come out in reverse order, as `Nat.digits` has them. -/
theorem digitLoop_eq (hb : 2 ≤ b) {fuel : ℕ} (hu : u < b ^ fuel) (tmp : List UInt8) :
    digitLoop small b fuel u tmp = tmp ++ (b.digits u).map (digit small) := by
  induction fuel generalizing u tmp with
  | zero =>
      have hzero : u = 0 := by simpa using hu
      rw [hzero, digitLoop, Nat.digits_zero, List.map_nil, List.append_nil]
  | succ fuel ih =>
      rw [digitLoop]
      split
      next hzero => rw [hzero, Nat.digits_zero, List.map_nil, List.append_nil]
      next hne =>
        have hdiv : u / b < b ^ fuel := Nat.div_lt_of_lt_mul (by rwa [Nat.pow_succ'] at hu)
        rw [ih hdiv, Nat.digits_def' hb (Nat.pos_of_ne_zero hne), List.append_assoc]
        rfl

theorem zeroLoop_eq {fuel : ℕ} (hfuel : fuel = precision.toNat) (str : List UInt8) :
    zeroLoop i fuel precision str = str ++ List.replicate (fuel - i) (ascii '0') := by
  induction fuel generalizing precision str with
  | zero => rw [zeroLoop, Nat.zero_sub, List.replicate_zero, List.append_nil]
  | succ fuel ih =>
      rw [zeroLoop]
      split
      next hlt =>
        rw [ih (by omega), List.append_assoc, Nat.succ_sub (by omega)]
        rfl
      next hle =>
        rw [show fuel + 1 - i = 0 by omega, List.replicate_zero, List.append_nil]

/-! ## The digits -/

theorem toNat_unsignedOf : (unsignedOf num type).toNat = magnitude num type := by
  have hlt := num.isLt
  unfold unsignedOf magnitude
  rw [BitVec.toInt_eq_toNat_cond]
  cases has type SIGN with
  | false =>
      rw [if_neg (fun h => Bool.false_ne_true h.1)]
      rfl
  | true =>
      rw [if_pos (rfl : true = true)]
      by_cases hneg : 2 * num.toNat < 2 ^ 32
      · rw [if_pos hneg, if_neg (by omega)]
        omega
      · rw [if_neg hneg, if_pos ⟨rfl, by omega⟩, BitVec.toNat_neg]
        omega

theorem magnitude_lt : magnitude num type < 2 ^ 32 := by
  rw [← toNat_unsignedOf]
  exact (unsignedOf num type).isLt

theorem unsignedOf_eq_zero : unsignedOf num type = 0 ↔ magnitude num type = 0 := by
  rw [← toNat_unsignedOf, ← BitVec.toNat_inj]
  rfl

/-- The variable `tmp`: the digits from the last to the first. -/
theorem tmp_eq (hb : 2 ≤ b) :
    (if unsignedOf num type = 0 then [ascii '0']
      else digitLoop small b 36 (unsignedOf num type).toNat []) =
      (digitsOf b (magnitude num type)).map (digit small) := by
  unfold digitsOf
  by_cases hzero : magnitude num type = 0
  · rw [if_pos (unsignedOf_eq_zero.2 hzero), if_pos hzero]
    rfl
  · have hlt : magnitude num type < b ^ 36 :=
      magnitude_lt.trans_le ((by decide : 2 ^ 32 ≤ 2 ^ 36).trans (Nat.pow_le_pow_left hb 36))
    rw [if_neg fun h => hzero (unsignedOf_eq_zero.1 h), if_neg hzero, toNat_unsignedOf,
      digitLoop_eq hb hlt, List.nil_append]

theorem digitsOf_lt (hb : 2 ≤ b) {d : ℕ} (h : d ∈ digitsOf b u) : d < b := by
  unfold digitsOf at h
  split at h
  next =>
    rw [List.mem_singleton] at h
    omega
  next => exact Nat.digits_lt_base hb h

theorem ofDigits_digitsOf : Nat.ofDigits b (digitsOf b u) = u := by
  unfold digitsOf
  split
  next hzero => rw [hzero, Nat.ofDigits_singleton]
  next => exact Nat.ofDigits_digits b u

theorem length_digitsOf_pos : 0 < (digitsOf b u).length := by
  unfold digitsOf
  split
  next => exact Nat.one_pos
  next hne => exact List.length_pos_iff.2 (Nat.digits_ne_nil_iff_ne_zero.2 hne)

theorem length_digitsOf_le (num : BitVec 32) (type : UInt32) (hb : 2 ≤ b) :
    (digitsOf b (magnitude num type)).length ≤ 32 := by
  unfold digitsOf
  split
  next => decide
  next =>
    have hlt : magnitude num type < b ^ 32 :=
      magnitude_lt.trans_le (Nat.pow_le_pow_left hb 32)
    exact (Nat.digits_length_le_iff hb _).2 hlt

/-! ## The flags -/

/-- Clearing `ZEROPAD` leaves the other flags. -/
theorem has_cleared (hf : ~~~ZEROPAD &&& f = f) :
    has (if has type LEFT then type &&& ~~~ZEROPAD else type) f = has type f := by
  split
  next => rw [has, UInt32.and_assoc, hf, has]
  next => rfl

theorem has_zeropad_cleared :
    has (if has type LEFT then type &&& ~~~ZEROPAD else type) ZEROPAD =
      (has type ZEROPAD && !has type LEFT) := by
  cases hleft : has type LEFT with
  | false => rw [if_neg Bool.false_ne_true, Bool.not_false, Bool.and_true]
  | true =>
      rw [if_pos rfl, has, UInt32.and_assoc, show ~~~ZEROPAD &&& ZEROPAD = 0 by decide,
        UInt32.and_zero, Bool.not_true, Bool.and_false]
      rfl

/-! ## The three loops that fill up -/

/-- What is left of `size` for the loops after the first one, and after the
second one. -/
def afterLeft (type : UInt32) (r : ℤ) : ℤ :=
  if has type ZEROPAD ∨ has type LEFT then r else toInt32 (min r 0 - 1)

def afterMid (type : UInt32) (r : ℤ) : ℤ :=
  if has type LEFT then afterLeft type r else toInt32 (min (afterLeft type r) 0 - 1)

/-- The numbers of characters that the loops write. -/
def leftFill (type : UInt32) (r : ℤ) : ℕ :=
  if has type ZEROPAD ∨ has type LEFT then 0 else r.toNat

def midFill (type : UInt32) (r : ℤ) : ℕ :=
  if has type LEFT then 0 else (afterLeft type r).toNat

def rightFill (type : UInt32) (r : ℤ) : ℕ := (afterMid type r).toNat

theorem toInt32_sub_left (x y : ℤ) : toInt32 (toInt32 x - y) = toInt32 (x - y) :=
  toInt32_add_left x (-y)

/-- What is left of `size` for the loops. -/
theorem size_eq (hl : -2 ^ 31 ≤ size) (hu : size < 2 ^ 31) (sign : Option UInt8) (n : ℤ) :
    toInt32 ((if has type SPECIAL then
        if base = 16 then toInt32 ((if sign.isSome then toInt32 (size - 1) else size) - 2)
        else if base = 8 then toInt32 ((if sign.isSome then toInt32 (size - 1) else size) - 1)
        else if sign.isSome then toInt32 (size - 1) else size
      else if sign.isSome then toInt32 (size - 1) else size) - n) =
      toInt32 (size - (sign.toList.length + (prefixOf base type).length + n)) := by
  have hsign : (if sign.isSome then toInt32 (size - 1) else size) =
      toInt32 (size - sign.toList.length) := by
    cases sign with
    | none => exact (toInt32_of_range (by simpa using hl) (by simpa using hu)).symm.trans (by simp)
    | some c => rfl
  have hspecial : (if has type SPECIAL then
        if base = 16 then toInt32 ((if sign.isSome then toInt32 (size - 1) else size) - 2)
        else if base = 8 then toInt32 ((if sign.isSome then toInt32 (size - 1) else size) - 1)
        else if sign.isSome then toInt32 (size - 1) else size
      else if sign.isSome then toInt32 (size - 1) else size) =
      toInt32 (size - sign.toList.length - (prefixOf base type).length) := by
    rw [hsign]
    unfold prefixOf
    split
    next =>
      split
      next h16 =>
        rw [if_neg (by omega), toInt32_sub_left]
        rfl
      next h16 =>
        split
        next => exact toInt32_sub_left _ _
        next => exact congrArg toInt32 (Int.sub_zero _).symm
    next => exact congrArg toInt32 (Int.sub_zero _).symm
  rw [hspecial, toInt32_sub_left, Int.sub_sub, Int.sub_sub, Int.add_assoc]

theorem signOf_cleared :
    signOf num (if has type LEFT then type &&& ~~~ZEROPAD else type) = signOf num type := by
  unfold signOf
  rw [has_cleared (by decide), has_cleared (by decide), has_cleared (by decide)]

theorem unsignedOf_cleared :
    unsignedOf num (if has type LEFT then type &&& ~~~ZEROPAD else type) = unsignedOf num type := by
  unfold unsignedOf
  rw [has_cleared (by decide)]

theorem prefixOf_cleared :
    prefixOf base (if has type LEFT then type &&& ~~~ZEROPAD else type) = prefixOf base type := by
  unfold prefixOf
  rw [has_cleared (by decide), has_cleared (by decide)]

theorem pad_toInt32 (c : UInt8) (x : ℤ) (str : List UInt8) : pad c (toInt32 x) str =
    (str ++ List.replicate (toInt32 x).toNat c, toInt32 (min (toInt32 x) 0 - 1)) :=
  pad_eq (toInt32_lower x) (toInt32_upper x) c str

/-- The text that `number` writes, for any width. -/
theorem number_eq (hb : 2 ≤ base) (hb' : base ≤ 36) (hl : -2 ^ 31 ≤ size) (hu : size < 2 ^ 31) :
    number num base size precision type = some (
      List.replicate (leftFill type (toInt32 (size - textLength num base precision type)))
        (ascii ' ') ++ (signOf num type).toList ++ prefixOf base type ++
      List.replicate (midFill type (toInt32 (size - textLength num base precision type)))
        (if has type ZEROPAD && !has type LEFT then ascii '0' else ascii ' ') ++
      List.replicate (precision.toNat - (digitsOf base.toNat (magnitude num type)).length)
        (ascii '0') ++
      ((digitsOf base.toNat (magnitude num type)).map (digit (has type SMALL))).reverse ++
      List.replicate (rightFill type (toInt32 (size - textLength num base precision type)))
        (ascii ' ')) := by
  have hprecision : (if precision < ((digitsOf base.toNat (magnitude num type)).length : ℤ) then
      ((digitsOf base.toNat (magnitude num type)).length : ℤ) else precision) =
      max precision (digitsOf base.toNat (magnitude num type)).length := by
    split <;> omega
  unfold number
  dsimp only
  rw [signOf_cleared, unsignedOf_cleared, prefixOf_cleared, has_zeropad_cleared,
    has_cleared (by decide), has_cleared (by decide), has_cleared (by decide), if_neg (by omega),
    tmp_eq (by omega), List.length_map, size_eq hl hu, hprecision]
  rw [show ((signOf num type).toList.length : ℤ) + (prefixOf base type).length +
    max precision (digitsOf base.toNat (magnitude num type)).length =
      textLength num base precision type from rfl]
  have hzeros : (max precision (digitsOf base.toNat (magnitude num type)).length).toNat -
      (digitsOf base.toNat (magnitude num type)).length =
      precision.toNat - (digitsOf base.toNat (magnitude num type)).length := by
    omega
  simp only [zeroLoop_eq rfl, hzeros]
  unfold leftFill midFill rightFill afterMid afterLeft
  cases has type LEFT with
  | true => simp [pad_toInt32]
  | false =>
      cases has type ZEROPAD with
      | true => simp [pad_toInt32]
      | false => simp [pad_toInt32]

/-- The loops fill up to the width, unless the count of what is left passes the
smallest `int` before the last of them. -/
theorem fill_iff (type : UInt32) {x : ℤ} (hl : -2 ^ 32 < x) (hu : x < 2 ^ 31) :
    leftFill type (toInt32 x) + midFill type (toInt32 x) + rightFill type (toInt32 x) = x.toNat ↔
      -2 ^ 31 ≤ x - fillLoops type := by
  unfold leftFill midFill rightFill afterMid afterLeft fillLoops toInt32
  cases has type LEFT with
  | true =>
      simp only [or_true, if_true]
      omega
  | false =>
      cases has type ZEROPAD with
      | true =>
          simp only [true_or, Bool.false_eq_true, if_true, if_false]
          omega
      | false =>
          simp only [or_self, Bool.false_eq_true, if_false]
          omega

/-- When the loops fill up to the width, the second one writes zeros or
nothing. -/
theorem midFill_eq_zero {x : ℤ} (hl : -2 ^ 32 < x) (hu : x < 2 ^ 31)
    (h : -2 ^ 31 ≤ x - fillLoops type) (hzero : (has type ZEROPAD && !has type LEFT) = false) :
    midFill type (toInt32 x) = 0 := by
  unfold fillLoops at h
  unfold midFill afterLeft toInt32
  cases hleft : has type LEFT with
  | true => rw [if_pos rfl]
  | false =>
      have hzeropad : has type ZEROPAD = false := by
        rwa [hleft, Bool.not_false, Bool.and_true] at hzero
      simp only [hleft, hzeropad, or_self, Bool.false_eq_true, if_false] at h ⊢
      omega

theorem minus_iff : signOf num type = some (ascii '-') ↔ has type SIGN ∧ num.toInt < 0 := by
  unfold signOf
  split
  next h => exact iff_of_true rfl h
  next h =>
    refine iff_of_false (fun heq => ?_) h
    split at heq
    next => exact absurd heq (by decide)
    next =>
      split at heq
      next => exact absurd heq (by decide)
      next => cases heq

theorem length_text (p : Parts) (small : Bool) : (p.text small).length =
    p.left + p.sign.toList.length + p.special.length + p.zeros + p.digits.length + p.right := by
  unfold Parts.text
  simp only [List.length_append, List.length_replicate, List.length_map]

/-- The length of what `number` writes. -/
theorem length_number (hb : 2 ≤ base) (hb' : base ≤ 36) (hl : -2 ^ 31 ≤ size) (hu : size < 2 ^ 31)
    {out : List UInt8} (h : number num base size precision type = some out) :
    (out.length : ℤ) = textLength num base precision type +
      (leftFill type (toInt32 (size - textLength num base precision type)) +
        midFill type (toInt32 (size - textLength num base precision type)) +
        rightFill type (toInt32 (size - textLength num base precision type)) : ℕ) := by
  rw [number_eq hb hb' hl hu, Option.some_inj] at h
  rw [← h]
  simp only [List.length_append, List.length_replicate, List.length_reverse, List.length_map]
  generalize leftFill type _ = a
  generalize midFill type _ = b
  generalize rightFill type _ = c
  unfold textLength
  omega

theorem textLength_range (num : BitVec 32) (type : UInt32) (hb : 2 ≤ base)
    (hprecision : precision < 2 ^ 30) :
    0 ≤ textLength num base precision type ∧ textLength num base precision type < 2 ^ 30 + 3 := by
  have hlength := length_digitsOf_le num type (show 2 ≤ base.toNat by omega)
  have hsign : (signOf num type).toList.length ≤ 1 := by
    cases signOf num type with
    | none => exact Nat.zero_le 1
    | some c => exact le_rfl
  have hprefix : (prefixOf base type).length ≤ 2 := by
    unfold prefixOf
    split
    next =>
      split
      next => exact Nat.le_succ 1
      next =>
        split
        next => exact le_rfl
        next => exact Nat.zero_le 2
    next => exact Nat.zero_le 2
  unfold textLength
  omega

/-- A text of the right length shows that the loops filled up to the width. -/
theorem Formatted.fills (h : Formatted num base size precision type) (hb : 2 ≤ base)
    (hb' : base ≤ 36) (hl : -2 ^ 31 ≤ size) (hu : size < 2 ^ 30) (hprecision : precision < 2 ^ 30) :
    -2 ^ 31 ≤ size - textLength num base precision type - fillLoops type := by
  obtain ⟨p, hnumber, hshows⟩ := h
  obtain ⟨hnonneg, hlt⟩ := textLength_range num type hb hprecision
  have hlength := hshows.length
  rw [length_number hb hb' hl (by omega) hnumber] at hlength
  exact (fill_iff type (by omega) (by omega)).1 (by omega)

/-- The text of a number has the length it should have, unless `size` passes the
smallest `int`. -/
theorem number_formatted_iff (hb : 2 ≤ base) (hb' : base ≤ 36) (hl : -2 ^ 31 ≤ size)
    (hu : size < 2 ^ 30) (hprecision : precision < 2 ^ 30) :
    Formatted num base size precision type ↔
      -2 ^ 31 ≤ size - textLength num base precision type - fillLoops type := by
  constructor
  · exact fun h => h.fills hb hb' hl hu hprecision
  · intro h
    obtain ⟨hnonneg, hlt⟩ := textLength_range num type hb hprecision
    have hl' : -2 ^ 32 < size - textLength num base precision type := by omega
    have hu' : size - textLength num base precision type < 2 ^ 31 := by omega
    have hsum := (fill_iff type hl' hu').2 h
    refine ⟨{
      left := leftFill type (toInt32 (size - textLength num base precision type))
      sign := signOf num type
      special := prefixOf base type
      zeros := midFill type (toInt32 (size - textLength num base precision type))
      digits := List.replicate
        (precision.toNat - (digitsOf base.toNat (magnitude num type)).length) 0 ++
        (digitsOf base.toNat (magnitude num type)).reverse
      right := rightFill type (toInt32 (size - textLength num base precision type)) },
      ?_, rfl, minus_iff, rfl, ?_, ?_, ?_, ?_⟩
    · have hmid : List.replicate
          (midFill type (toInt32 (size - textLength num base precision type)))
          (if has type ZEROPAD && !has type LEFT then ascii '0' else ascii ' ') =
          List.replicate (midFill type (toInt32 (size - textLength num base precision type)))
            (ascii '0') := by
        cases hzero : has type ZEROPAD && !has type LEFT with
        | true => rfl
        | false => rw [midFill_eq_zero hl' hu' h hzero, List.replicate_zero, List.replicate_zero]
      rw [number_eq hb hb' hl (by omega), hmid, Parts.text, List.map_append, List.map_replicate,
        List.map_reverse, ← List.append_assoc _ (List.replicate _ (digit _ 0))]
      rfl
    · intro d hd
      rcases List.mem_append.1 hd with hzero | hdigit
      · rw [List.eq_of_mem_replicate hzero]
        omega
      · exact digitsOf_lt (by omega) (List.mem_reverse.1 hdigit)
    · rw [List.reverse_append, List.reverse_reverse, List.reverse_replicate, Nat.ofDigits_append,
        ofDigits_digitsOf, Nat.ofDigits_replicate_zero, Nat.mul_zero, Nat.add_zero]
    · rw [List.length_append, List.length_replicate, List.length_reverse]
      omega
    · have htext : textLength num base precision type =
          (signOf num type).toList.length + (prefixOf base type).length +
            max precision (digitsOf base.toNat (magnitude num type)).length := rfl
      rw [length_text, List.length_append, List.length_replicate, List.length_reverse]
      dsimp only
      omega

/-- A signed number of five digits in a field of eight characters. -/
theorem number_formatted_iff_five :
    Formatted (BitVec.ofInt 32 (-12345)) 10 8 0 SIGN ↔
      -2 ^ 31 ≤ 8 - textLength (BitVec.ofInt 32 (-12345)) 10 0 SIGN - fillLoops SIGN :=
  number_formatted_iff (by decide) (by decide) (by decide) (by decide) (by decide)

/-- A zero without flags in a field of the smallest width: the loops fill up. -/
theorem number_not_formatted : ¬Formatted 0 10 (-2 ^ 31) 0 0 := fun h =>
  absurd (h.fills (by decide) (by decide) (by decide) (by decide) (by decide)) (by decide)

end

end MyJavaExample.Kernel
