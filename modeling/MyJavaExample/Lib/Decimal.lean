import Mathlib.Data.Nat.Digits.Lemmas

/-!
# Decimal numerals

The text that `printf` writes for `%d`, and the number that `scanf` reads for
it.  A numeral is read back whatever stands behind it, as long as that is no
digit.
-/

namespace MyJavaExample.Lib

/-- The ASCII digit. -/
def digitByte (d : ℕ) : UInt8 := UInt8.ofNat (48 + d)

def isDigitByte (c : UInt8) : Bool := 48 ≤ c && c ≤ 57

def isSpaceByte (c : UInt8) : Bool := c == 32 || 9 ≤ c && c ≤ 13

def natText (n : ℕ) : List UInt8 :=
  if n = 0 then [digitByte 0] else ((Nat.digits 10 n).map digitByte).reverse

/-- The text for `%d`; 45 is the minus sign. -/
def intText (n : ℤ) : List UInt8 := if n < 0 then 45 :: natText n.natAbs else natText n.natAbs

/-- Read digits behind the ones with value `v`. -/
def scanDigits : List UInt8 → ℕ → ℕ
  | [], v => v
  | c :: text, v => if isDigitByte c then scanDigits text (10 * v + (c.toNat - 48)) else v

/-- The digits that a text must begin with. -/
def scanNat : List UInt8 → Option ℕ
  | [] => none
  | c :: text => if isDigitByte c then some (scanDigits (c :: text) 0) else none

/-- The number read for `%d`, behind white space; 43 is the plus sign. -/
def scanInt (text : List UInt8) : Option ℤ :=
  match text.dropWhile isSpaceByte with
  | [] => none
  | c :: text =>
      if c = 45 then (scanNat text).map fun v : ℕ => -(v : ℤ)
      else if c = 43 then (scanNat text).map fun v : ℕ => (v : ℤ)
      else (scanNat (c :: text)).map fun v : ℕ => (v : ℤ)

variable {d n k : ℕ} {c : UInt8} {rest : List UInt8}

theorem toNat_digitByte (h : d < 10) : (digitByte d).toNat = 48 + d :=
  UInt8.toNat_ofNat_of_lt (Nat.lt_of_le_of_lt (by omega : 48 + d ≤ 57) (by decide))

theorem isDigitByte_iff : isDigitByte c = true ↔ 48 ≤ c.toNat ∧ c.toNat ≤ 57 := by
  unfold isDigitByte
  rw [Bool.and_eq_true, decide_eq_true_iff, decide_eq_true_iff]
  rfl

theorem isSpaceByte_iff :
    isSpaceByte c = true ↔ c.toNat = 32 ∨ 9 ≤ c.toNat ∧ c.toNat ≤ 13 := by
  unfold isSpaceByte
  rw [Bool.or_eq_true, Bool.and_eq_true, beq_iff_eq, decide_eq_true_iff, decide_eq_true_iff,
    ← UInt8.toNat_inj]
  rfl

theorem isDigitByte_only (h : isDigitByte c = true) :
    isSpaceByte c = false ∧ c ≠ 45 ∧ c ≠ 43 := by
  obtain ⟨hl, hu⟩ := isDigitByte_iff.1 h
  refine ⟨Bool.eq_false_iff.2 fun hspace => ?_, ?_, ?_⟩
  · have hrange := isSpaceByte_iff.1 hspace
    omega
  · rintro rfl
    exact absurd hl (by decide)
  · rintro rfl
    exact absurd hl (by decide)

theorem isDigitByte_digitByte (h : d < 10) : isDigitByte (digitByte d) = true := by
  rw [isDigitByte_iff, toNat_digitByte h]
  omega

/-! ## Numerals -/

theorem isDigitByte_natText (h : c ∈ natText n) : isDigitByte c = true := by
  unfold natText at h
  split at h
  next =>
    rw [List.mem_singleton.1 h]
    exact isDigitByte_digitByte (by decide)
  next =>
    obtain ⟨d, hd, rfl⟩ := List.mem_map.1 (List.mem_reverse.1 h)
    exact isDigitByte_digitByte (Nat.digits_lt_base (by decide) hd)

theorem natText_ne_nil (n : ℕ) : natText n ≠ [] := by
  unfold natText
  split
  next => exact List.cons_ne_nil _ _
  next hne =>
    rw [Ne, List.reverse_eq_nil_iff, List.map_eq_nil_iff]
    exact Nat.digits_ne_nil_iff_ne_zero.2 hne

theorem length_natText_le (h : n < 10 ^ k) (hk : 0 < k) : (natText n).length ≤ k := by
  unfold natText
  split
  next => exact hk
  next =>
    rw [List.length_reverse, List.length_map]
    exact (Nat.digits_length_le_iff (by decide) n).2 h

/-- The characters of a numeral. -/
theorem intText_range {n : ℤ} (h : c ∈ intText n) : 45 ≤ c.toNat ∧ c.toNat ≤ 57 := by
  have hdigit (h : c ∈ natText n.natAbs) : 45 ≤ c.toNat ∧ c.toNat ≤ 57 := by
    have hrange := isDigitByte_iff.1 (isDigitByte_natText h)
    omega
  unfold intText at h
  split at h
  next =>
    rcases List.mem_cons.1 h with rfl | h
    · decide
    · exact hdigit h
  next => exact hdigit h

/-! ## Reading a numeral -/

/-- No digit comes first. -/
def NoDigit (text : List UInt8) : Prop := ∀ c ∈ text.head?, isDigitByte c = false

theorem scanDigits_stop (h : NoDigit rest) (v : ℕ) : scanDigits rest v = v := by
  cases rest with
  | nil => rfl
  | cons c text => exact if_neg (Bool.eq_false_iff.1 (h c rfl))

/-- Digits one after the other. -/
theorem scanDigits_append (text : List UInt8) (h : ∀ c ∈ text, isDigitByte c = true) (v : ℕ) :
    scanDigits (text ++ rest) v =
      scanDigits rest (text.foldl (fun v c => 10 * v + (c.toNat - 48)) v) := by
  induction text generalizing v with
  | nil => rfl
  | cons c text ih =>
      rw [List.cons_append, scanDigits, if_pos (h c List.mem_cons_self)]
      exact ih (fun c hc => h c (List.mem_cons_of_mem _ hc)) _

theorem foldr_digitByte (ds : List ℕ) (hds : ∀ d ∈ ds, d < 10) :
    (ds.map digitByte).foldr (fun c v => 10 * v + (c.toNat - 48)) 0 = Nat.ofDigits 10 ds := by
  induction ds with
  | nil => rfl
  | cons d ds ih =>
      rw [List.map_cons, List.foldr_cons, ih fun d hd => hds d (List.mem_cons_of_mem _ hd),
        toNat_digitByte (hds d List.mem_cons_self), Nat.ofDigits_cons]
      omega

theorem scanDigits_natText (h : NoDigit rest) (n : ℕ) : scanDigits (natText n ++ rest) 0 = n := by
  rw [scanDigits_append (natText n) (fun c hc => isDigitByte_natText hc), scanDigits_stop h]
  unfold natText
  split
  next hzero => rw [hzero]; rfl
  next =>
    rw [List.foldl_reverse, foldr_digitByte _ fun d hd => Nat.digits_lt_base (by decide) hd,
      Nat.ofDigits_digits]

theorem scanNat_natText (h : NoDigit rest) (n : ℕ) : scanNat (natText n ++ rest) = some n := by
  have hscan := scanDigits_natText h n
  cases htext : natText n with
  | nil => exact absurd htext (natText_ne_nil n)
  | cons c text =>
      have hdigit : isDigitByte c = true := isDigitByte_natText (n := n) (htext ▸ List.mem_cons_self)
      rw [htext] at hscan
      rw [List.cons_append, scanNat, if_pos hdigit]
      exact congrArg some hscan

/-- A numeral is read back. -/
theorem scanInt_intText (h : NoDigit rest) (n : ℤ) : scanInt (intText n ++ rest) = some n := by
  unfold intText
  split
  next hneg =>
    have hscan : scanInt (45 :: natText n.natAbs ++ rest) =
        (scanNat (natText n.natAbs ++ rest)).map fun v : ℕ => -(v : ℤ) := rfl
    rw [hscan, scanNat_natText h, Option.map_some]
    congr 1
    omega
  next hnonneg =>
    have hscan := scanNat_natText h n.natAbs
    cases htext : natText n.natAbs with
    | nil => exact absurd htext (natText_ne_nil _)
    | cons c text =>
        obtain ⟨hspace, hminus, hplus⟩ :=
          isDigitByte_only (isDigitByte_natText (n := n.natAbs) (htext ▸ List.mem_cons_self))
        rw [htext, List.cons_append] at hscan
        unfold scanInt
        rw [List.cons_append, List.dropWhile_cons_of_neg (Bool.eq_false_iff.1 hspace)]
        dsimp only
        rw [if_neg hminus, if_neg hplus, hscan, Option.map_some]
        congr 1
        omega

end MyJavaExample.Lib
