import Mathlib.Algebra.Ring.Nat
import Mathlib.Data.List.Basic

/-!
# Strings as UTF-16 code units

`String.length` and `String.substring` of Java count UTF-16 code units.  A
character outside the basic plane has two of them, and `substring` may cut
between the two.  Half of a pair is not a character here: it becomes U+FFFD,
which is one code unit as well, so that no length changes
(`utf16_decodeUtf16_length`).
-/

namespace MyJavaExample.Java

/-- The code units of a character. -/
def charUnits (c : Char) : List ℕ :=
  if c.toNat < 2 ^ 16 then [c.toNat]
  else [0xD800 + (c.toNat - 2 ^ 16) / 2 ^ 10, 0xDC00 + (c.toNat - 2 ^ 16) % 2 ^ 10]

def utf16 (cs : List Char) : List ℕ := cs.flatMap charUnits

/-- The character of a code unit on its own. -/
def unitChar (u : ℕ) : Char :=
  if u < 2 ^ 16 ∧ u.isValidChar then Char.ofNat u else Char.ofNat 0xFFFD

/-- Two code units that are one character. -/
def IsPair (u v : ℕ) : Prop := 0xD800 ≤ u ∧ u < 0xDC00 ∧ 0xDC00 ≤ v ∧ v < 0xE000

instance (u v : ℕ) : Decidable (IsPair u v) := inferInstanceAs (Decidable (_ ∧ _))

def pairChar (u v : ℕ) : Char := Char.ofNat (2 ^ 16 + (u - 0xD800) * 2 ^ 10 + (v - 0xDC00))

def decodeUtf16 : List ℕ → List Char
  | [] => []
  | [u] => [unitChar u]
  | u :: v :: us =>
      if IsPair u v then pairChar u v :: decodeUtf16 us
      else unitChar u :: decodeUtf16 (v :: us)

/-- `String.substring`, of the characters of a string. -/
def substring (cs : List Char) (beginIndex endIndex : ℕ) : List Char :=
  decodeUtf16 (((utf16 cs).take endIndex).drop beginIndex)

theorem charUnits_length_pos (c : Char) : 0 < (charUnits c).length := by
  unfold charUnits
  split <;> simp

theorem charUnits_of_lt {c : Char} (h : c.toNat < 2 ^ 16) : charUnits c = [c.toNat] := if_pos h

theorem utf16_append (cs ds : List Char) : utf16 (cs ++ ds) = utf16 cs ++ utf16 ds :=
  List.flatMap_append

theorem toNat_ofNat {n : ℕ} (h : n.isValidChar) : (Char.ofNat n).toNat = n := by
  rw [Char.ofNat, dif_pos h]
  exact UInt32.toNat_ofNatLT

theorem unitChar_units (u : ℕ) : (charUnits (unitChar u)).length = 1 := by
  have hlt : (unitChar u).toNat < 2 ^ 16 := by
    unfold unitChar
    split
    next h => rw [toNat_ofNat h.2]; exact h.1
    next => decide
  rw [charUnits_of_lt hlt]
  rfl

theorem pairChar_units {u v : ℕ} (h : IsPair u v) : (charUnits (pairChar u v)).length = 2 := by
  obtain ⟨h₁, h₂, h₃, h₄⟩ := h
  have hvalid : (2 ^ 16 + (u - 0xD800) * 2 ^ 10 + (v - 0xDC00)).isValidChar :=
    .inr ⟨by omega, by omega⟩
  rw [charUnits, pairChar, toNat_ofNat hvalid, if_neg (by omega)]
  rfl

/-- Decoding keeps the number of code units. -/
theorem utf16_decodeUtf16_length (us : List ℕ) : (utf16 (decodeUtf16 us)).length = us.length := by
  induction us using decodeUtf16.induct with
  | case1 => rfl
  | case2 u => simp [decodeUtf16, utf16, unitChar_units]
  | case3 u v us hpair ih =>
      rw [decodeUtf16, if_pos hpair, utf16, List.flatMap_cons, List.length_append,
        pairChar_units hpair, ← utf16, ih]
      simp only [List.length_cons]
      omega
  | case4 u v us hpair ih =>
      rw [decodeUtf16, if_neg hpair, utf16, List.flatMap_cons, List.length_append, unitChar_units,
        ← utf16, ih]
      simp only [List.length_cons]
      omega

theorem substring_length (cs : List Char) (beginIndex endIndex : ℕ) :
    (utf16 (substring cs beginIndex endIndex)).length =
      min endIndex (utf16 cs).length - beginIndex := by
  rw [substring, utf16_decodeUtf16_length, List.length_drop, List.length_take]

end MyJavaExample.Java
