import MyJavaExample.Automate.Moves
import MyJavaExample.Lib.EpsilonPath

/-!
# The transformations of automata

`nfaUnionNfa` joins two automata at the accepting state of the first and is
right: a path splits where it first gets to the common state.

`nfaOrNfa` and `nfaStar` are not.  The last empty moves of `nfaOrNfa` lead past
its last state, so nothing leads to its accepting state and its language is
empty.  `nfaStar` takes the state before the image of the accepting state for
that image, so its language is the closure of the words that lead to the state
before the accepting one.
-/

namespace MyJavaExample.Automate

open Java Lib Computability

open MyJavaExample.Automate.NFA

variable {n m n1 n2 : NFA} {q q' t t' : ℤ} {x : Str} {o : Option Str} {y : List (Option Str)}

/-! ## Steps and words -/

theorem not_special_EMPTY_INPUT : ¬Special EMPTY_INPUT := by decide

/-- The steps of a language are the moves that are not special. -/
theorem exists_move_of_step (h : t ∈ n.toεNFA.step q o) : ∃ x, ¬Special x ∧ n.Move q x t := by
  cases o with
  | none => exact ⟨EMPTY_INPUT, not_special_EMPTY_INPUT, h⟩
  | some x => exact ⟨x, h.1.1, h.2⟩

theorem step_of_step (h : ∀ x, ¬Special x → n.Move q x t → m.Move q' x t')
    (hstep : t ∈ n.toεNFA.step q o) : t' ∈ m.toεNFA.step q' o := by
  cases o with
  | none => exact h _ not_special_EMPTY_INPUT hstep
  | some x => exact ⟨hstep.1, h x hstep.1.1 hstep.2⟩

/-- The words that lead from the start to `t`. -/
def wordsTo (n : NFA) (t : ℤ) : Language Str :=
  { w | ∃ y, y.reduceOption = w ∧ n.toεNFA.IsPath 0 t y }

theorem language_eq (n : NFA) : n.language = wordsTo n (n.getStateCount - 2) := by
  ext w
  exact mem_accepts_iff rfl rfl

/-! ## The concatenation -/

/-- The state before the last one of `n1` is also the first one of `n2`. -/
theorem nfaUnionNfa_made (h1 : 2 ≤ n1.getStateCount) (h2 : 2 ≤ n2.getStateCount) :
    Made (nfaUnionNfa n1 n2) (n1.getStateCount - 2 + n2.getStateCount) (fun q x t =>
      q ≤ n1.getStateCount - 2 ∧ n1.Move q x t ∧ ¬(q = n1.getStateCount - 2 ∧ Special x) ∨
      n1.getStateCount - 2 ≤ q ∧
        n2.Move (q - (n1.getStateCount - 2)) x (t - (n1.getStateCount - 2))) := by
  rw [nfaUnionNfa, if_neg (ne_EMPTY_NFA h1), if_neg (ne_EMPTY_NFA h2)]
  dsimp only
  generalize hc1 : n1.getStateCount = c1 at *
  generalize hc2 : n2.getStateCount = c2 at *
  have hnew : (NFA.new (c1 - 1 + (c2 - 1))).getStateCount = c1 - 2 + c2 := by
    rw [getStateCount_new (by omega)]
    omega
  rw [← hnew]
  generalize hn₀ : NFA.new (c1 - 1 + (c2 - 1)) = n₀ at *
  refine (addNFA_made (by omega) (by omega) (by omega) (by omega) (by omega)).bind
    fun n hc hn => ?_
  rw [← hc] at hnew ⊢
  refine (removeAnyOther_made (by omega) (by omega)).bind fun n' hc' hn' => ?_
  rw [← hc'] at hnew ⊢
  refine (addNFA_made (by omega) (by omega) (by omega) (by omega) (by omega)).bind
    fun n'' hc'' hn'' => ?_
  rw [← hc''] at hnew ⊢
  obtain ⟨tab, htab⟩ := exists_getMoveTable (n := n2) (q := 0) (by omega) (by omega)
  rw [htab]
  refine (addMoveTable_made (by omega) (by omega) _).congr fun q x t => ?_
  rw [targets_updateMoveTable, ← move_iff htab, hn'', hn', hn, ← hn₀, iff_false_intro move_new,
    false_or]
  have hq : q - (c1 - 1) + 1 = q - (c1 - 2) := by omega
  have hinc : c1 - 1 - 1 = c1 - 2 := by omega
  rw [hq, hinc]
  simp only [sub_zero, add_zero, zero_add]
  have hrange1 : n1.Move q x t → 0 ≤ q := fun h => h.range.1
  have hrange2 : n2.Move (q - (c1 - 2)) x (t - (c1 - 2)) → q < c1 - 2 + c2 := by
    intro h
    have := h.range.2
    omega
  rcases lt_trichotomy q (c1 - 2) with hlt | rfl | hgt
  · have h₁ : ¬c1 - 1 ≤ q := by omega
    have h₂ : q ≠ c1 - 2 := by omega
    have h₃ : ¬c1 - 2 ≤ q := by omega
    have h₄ : q < c1 - 2 + 1 := by omega
    simp only [h₁, h₂, h₃, h₄, hlt.le, false_and, or_false, not_false_eq_true, and_true,
      true_and, and_iff_right_iff_imp]
    exact hrange1
  · have h₁ : ¬c1 - 1 ≤ c1 - 2 := by omega
    have h₂ : (0 : ℤ) ≤ c1 - 2 ∧ c1 - 2 < c1 - 2 + 1 := by omega
    simp only [h₁, h₂, sub_self, le_refl, false_and, or_false, true_and]
  · have h₁ : c1 - 1 ≤ q := by omega
    have h₂ : ¬q < c1 - 2 + 1 := by omega
    have h₃ : ¬q ≤ c1 - 2 := by omega
    have h₄ : q ≠ c1 - 2 := by omega
    have h₅ : c1 - 1 + (c2 - 1 - 1 + 1) = c1 - 2 + c2 := by omega
    rw [h₅]
    simp only [h₁, h₂, h₃, h₄, hgt.le, false_and, and_false, or_false, false_or, true_and,
      not_false_eq_true, and_iff_right_iff_imp]
    exact hrange2

section Concatenation

variable {a : ℤ}

/-- The moves of the concatenation, where `a` is the accepting state of `n1`
and the start of `n2`. -/
def Concatenated (n n1 n2 : NFA) (a : ℤ) : Prop :=
  ∀ q x t, n.Move q x t ↔ q ≤ a ∧ n1.Move q x t ∧ ¬(q = a ∧ Special x) ∨
    a ≤ q ∧ n2.Move (q - a) x (t - a)

theorem Concatenated.wellFormed (h : Concatenated n n1 n2 (n1.getStateCount - 2))
    (hc : n.getStateCount = n1.getStateCount - 2 + n2.getStateCount) (h1 : n1.WellFormed)
    (h2 : n2.WellFormed) : n.WellFormed := by
  have htwo1 := h1.two
  have htwo2 := h2.two
  rw [Concatenated] at h
  constructor
  · omega
  · intro q x t hmove
    rcases (h q x t).1 hmove with ⟨-, hmove, -⟩ | ⟨-, hmove⟩
    · have := h1.target q x t hmove
      omega
    · have := h2.target _ _ _ hmove
      omega
  · intro q x t hmove hx
    rcases (h q x t).1 hmove with ⟨-, hmove, hnot⟩ | ⟨-, hmove⟩
    · exact absurd ⟨(h1.special q x t hmove hx).1, hx⟩ hnot
    · have := h2.special _ _ _ hmove hx
      omega
  · intro x t hmove
    rcases (h _ x t).1 hmove with ⟨hle, -, -⟩ | ⟨-, hmove⟩
    · omega
    · refine h2.leave x (t - (n1.getStateCount - 2)) ?_
      have hq : n.getStateCount - 1 - (n1.getStateCount - 2) = n2.getStateCount - 1 := by omega
      rwa [hq] at hmove
  · intro q x hmove
    rcases (h q x _).1 hmove with ⟨-, hmove, -⟩ | ⟨-, hmove⟩
    · have htarget := (h1.target q x _ hmove).2
      have ht : n.getStateCount - 1 = n1.getStateCount - 1 := by omega
      rw [ht] at hmove
      exact h1.enter q x hmove
    · have ht : n.getStateCount - 1 - (n1.getStateCount - 2) = n2.getStateCount - 1 := by omega
      rw [ht] at hmove
      exact h2.enter _ x hmove

variable (h : Concatenated n n1 n2 a) (hlast : ∀ x t, n1.Move a x t → Special x)
include h

/-- The paths of `n2` are in the upper part. -/
theorem Concatenated.path_upper (hpath : n2.toεNFA.IsPath q t y) :
    n.toεNFA.IsPath (q + a) (t + a) y := by
  refine isPath_map (P := fun _ => True) (f := (· + a)) (fun _ _ _ _ _ => trivial)
    (fun q o t _ hstep => ?_) hpath trivial
  refine step_of_step (fun x _ hmove => (h _ x _).2 (Or.inr ⟨?_, ?_⟩)) hstep
  · have := hmove.range
    omega
  · rwa [add_sub_cancel_right, add_sub_cancel_right]

/-- The paths of `n1` to `a` are in the lower part. -/
theorem Concatenated.path_lower (ha : a = n1.getStateCount - 2) (h1 : n1.WellFormed)
    (hpath : n1.toεNFA.IsPath q t y) : n.toεNFA.IsPath q t y := by
  refine isPath_map (P := fun _ => True) (f := id) (fun _ _ _ _ _ => trivial)
    (fun q o t _ hstep => ?_) hpath trivial
  refine step_of_step (fun x hx hmove => (h q x t).2 (Or.inl ⟨?_, hmove, fun hq => hx hq.2⟩)) hstep
  have hne : q ≠ n1.getStateCount - 1 := by
    rintro rfl
    exact hx (h1.leave x t hmove)
  have := hmove.range
  omega

include hlast

/-- The upper part is never left. -/
theorem Concatenated.path_of_upper (h2 : n2.WellFormed) (hpath : n.toεNFA.IsPath q t y)
    (hq : a ≤ q) : n2.toεNFA.IsPath (q - a) (t - a) y := by
  have hmove : ∀ q x t, a ≤ q → ¬Special x → n.Move q x t → n2.Move (q - a) x (t - a) := by
    intro q x t hq hx hmove
    rcases (h q x t).1 hmove with ⟨hle, hmove, -⟩ | ⟨-, hmove⟩
    · obtain rfl : q = a := le_antisymm hle hq
      exact absurd (hlast x t hmove) hx
    · exact hmove
  refine isPath_map (P := fun q => a ≤ q) (f := (· - a)) (fun q o t hq hstep => ?_)
    (fun q o t hq hstep => step_of_step (fun x hx => hmove q x t hq hx) hstep) hpath hq
  obtain ⟨x, hx, hm⟩ := exists_move_of_step hstep
  have := h2.target _ _ _ (hmove q x t hq hx hm)
  omega

/-- A path from the lower part to the upper part goes through `a`. -/
theorem Concatenated.path_split (ha : a = n1.getStateCount - 2) (h1 : n1.WellFormed)
    (h2 : n2.WellFormed) (hpath : n.toεNFA.IsPath q t y) (hq : q ≤ a) (ht : a ≤ t) :
    ∃ y₁ y₂, y = y₁ ++ y₂ ∧ n1.toεNFA.IsPath q a y₁ ∧ n2.toεNFA.IsPath 0 (t - a) y₂ := by
  induction hpath with
  | nil q =>
      obtain rfl : q = a := le_antisymm hq ht
      exact ⟨[], [], rfl, .nil _, by rw [sub_self]; exact .nil _⟩
  | cons r q t o y hstep hrest ih =>
      rcases hq.lt_or_eq with hlt | rfl
      · have hmove : ∀ x, ¬Special x → n.Move q x r → n1.Move q x r := by
          intro x _ hmove
          rcases (h q x r).1 hmove with ⟨-, hmove, -⟩ | ⟨hle, -⟩
          · exact hmove
          · omega
        have hr : r ≤ a := by
          obtain ⟨x, hx, hm⟩ := exists_move_of_step hstep
          have htarget := (h1.target q x r (hmove x hx hm)).2
          have hne : r ≠ n1.getStateCount - 1 := by
            rintro rfl
            exact hx (h1.enter q x (hmove x hx hm))
          omega
        obtain ⟨y₁, y₂, rfl, hp₁, hp₂⟩ := ih hr ht
        exact ⟨o :: y₁, y₂, rfl, .cons _ _ _ _ _ (step_of_step hmove hstep) hp₁, hp₂⟩
      · have hp := h.path_of_upper hlast h2 (.cons _ _ _ _ _ hstep hrest) le_rfl
        rw [sub_self] at hp
        exact ⟨[], o :: y, rfl, .nil _, hp⟩

end Concatenation

theorem nfaUnionNfa_language (h1 : n1.WellFormed) (h2 : n2.WellFormed)
    (hlast : ∀ x t, n1.Move (n1.getStateCount - 2) x t → Special x) :
    ∃ n, nfaUnionNfa n1 n2 = .ok n ∧ n.WellFormed ∧ n.language = n1.language * n2.language := by
  obtain ⟨n, hok, hc, hmove⟩ := nfaUnionNfa_made h1.two h2.two
  have hn : Concatenated n n1 n2 (n1.getStateCount - 2) := hmove
  have htwo := h1.two
  have htwo2 := h2.two
  refine ⟨n, hok, hn.wellFormed hc h1 h2, ?_⟩
  have haccept : n.getStateCount - 2 = n2.getStateCount - 2 + (n1.getStateCount - 2) := by omega
  rw [language_eq, language_eq, language_eq, haccept]
  ext w
  rw [Language.mem_mul]
  constructor
  · rintro ⟨y, rfl, hpath⟩
    obtain ⟨y₁, y₂, rfl, hp₁, hp₂⟩ := hn.path_split hlast rfl h1 h2 hpath (by omega) (by omega)
    rw [add_sub_cancel_right] at hp₂
    exact ⟨_, ⟨y₁, rfl, hp₁⟩, _, ⟨y₂, rfl, hp₂⟩, (List.reduceOption_append ..).symm⟩
  · rintro ⟨_, ⟨y₁, rfl, hp₁⟩, _, ⟨y₂, rfl, hp₂⟩, rfl⟩
    refine ⟨y₁ ++ y₂, List.reduceOption_append .., (n.toεNFA.isPath_append).2 ⟨n1.getStateCount - 2, ?_, ?_⟩⟩
    · exact hn.path_lower rfl h1 hp₁
    · have hp := hn.path_upper hp₂
      rwa [zero_add] at hp

/-! ## One character -/

theorem buildChar_made (ch : Char) :
    Made (buildChar ch) 3
      (fun q x t => q = 0 ∧ x = [ch] ∧ t = 1 ∨ q = 1 ∧ x = ANY_INPUT ∧ t = 2) := by
  have hnew : (NFA.new 3).getStateCount = 3 := rfl
  rw [← hnew]
  refine (addMoveTableEntry_made (by decide) (by decide) _ _).bind fun n hc hn => ?_
  rw [← hc] at hnew ⊢
  refine (addMoveTableEntry_made (by decide) (by omega) _ _).congr fun q x t => ?_
  rw [hn, iff_false_intro move_new, false_or]

/-- The automaton of a character is as `build` sets it up, and nothing but the
end follows the character. -/
theorem buildChar_wellFormed {ch : Char} (hch : ¬Special [ch]) :
    ∃ n, buildChar ch = .ok n ∧ n.WellFormed ∧
      ∀ x t, n.Move (n.getStateCount - 2) x t → Special x := by
  obtain ⟨n, hok, hc, hn⟩ := buildChar_made ch
  refine ⟨n, hok, ⟨?_, fun q x t h => ?_, fun q x t h hx => ?_, fun x t h => ?_, fun q x h => ?_⟩,
    fun x t h => ?_⟩
  · omega
  · rcases (hn q x t).1 h with ⟨rfl, rfl, rfl⟩ | ⟨rfl, rfl, rfl⟩ <;> omega
  · rcases (hn q x t).1 h with ⟨rfl, rfl, rfl⟩ | ⟨rfl, rfl, rfl⟩
    · exact absurd hx hch
    · omega
  · rcases (hn _ x t).1 h with ⟨hq, rfl, rfl⟩ | ⟨-, rfl, rfl⟩
    · omega
    · exact Or.inl rfl
  · rcases (hn q x _).1 h with ⟨rfl, rfl, ht⟩ | ⟨rfl, rfl, -⟩
    · omega
    · exact Or.inl rfl
  · rcases (hn _ x t).1 h with ⟨hq, rfl, rfl⟩ | ⟨-, rfl, rfl⟩
    · omega
    · exact Or.inl rfl

/-! ## The union -/

/-- The two loops over the states of `n1` and `n2` are right.  The empty moves to
the accepting state of the result go past its last state, and the special moves
of `n2` stay. -/
theorem nfaOrNfa_made (h1 : 2 ≤ n1.getStateCount) (h2 : 2 ≤ n2.getStateCount) :
    Made (nfaOrNfa n1 n2) (n1.getStateCount + n2.getStateCount + 1) (fun q x t =>
      ((q = 0 ∧ x = EMPTY_INPUT ∧ (t = 1 ∨ t = n1.getStateCount) ∨
        1 ≤ q ∧ q < n1.getStateCount ∧ n1.Move (q - 1) x (t - 1)) ∧
          ¬(q = n1.getStateCount - 1 ∧ Special x) ∨
        n1.getStateCount ≤ q ∧ q < n1.getStateCount + n2.getStateCount - 1 ∧
          n2.Move (q - n1.getStateCount) x (t - n1.getStateCount)) ∧
          ¬(q = n1.getStateCount + n2.getStateCount - 3 ∧ Special x) ∨
      (q = n1.getStateCount - 1 ∨ q = n1.getStateCount + n2.getStateCount - 2) ∧
        x = EMPTY_INPUT ∧ t = n1.getStateCount + n2.getStateCount + 1 ∨
      q = n1.getStateCount + n2.getStateCount - 1 ∧ x = ANY_INPUT ∧
        t = n1.getStateCount + n2.getStateCount) := by
  rw [nfaOrNfa, if_neg (ne_EMPTY_NFA h1), if_neg (ne_EMPTY_NFA h2)]
  dsimp only
  generalize hc1 : n1.getStateCount = c1 at *
  generalize hc2 : n2.getStateCount = c2 at *
  have hnew : (NFA.new (1 + (c1 - 1) + (c2 - 1) + 1 + 1)).getStateCount = c1 + c2 + 1 := by
    rw [getStateCount_new (by omega)]
    omega
  rw [← hnew]
  generalize hn₀ : NFA.new (1 + (c1 - 1) + (c2 - 1) + 1 + 1) = n₀ at *
  refine (addMoveTableEntry_made (by omega) (by omega) _ _).bind fun n₁ hc hm₁ => ?_
  rw [← hc] at hnew ⊢
  refine (addMoveTableEntry_made (by omega) (by omega) _ _).bind fun n₂ hc hm₂ => ?_
  rw [← hc] at hnew ⊢
  refine (addNFA_made (by omega) (by omega) (by omega) (by omega) (by omega)).bind
    fun n₃ hc hm₃ => ?_
  rw [← hc] at hnew ⊢
  refine (removeAnyOther_made (by omega) (by omega)).bind fun n₄ hc hm₄ => ?_
  rw [← hc] at hnew ⊢
  refine (addNFA_made (by omega) (by omega) (by omega) (by omega) (by omega)).bind
    fun n₅ hc hm₅ => ?_
  rw [← hc] at hnew ⊢
  refine (removeAnyOther_made (by omega) (by omega)).bind fun n₆ hc hm₆ => ?_
  rw [← hc] at hnew ⊢
  refine (addMoveTableEntry_made (by omega) (by omega) _ _).bind fun n₇ hc hm₇ => ?_
  rw [← hc] at hnew ⊢
  refine (addMoveTableEntry_made (by omega) (by omega) _ _).bind fun n₈ hc hm₈ => ?_
  rw [← hc] at hnew ⊢
  refine (addMoveTableEntry_made (by omega) (by omega) _ _).congr fun q x t => ?_
  rw [hm₈, hm₇, hm₆, hm₅, hm₄, hm₃, hm₂, hm₁, ← hn₀, iff_false_intro move_new, false_or, hnew]
  have e₁ : 1 + (c1 - 1) = c1 := by omega
  have e₂ : 1 + (c1 - 2 - 0 + 1) = c1 := by omega
  have e₃ : c1 + (c2 - 2 - 0 + 1) = c1 + c2 - 1 := by omega
  have e₄ : c1 - 1 + c2 - 2 = c1 + c2 - 3 := by omega
  have e₅ : 1 + (c1 - 2) = c1 - 1 := by omega
  have e₆ : c1 + (c2 - 2) = c1 + c2 - 2 := by omega
  have e₇ : c1 + (c2 - 1) = c1 + c2 - 1 := by omega
  have e₈ : 1 + c1 + c2 = c1 + c2 + 1 := by omega
  have e₉ : c1 + c2 + 1 - 1 = c1 + c2 := by omega
  simp only [e₁, e₂, e₃, e₄, e₅, e₆, e₇, e₈, e₉, add_zero, ← and_or_left]
  rw [or_assoc, or_assoc, ← or_assoc (a := q = c1 - 1 ∧ _), ← or_and_right]

/-- Nothing leads to the accepting state of the result, and one of its moves
leads to no state. -/
theorem nfaOrNfa_broken (h1 : n1.WellFormed) (h2 : n2.WellFormed) :
    ∃ n, nfaOrNfa n1 n2 = .ok n ∧ n.language = 0 ∧ ¬n.WellFormed := by
  obtain ⟨n, hok, hc, hn⟩ := nfaOrNfa_made h1.two h2.two
  have htwo1 := h1.two
  have htwo2 := h2.two
  refine ⟨n, hok, ?_, fun hwf => ?_⟩
  · rw [language_eq]
    refine Set.eq_empty_of_forall_notMem ?_
    rintro _ ⟨y, -, hpath⟩
    -- the states that can be reached are those of `n1` and `n2`, and the one past the end
    have hkeep := isPath_keeps (P := fun q => q ≤ n1.getStateCount + n2.getStateCount - 2 ∨
      q = n1.getStateCount + n2.getStateCount + 1) (fun q o t _ hstep => ?_) hpath (by omega)
    · omega
    · obtain ⟨x, hx, hmove⟩ := exists_move_of_step hstep
      rcases (hn q x t).1 hmove with
        ⟨⟨(⟨-, -, ht⟩ | ⟨-, -, hm⟩), -⟩ | ⟨-, -, hm⟩, -⟩ | ⟨-, -, ht⟩ | ⟨-, rfl, -⟩
      · omega
      · have := (h1.target _ _ _ hm).2
        omega
      · have htarget := (h2.target _ _ _ hm).2
        have hne : t - n1.getStateCount ≠ n2.getStateCount - 1 := fun heq =>
          hx (h2.enter _ x (heq ▸ hm))
        omega
      · omega
      · exact absurd (Or.inl rfl) hx
  · have hmove := (hn (n1.getStateCount - 1) EMPTY_INPUT _).2
      (Or.inr (Or.inl ⟨Or.inl rfl, rfl, rfl⟩))
    have := (hwf.target _ _ _ hmove).2
    omega

theorem nfaOrNfa_never_union (h1 : n1.WellFormed) (h2 : n2.WellFormed) :
    ∃ n, nfaOrNfa n1 n2 = .ok n ∧ n.language = 0 ∧
      ¬(n.WellFormed ∧ n.language = n1.language + n2.language) := by
  obtain ⟨n, hok, hlang, hwf⟩ := nfaOrNfa_broken h1 h2
  exact ⟨n, hok, hlang, fun h => hwf h.1⟩

theorem buildChar_language {ch : Char} (hch : Ordinary [ch]) {n : NFA} (hok : buildChar ch = .ok n) :
    [[ch]] ∈ n.language := by
  obtain ⟨n', hok', hc, hn⟩ := buildChar_made ch
  obtain rfl : n = n' := Except.ok.inj (hok.symm.trans hok')
  rw [language_eq, hc]
  refine ⟨[some [ch]], rfl, ?_⟩
  rw [εNFA.isPath_singleton]
  exact ⟨hch, (hn 0 [ch] 1).2 (Or.inl ⟨rfl, rfl, rfl⟩)⟩

theorem nfaOrNfa_never_union_chars :
    ∃ n1 n2 n, buildChar 'a' = .ok n1 ∧ buildChar 'b' = .ok n2 ∧ nfaOrNfa n1 n2 = .ok n ∧
      n.language = 0 ∧ ¬(n.WellFormed ∧ n.language = n1.language + n2.language) := by
  obtain ⟨n1, hok1, h1, -⟩ := @buildChar_wellFormed 'a' (by decide)
  obtain ⟨n2, hok2, h2, -⟩ := @buildChar_wellFormed 'b' (by decide)
  obtain ⟨n, hok, h⟩ := nfaOrNfa_never_union h1 h2
  exact ⟨n1, n2, n, hok1, hok2, hok, h⟩

/-- `a|b` does not match `a`. -/
theorem nfaOrNfa_misses :
    ∃ n1 n2 n, buildChar 'a' = .ok n1 ∧ buildChar 'b' = .ok n2 ∧ n1.WellFormed ∧ n2.WellFormed ∧
      nfaOrNfa n1 n2 = .ok n ∧ ¬n.WellFormed ∧ n.language ≠ n1.language + n2.language := by
  obtain ⟨n1, hok1, h1, -⟩ := @buildChar_wellFormed 'a' (by decide)
  obtain ⟨n2, hok2, h2, -⟩ := @buildChar_wellFormed 'b' (by decide)
  obtain ⟨n, hok, hlang, hwf⟩ := nfaOrNfa_broken h1 h2
  refine ⟨n1, n2, n, hok1, hok2, h1, h2, hok, hwf, fun heq => ?_⟩
  have ha : [['a']] ∈ n1.language + n2.language :=
    (Language.mem_add _ _ _).2 (Or.inl (buildChar_language (by decide) hok1))
  rw [← heq, hlang] at ha
  exact Language.notMem_zero _ ha

theorem nfaUnionNfa_language_chars :
    ∃ n1 n2 n, buildChar 'a' = .ok n1 ∧ buildChar 'b' = .ok n2 ∧ nfaUnionNfa n1 n2 = .ok n ∧
      n.WellFormed ∧ n.language = n1.language * n2.language := by
  obtain ⟨n1, hok1, h1, hlast⟩ := @buildChar_wellFormed 'a' (by decide)
  obtain ⟨n2, hok2, h2, -⟩ := @buildChar_wellFormed 'b' (by decide)
  obtain ⟨n, hok, h⟩ := nfaUnionNfa_language h1 h2 hlast
  exact ⟨n1, n2, n, hok1, hok2, hok, h⟩

/-! ## The closure -/

/-- The way back and the way out leave from the state before the image of the
accepting state, and the last move goes past the last state. -/
theorem nfaStar_made (h : 2 ≤ n.getStateCount) :
    Made (nfaStar n) (n.getStateCount + 2) (fun q x t =>
      (q = 0 ∧ x = EMPTY_INPUT ∧ (t = 1 ∨ t = n.getStateCount) ∨
        1 ≤ q ∧ q < n.getStateCount ∧ n.Move (q - 1) x (t - 1)) ∧
          ¬(q = n.getStateCount - 2 ∧ Special x) ∨
      q = n.getStateCount - 2 ∧ x = EMPTY_INPUT ∧ (t = 1 ∨ t = n.getStateCount) ∨
      q = n.getStateCount ∧ x = ANY_INPUT ∧ t = n.getStateCount + 2) := by
  rw [nfaStar, if_neg (ne_EMPTY_NFA h)]
  dsimp only
  generalize hc' : n.getStateCount = c at *
  have hnew : (NFA.new (1 + c + 1)).getStateCount = c + 2 := by
    rw [getStateCount_new (by omega)]
    omega
  rw [← hnew]
  generalize hn₀ : NFA.new (1 + c + 1) = n₀ at *
  refine (addMoveTableEntry_made (by omega) (by omega) _ _).bind fun n₁ hc hm₁ => ?_
  rw [← hc] at hnew ⊢
  refine (addMoveTableEntry_made (by omega) (by omega) _ _).bind fun n₂ hc hm₂ => ?_
  rw [← hc] at hnew ⊢
  refine (addNFA_made (by omega) (by omega) (by omega) (by omega) (by omega)).bind
    fun n₃ hc hm₃ => ?_
  rw [← hc] at hnew ⊢
  refine (removeAnyOther_made (by omega) (by omega)).bind fun n₄ hc hm₄ => ?_
  rw [← hc] at hnew ⊢
  refine (addMoveTableEntry_made (by omega) (by omega) _ _).bind fun n₅ hc hm₅ => ?_
  rw [← hc] at hnew ⊢
  refine (addMoveTableEntry_made (by omega) (by omega) _ _).bind fun n₆ hc hm₆ => ?_
  rw [← hc] at hnew hm₆ ⊢
  refine (addMoveTableEntry_made (by omega) (by omega) _ _).congr fun q x t => ?_
  rw [hm₆, hm₅, hm₄, hm₃, hm₂, hm₁, ← hn₀, iff_false_intro move_new, false_or, hnew]
  have e₁ : 1 + (c - 2 - 0 + 1) = c := by omega
  have e₂ : c + 2 - 2 = c := by omega
  simp only [e₁, e₂, add_zero, ← and_or_left]
  rw [or_assoc, or_assoc, ← or_assoc (a := q = c - 2 ∧ _), ← and_or_left, ← and_or_left]

section Star

/-- The moves of the closure that are not special, where `c` is the number of
states of `n`. -/
def Starred (m n : NFA) (c : ℤ) : Prop :=
  ∀ q x t, ¬Special x → (m.Move q x t ↔ (q = 0 ∨ q = c - 2) ∧ x = EMPTY_INPUT ∧ (t = 1 ∨ t = c) ∨
    1 ≤ q ∧ q < c ∧ n.Move (q - 1) x (t - 1))

variable {c : ℤ} (h : Starred m n c) (hn : n.WellFormed) (hc : n.getStateCount = c)
include h

/-- From the states before the accepting one an empty move leads to the start of
the body and to the end. -/
theorem Starred.empty_step (hq : q = 0 ∨ q = c - 2) (ht : t = 1 ∨ t = c) :
    t ∈ m.toεNFA.step q none :=
  (h q EMPTY_INPUT t not_special_EMPTY_INPUT).2 (Or.inl ⟨hq, rfl, ht⟩)

include hn hc

theorem Starred.path_body (hpath : n.toεNFA.IsPath q t y) : m.toεNFA.IsPath (q + 1) (t + 1) y := by
  refine isPath_map (P := fun _ => True) (f := (· + 1)) (fun _ _ _ _ _ => trivial)
    (fun q o t _ hstep => ?_) hpath trivial
  refine step_of_step (fun x hx hmove => (h _ x _ hx).2 (Or.inr ⟨?_, ?_, ?_⟩)) hstep
  · have := hmove.range
    omega
  · have hne : q ≠ n.getStateCount - 1 := by
      rintro rfl
      exact hx (hn.leave x t hmove)
    have := hmove.range
    omega
  · rwa [add_sub_cancel_right, add_sub_cancel_right]

/-- The end is not left. -/
theorem Starred.path_end (hpath : m.toεNFA.IsPath c t y) : y = [] := by
  have htwo := hn.two
  cases hpath with
  | nil => rfl
  | cons r _ _ o y hstep _ =>
      obtain ⟨x, hx, hmove⟩ := exists_move_of_step hstep
      rcases (h c x r hx).1 hmove with ⟨hq, -, -⟩ | ⟨-, hlt, -⟩
      · omega
      · omega

/-- A path from the body to the end goes through the state before the last one of
the body, once for each further word. -/
theorem Starred.path_split (hpath : m.toεNFA.IsPath q t y) (hq : 1 ≤ q) (hqc : q < c) (ht : t = c) :
    ∃ y₁ w, y.reduceOption = y₁.reduceOption ++ w ∧ n.toεNFA.IsPath (q - 1) (c - 3) y₁ ∧
      w ∈ (wordsTo n (c - 3))∗ := by
  induction hpath with
  | nil q => omega
  | cons r q t o y hstep hrest ih =>
      subst ht
      cases o with
      | none =>
          rcases (h q EMPTY_INPUT r not_special_EMPTY_INPUT).1 hstep with
            ⟨hq', -, hr⟩ | ⟨-, -, hmove⟩
          · obtain rfl : q = t - 2 := by omega
            have hback : t - 2 - 1 = t - 3 := by omega
            rw [hback]
            rcases hr with rfl | rfl
            · obtain ⟨y₁, w, hy, hp, hw⟩ := ih le_rfl (by omega) rfl
              refine ⟨[], y.reduceOption, rfl, .nil _, ?_⟩
              rw [hy, ← Language.one_add_self_mul_kstar_eq_kstar]
              exact Or.inr (Language.append_mem_mul ⟨y₁, rfl, hp⟩ hw)
            · rw [h.path_end hn hc hrest]
              exact ⟨[], [], rfl, .nil _, Language.nil_mem_kstar _⟩
          · have htarget := hn.target _ _ _ hmove
            have hne : r - 1 ≠ n.getStateCount - 1 := fun heq =>
              not_special_EMPTY_INPUT (hn.enter _ _ (heq ▸ hmove))
            obtain ⟨y₁, w, hy, hp, hw⟩ := ih (by omega) (by omega) rfl
            exact ⟨none :: y₁, w, hy, .cons _ _ _ _ _ hmove hp, hw⟩
      | some x =>
          rcases (h q x r hstep.1.1).1 hstep.2 with ⟨-, hx, -⟩ | ⟨-, -, hmove⟩
          · exact absurd hx hstep.1.2
          · have htarget := hn.target _ _ _ hmove
            have hne : r - 1 ≠ n.getStateCount - 1 := fun heq =>
              hstep.1.1 (hn.enter _ _ (heq ▸ hmove))
            obtain ⟨y₁, w, hy, hp, hw⟩ := ih (by omega) (by omega) rfl
            refine ⟨some x :: y₁, w, ?_, .cons _ _ _ _ _ ⟨hstep.1, hmove⟩ hp, hw⟩
            rw [List.reduceOption_cons_of_some, hy, List.reduceOption_cons_of_some, List.cons_append]

/-- A path from the start to the end reads a sequence of words. -/
theorem Starred.words_of_path (hpath : m.toεNFA.IsPath q t y) (hq : q = 0) (ht : t = c) :
    y.reduceOption ∈ (wordsTo n (c - 3))∗ := by
  have htwo := hn.two
  subst hq ht
  cases hpath with
  | nil => exact Language.nil_mem_kstar _
  | cons r _ _ o y hstep hrest =>
      cases o with
      | none =>
          rcases (h 0 EMPTY_INPUT r not_special_EMPTY_INPUT).1 hstep with
            ⟨-, -, rfl | rfl⟩ | ⟨hq, -, -⟩
          · obtain ⟨y₁, w, hy, hp, hw⟩ := h.path_split hn hc hrest le_rfl (by omega) rfl
            rw [List.reduceOption_cons_of_none, hy, ← Language.one_add_self_mul_kstar_eq_kstar]
            exact Or.inr (Language.append_mem_mul ⟨y₁, rfl, hp⟩ hw)
          · rw [h.path_end hn hc hrest]
            exact Language.nil_mem_kstar _
          · omega
      | some x =>
          rcases (h 0 x r hstep.1.1).1 hstep.2 with ⟨-, hx, -⟩ | ⟨hq, -, -⟩
          · exact absurd hx hstep.1.2
          · omega

/-- The words read round the body, and out at its end. -/
theorem Starred.path_of_words (l : List (List Str)) (hl : ∀ w ∈ l, w ∈ wordsTo n (c - 3))
    (hq : q = 0 ∨ q = c - 2) :
    ∃ y, y.reduceOption = l.flatten ∧ m.toεNFA.IsPath q c y := by
  induction l generalizing q with
  | nil =>
      refine ⟨[none], rfl, ?_⟩
      rw [εNFA.isPath_singleton]
      exact h.empty_step hq (Or.inr rfl)
  | cons w l ih =>
      obtain ⟨y₁, hy₁, hp₁⟩ := hl w List.mem_cons_self
      obtain ⟨y₂, hy₂, hp₂⟩ := ih (fun v hv => hl v (List.mem_cons_of_mem w hv)) (Or.inr rfl)
      have hbody := h.path_body hn hc hp₁
      have hback : c - 3 + 1 = c - 2 := by omega
      rw [zero_add, hback] at hbody
      refine ⟨none :: (y₁ ++ y₂), ?_, ?_⟩
      · rw [List.reduceOption_cons_of_none, List.reduceOption_append, hy₁, hy₂, List.flatten_cons]
      · exact .cons _ _ _ _ _ (h.empty_step hq (Or.inl rfl))
          ((m.toεNFA.isPath_append).2 ⟨_, hbody, hp₂⟩)

end Star

/-- The result is the closure of the words that lead to the state before the
accepting one, and one of its moves leads to no state. -/
theorem nfaStar_broken (hn : n.WellFormed) :
    ∃ m, nfaStar n = .ok m ∧ m.language = (wordsTo n (n.getStateCount - 3))∗ ∧ ¬m.WellFormed := by
  obtain ⟨m, hok, hc, hm⟩ := nfaStar_made hn.two
  have htwo := hn.two
  have hstar : Starred m n n.getStateCount := by
    intro q x t hx
    have hany : x ≠ ANY_INPUT := fun heq => hx (Or.inl heq)
    rw [hm]
    simp only [hx, hany, and_false, false_and, not_false_eq_true, and_true, or_false]
    rw [or_right_comm, or_and_right]
  refine ⟨m, hok, ?_, fun hwf => ?_⟩
  · have haccept : m.getStateCount - 2 = n.getStateCount := by omega
    rw [language_eq, haccept]
    ext w
    constructor
    · rintro ⟨y, rfl, hpath⟩
      exact hstar.words_of_path hn rfl hpath rfl rfl
    · intro hw
      obtain ⟨l, rfl, hl⟩ := Language.mem_kstar.1 hw
      obtain ⟨y, hy, hp⟩ := hstar.path_of_words hn rfl l hl (Or.inl rfl)
      exact ⟨y, hy, hp⟩
  · have hmove := (hm n.getStateCount ANY_INPUT _).2 (Or.inr (Or.inr ⟨rfl, rfl, rfl⟩))
    have := (hwf.target _ _ _ hmove).2
    omega

theorem nfaStar_never_closure (hn : n.WellFormed) :
    ∃ m, nfaStar n = .ok m ∧ m.language = (wordsTo n (n.getStateCount - 3))∗ ∧
      ¬(m.WellFormed ∧ m.language = n.language∗) := by
  obtain ⟨m, hok, hlang, hwf⟩ := nfaStar_broken hn
  exact ⟨m, hok, hlang, fun h => hwf h.1⟩

theorem nfaStar_never_closure_char :
    ∃ n m, buildChar 'a' = .ok n ∧ nfaStar n = .ok m ∧
      m.language = (wordsTo n (n.getStateCount - 3))∗ ∧
      ¬(m.WellFormed ∧ m.language = n.language∗) := by
  obtain ⟨n, hok, hn, -⟩ := @buildChar_wellFormed 'a' (by decide)
  obtain ⟨m, hstar, h⟩ := nfaStar_never_closure hn
  exact ⟨n, m, hok, hstar, h⟩

/-- `a*` does not match `a`. -/
theorem nfaStar_misses :
    ∃ n m, buildChar 'a' = .ok n ∧ n.WellFormed ∧ nfaStar n = .ok m ∧ ¬m.WellFormed ∧
      m.language ≠ n.language∗ := by
  obtain ⟨n, hok, hn, -⟩ := @buildChar_wellFormed 'a' (by decide)
  obtain ⟨m, hstar, hlang, hwf⟩ := nfaStar_broken hn
  refine ⟨n, m, hok, hn, hstar, hwf, fun heq => ?_⟩
  have ha : [['a']] ∈ n.language∗ := by
    have hmem := Language.join_mem_kstar (L := [[['a']]]) (l := n.language)
    exact hmem (by simpa using buildChar_language (by decide) hok)
  obtain ⟨n', hok', hc, hmove⟩ := buildChar_made 'a'
  obtain rfl : n = n' := Except.ok.inj (hok.symm.trans hok')
  rw [← heq, hlang, hc] at ha
  obtain ⟨l, hl, hwords⟩ := Language.mem_kstar.1 ha
  -- state 1 is not left but for the end, so only the empty word leads back to the start
  have hempty : ∀ w ∈ l, w = [] := by
    intro w hw
    obtain ⟨y, rfl, hpath⟩ := hwords w hw
    cases hpath with
    | nil => rfl
    | cons r _ _ o y hstep hrest =>
        obtain ⟨x, hx, hm⟩ := exists_move_of_step hstep
        rcases (hmove 0 x r).1 hm with ⟨-, -, rfl⟩ | ⟨h0, -, -⟩
        · refine absurd (isPath_keeps (P := fun q => q = 1) (fun q o t hq hstep => ?_) hrest rfl)
            (by decide)
          obtain ⟨x, hx, hm⟩ := exists_move_of_step hstep
          rcases (hmove q x t).1 hm with ⟨h0, -, -⟩ | ⟨-, rfl, -⟩
          · omega
          · exact absurd (Or.inl rfl) hx
        · omega
  rw [List.flatten_eq_nil_iff.2 hempty] at hl
  cases hl

end MyJavaExample.Automate
