import MyJavaExample.Automate.Transform
import MyJavaExample.Lexer.StateMachine

/-!
# From regular expressions to automata: `compiler/automate/Re2Nfa`

`match` and `matchR` read the expression from a common position.  `depth` bounds
the calls on the stack.

`getCh` gives 0 only when the position is past the length of the expression, and
throws at the length itself.  No call gets past it: to do so `match` would have
to return first.  So `match` reads letters, digits and opening parentheses and
ends with an exception, at the first other character or at the end, and `matchR`
is never called.
-/

namespace MyJavaExample.Automate

open Java Lexer

namespace Re2Nfa

/-- The cast `(byte) c`. -/
def toByte (c : Char) : UInt8 := UInt8.ofNat c.toNat

def parseError : JExn := .illegalState "re parse error"

/-- The next character and the position after it. -/
def getCh (re : Str) (p : ℕ) : Except JExn (Char × ℕ) :=
  if re.length < p then pure ('\x00', p)
  else
    match re[p]? with
    | none => throw .indexOutOfBounds
    | some c => pure (c, p + 1)

mutual

/-- `match()`. -/
def matchExp (re : Str) : ℕ → ℕ → Except JExn (NFA × ℕ)
  | 0, _ => throw .stackOverflow
  | depth + 1, p => do
      let (c, p) ← getCh re p
      if c = '\x00' then pure (NFA.EMPTY_NFA, p)
      else if c = '(' then
        let (n1, p) ← matchExp re depth p
        matchR re depth n1 (p + 1)
      else if isLetter (toByte c) || isNumber (toByte c) then
        let n ← NFA.buildChar c
        let (n1, p) ← matchExp re depth p
        let n2 ← nfaUnionNfa n n1
        matchR re depth n2 p
      else throw parseError

def matchR (re : Str) : ℕ → NFA → ℕ → Except JExn (NFA × ℕ)
  | 0, _, _ => throw .stackOverflow
  | depth + 1, n1, p => do
      let (ch, p) ← getCh re p
      if ch = '\x00' then pure (n1, p)
      else if ch = '|' then
        let (n2, p) ← matchExp re depth p
        let (n3, p) ← matchR re depth n2 p
        pure (← nfaOrNfa n1 n3, p)
      else if ch = '*' then
        let n2 ← nfaStar n1
        matchR re depth n2 p
      else throw parseError

end

/-! ## The grammar: `REGrammar` -/

/-- A letter or a digit, as `Defines` has them. -/
def IsSigma (c : Char) : Prop := c.toNat < 128 ∧ (isLetter (toByte c) || isNumber (toByte c)) = true

instance (c : Char) : Decidable (IsSigma c) := inferInstanceAs (Decidable (_ ∧ _))

mutual

/-- `Exp -> (Exp)R | ΣExpR | ε`. -/
inductive Exp : Str → Prop
  | group {u v : Str} : Exp u → R v → Exp ('(' :: u ++ ')' :: v)
  | sigma {c : Char} {u v : Str} : IsSigma c → Exp u → R v → Exp (c :: u ++ v)
  | empty : Exp []

/-- `R -> |ExpR | *R | ε`. -/
inductive R : Str → Prop
  | alt {u v : Str} : Exp u → R v → R ('|' :: u ++ v)
  | star {v : Str} : R v → R ('*' :: v)
  | empty : R []

end

/-- The characters of regular expressions. -/
def Symbol (c : Char) : Prop := IsSigma c ∨ c ∈ ['(', ')', '|', '*']

instance (c : Char) : Decidable (Symbol c) := inferInstanceAs (Decidable (_ ∨ _))

/-- An outcome as the grammar asks for. -/
def Conforms (re : Str) (r : Except JExn (NFA × ℕ)) : Prop :=
  (Exp re → ∃ n, r = .ok n) ∧ (¬Exp re → r = .error parseError)

/-! ## What `match` does -/

variable {re l : Str} {depth p : ℕ}

theorem getCh_of_drop {c : Char} (h : re.drop p = c :: l) : getCh re p = .ok (c, p + 1) := by
  have hlt : p < re.length := by
    by_contra hge
    rw [List.drop_eq_nil_of_le (Nat.le_of_not_lt hge)] at h
    cases h
  have hget : re[p]? = some c := by
    rw [← List.head?_drop, h]
    rfl
  rw [getCh, if_neg (Nat.not_lt.2 hlt.le), hget]
  rfl

theorem getCh_length (re : Str) : getCh re re.length = .error .indexOutOfBounds := by
  rw [getCh, if_neg (Nat.lt_irrefl _), List.getElem?_eq_none le_rfl]
  rfl

/-- The exception of the inner call is that of the outer one. -/
theorem matchExp_of_error {c : Char} {e : JExn} (h : re.drop p = c :: l)
    (hc : c = '(' ∨ IsSigma c) (hexp : matchExp re depth (p + 1) = .error e) :
    matchExp re (depth + 1) p = .error e := by
  rw [matchExp, getCh_of_drop h]
  have hzero : c ≠ '\x00' := by
    rintro rfl
    exact absurd hc (by decide)
  show (if c = '\x00' then _ else _) = _
  rw [if_neg hzero]
  by_cases hpar : c = '('
  · rw [if_pos hpar, hexp]
    rfl
  · obtain ⟨n, hn, -⟩ := buildChar_made c
    have hsigma := (hc.resolve_left hpar).2
    rw [if_neg hpar, if_pos hsigma, hn, hexp]
    rfl

theorem matchExp_other {c : Char} (h : re.drop p = c :: l) (hc : c ∈ [')', '|', '*']) :
    matchExp re (depth + 1) p = .error parseError := by
  rw [matchExp, getCh_of_drop h]
  show (if c = '\x00' then _ else _) = _
  have hnot : c ≠ '\x00' ∧ c ≠ '(' ∧ ¬(isLetter (toByte c) || isNumber (toByte c)) = true := by
    simp only [List.mem_cons, List.not_mem_nil, or_false] at hc
    rcases hc with rfl | rfl | rfl <;> decide
  obtain ⟨hzero, hpar, hsigma⟩ := hnot
  rw [if_neg hzero, if_neg hpar, if_neg hsigma]
  rfl

/-- `match` ends at the first character that cannot begin an expression, or at
the end. -/
theorem matchExp_eq (h : re.drop p = l) (hp : p ≤ re.length) (hl : ∀ c ∈ l, Symbol c)
    (hdepth : l.length < depth) :
    matchExp re depth p =
      .error (if l.any [')', '|', '*'].contains then parseError else .indexOutOfBounds) := by
  induction l generalizing p depth with
  | nil =>
      cases depth with
      | zero => cases hdepth
      | succ depth =>
          have hend : p = re.length := le_antisymm hp (List.drop_eq_nil_iff.1 h)
          rw [matchExp, hend, getCh_length]
          rfl
  | cons c l ih =>
      cases depth with
      | zero => cases hdepth
      | succ depth =>
          have hlt : p < re.length := by
            by_contra hge
            rw [List.drop_eq_nil_of_le (Nat.le_of_not_lt hge)] at h
            cases h
          have hdrop : re.drop (p + 1) = l := by
            rw [← List.drop_drop, h]
            rfl
          have hrest := ih hdrop hlt (fun d hd => hl d (List.mem_cons_of_mem c hd))
            (Nat.lt_of_succ_lt_succ hdepth)
          by_cases hc : c ∈ [')', '|', '*']
          · have hany : (c :: l).any [')', '|', '*'].contains = true :=
              List.any_eq_true.2 ⟨c, List.mem_cons_self, List.contains_iff_mem.2 hc⟩
            rw [matchExp_other h hc, if_pos hany]
          · have hbegin : c = '(' ∨ IsSigma c := by
              rcases hl c List.mem_cons_self with hsigma | hmem
              · exact Or.inr hsigma
              · exact Or.inl ((List.mem_cons.1 hmem).resolve_right hc)
            have hany : (c :: l).any [')', '|', '*'].contains = l.any [')', '|', '*'].contains := by
              have hnot : [')', '|', '*'].contains c = false := by
                rw [Bool.eq_false_iff, ne_eq, List.contains_iff_mem]
                exact hc
              rw [List.any_cons, hnot, Bool.false_or]
            rw [matchExp_of_error h hbegin hrest, hany]

/-- `match` never returns, so it does what the grammar asks for just where it is
to throw, and gets to a character that it does not expect. -/
theorem matchExp_conforms_iff (hre : ∀ c ∈ re, Symbol c) (hdepth : re.length < depth) :
    Conforms re (matchExp re depth 0) ↔ ¬Exp re ∧ ∃ c ∈ re, c ∈ [')', '|', '*'] := by
  have hany : (∃ c ∈ re, c ∈ [')', '|', '*']) ↔ re.any [')', '|', '*'].contains = true := by
    simp only [List.any_eq_true, List.contains_iff_mem]
  rw [matchExp_eq List.drop_zero (Nat.zero_le _) hre hdepth, hany]
  constructor
  · rintro ⟨hexp, hnot⟩
    have hre : ¬Exp re := by
      intro h
      obtain ⟨n, hn⟩ := hexp h
      cases hn
    refine ⟨hre, ?_⟩
    by_contra hnone
    have := hnot hre
    rw [if_neg hnone] at this
    cases this
  · rintro ⟨hre, hsome⟩
    exact ⟨fun h => absurd h hre, fun _ => by rw [if_pos hsome]⟩

theorem matchExp_conforms_paren : Conforms [')'] (matchExp [')'] 2 0) := by
  refine (matchExp_conforms_iff (List.forall_mem_singleton.2 (by decide)) (by decide)).2
    ⟨fun h => ?_, ')', by decide, by decide⟩
  generalize hre : [')'] = re at h
  cases h with
  | group hu hv =>
      rw [List.cons_append, List.cons.injEq] at hre
      exact absurd hre.1 (by decide)
  | sigma hc hu hv =>
      rw [List.cons_append, List.cons.injEq] at hre
      rw [← hre.1] at hc
      exact absurd hc (by decide)
  | empty => cases hre

/-- The expression `a` throws at its end. -/
theorem matchExp_letter : ¬Conforms ['a'] (matchExp ['a'] 2 0) := by
  intro h
  have hexp : Exp ['a'] := @Exp.sigma 'a' [] [] (by decide) .empty .empty
  obtain ⟨n, hn⟩ := h.1 hexp
  rw [matchExp_eq List.drop_zero (Nat.zero_le _) (List.forall_mem_singleton.2 (by decide))
    (by decide)] at hn
  cases hn

end Re2Nfa

end MyJavaExample.Automate
