import Mathlib.Data.List.DropRight
import MyJavaExample.Automate.Moves

/-!
# Automata from text: `NFA.build(String[][])`

A transition is written as its input followed by the number of the next state.
`build` takes the last character of the text for the number, so a number of
several digits gives its last digit, and the others become part of the input.
`trim` drops the characters up to the space at both ends of the text.
-/

namespace MyJavaExample.Automate

open Java

namespace NFA

/-- The characters that `trim` drops. -/
def isTrimmed (c : Char) : Bool := c ≤ ' '

def trim (s : Str) : Str := (s.dropWhile isTrimmed).rdropWhile isTrimmed

/-- The body of the inner loop of `build`, for a table of `size` rows. -/
def buildEntry (size i : ℕ) (entry : Str) (n : NFA) : Except JExn NFA :=
  let entry := trim entry
  match entry.getLast? with
  | none => throw .indexOutOfBounds
  | some c =>
      let nextState : ℤ := c.toNat - 48
      if (size : ℤ) ≤ nextState then
        throw (.illegalState ("table中声明的状态，第" ++ toString (i + 1) ++ "行，" ++
          String.ofList entry ++ "超过了table的大小，不符合要求"))
      else n.addMoveTableEntry i entry.dropLast nextState

def buildEntries (size i : ℕ) : List Str → NFA → Except JExn NFA
  | [], n => pure n
  | entry :: entries, n => do buildEntries size i entries (← buildEntry size i entry n)

def buildRows (size : ℕ) : ℕ → List (List Str) → NFA → Except JExn NFA
  | _, [], n => pure n
  | i, row :: rows, n => do buildRows size (i + 1) rows (← buildEntries size i row n)

def build (table : List (List Str)) : Except JExn NFA := do
  let n ← buildRows table.length 0 table (new (table.length + 1))
  let last ← n.getMoveTable (n.getStateCount - 2)
  if last.entries.isEmpty then
    n.addMoveTableEntry (n.getStateCount - 2) ANY_INPUT (n.getStateCount - 1)
  else n.addMoveTableEntry (n.getStateCount - 2) OTHER_INPUT (n.getStateCount - 1)

/-! ## The text of a table -/

/-- The transitions of each state: inputs and targets. -/
abbrev Table : Type := List (List (Str × ℕ))

def Table.text (T : Table) : List (List Str) :=
  T.map fun row => row.map fun e => e.1 ++ Nat.toDigits 10 e.2

/-- The transitions of state `q`. -/
def Table.row (T : Table) (q : ℤ) : List (Str × ℕ) := if 0 ≤ q then T.getD q.toNat [] else []

/-- The targets are states, and no input is empty, ends in a digit or is one of
the inputs that stand for any character. -/
structure Table.Valid (T : Table) : Prop where
  pos : 1 ≤ T.length
  target : ∀ row ∈ T, ∀ e ∈ row, e.2 < T.length
  input : ∀ row ∈ T, ∀ e ∈ row, ∃ c ∈ e.1.getLast?, ¬c.isDigit
  ordinary : ∀ row ∈ T, ∀ e ∈ row, ¬Special e.1

/-- `build` decodes the text of the table. -/
def Decoded (T : Table) : Prop :=
  ∃ n, build T.text = .ok n ∧ n.getStateCount = T.length + 1 ∧
    (∀ q, ∀ e ∈ T.row q, ∃ l, n.moveToNextState q e.1 = .ok (some l) ∧
      ∀ t : ℤ, t ∈ l ↔ ∃ e' ∈ T.row q, e'.1 = e.1 ∧ (e'.2 : ℤ) = t) ∧
    ∀ q x t, n.Move q x t ↔ (∃ e ∈ T.row q, e.1 = x ∧ (e.2 : ℤ) = t) ∨
      q = T.length - 1 ∧ t = T.length ∧
        x = if T.row (T.length - 1) = [] then ANY_INPUT else OTHER_INPUT

/-! ## Numbers and spaces -/

/-- The digits of a number before the last one. -/
def higherDigits (t : ℕ) : Str := if t < 10 then [] else Nat.toDigits 10 (t / 10)

theorem toDigits_eq (t : ℕ) : Nat.toDigits 10 t = higherDigits t ++ [Nat.digitChar (t % 10)] := by
  unfold higherDigits
  split
  next h => rw [Nat.toDigits_of_lt_base h, Nat.mod_eq_of_lt h, List.nil_append]
  next h => rw [Nat.toDigits_of_base_le (by decide) (Nat.le_of_not_lt h)]

theorem isDigit_of_mem_higherDigits {t : ℕ} {c : Char} (h : c ∈ higherDigits t) : c.isDigit := by
  unfold higherDigits at h
  split at h
  · cases h
  · exact Nat.isDigit_of_mem_toDigits (by decide) (by decide) h

theorem digitChar_toNat {d : ℕ} (h : d < 10) : (Nat.digitChar d).toNat = d + 48 := by
  have key : ∀ d : Fin 10, (Nat.digitChar d).toNat = d + 48 := by decide
  exact key ⟨d, h⟩

theorem not_isTrimmed_of_isDigit {c : Char} (h : c.isDigit) : isTrimmed c = false := by
  have hle : '0' ≤ c := by
    simp only [Char.isDigit, Bool.and_eq_true, decide_eq_true_eq] at h
    exact h.1
  refine decide_eq_false fun hc => ?_
  have hspace : '0' ≤ ' ' := Char.le_trans hle hc
  exact absurd hspace (by decide)

/-- `trim` on the text of a transition. -/
theorem trim_text (x : Str) (t : ℕ) :
    trim (x ++ Nat.toDigits 10 t) =
      x.dropWhile isTrimmed ++ higherDigits t ++ [Nat.digitChar (t % 10)] := by
  have hdigits : ∀ c ∈ Nat.toDigits 10 t, isTrimmed c = false := fun c hc =>
    not_isTrimmed_of_isDigit (Nat.isDigit_of_mem_toDigits (by decide) (by decide) hc)
  have hdrop : (Nat.toDigits 10 t).dropWhile isTrimmed = Nat.toDigits 10 t := by
    cases hd : Nat.toDigits 10 t with
    | nil => rfl
    | cons c l =>
        have hc := hdigits c (by rw [hd]; exact List.mem_cons_self)
        rw [List.dropWhile_cons, hc]
        rfl
  have hfront : (x ++ Nat.toDigits 10 t).dropWhile isTrimmed =
      x.dropWhile isTrimmed ++ Nat.toDigits 10 t := by
    rw [List.dropWhile_append]
    split
    next hx => rw [hdrop, List.isEmpty_iff.1 hx, List.nil_append]
    next => rfl
  have hlast : isTrimmed (Nat.digitChar (t % 10)) = false :=
    hdigits _ (by rw [toDigits_eq]; simp)
  rw [trim, hfront, toDigits_eq, ← List.append_assoc]
  exact List.rdropWhile_concat_neg _ _ _ (by simp [hlast])

/-! ## What `build` makes of a table -/

variable {n : NFA} {q t : ℤ} {x : Str} {size i : ℕ}

/-- What `build` takes for the input and the target of a transition. -/
def misread (e : Str × ℕ) : Str × ℤ :=
  (e.1.dropWhile isTrimmed ++ higherDigits e.2, (e.2 % 10 : ℕ))

/-- No table has an input without targets. -/
def Nonempty (n : NFA) : Prop :=
  ∀ q m, n.getMoveTable q = .ok m → ∀ x ∈ m, m.targets x ≠ []

theorem Nonempty.new {c : ℤ} : (NFA.new c).Nonempty := by
  intro q m hm x hx
  obtain ⟨-, hget⟩ := getMoveTable_eq_ok.1 hm
  obtain ⟨hlt, hm⟩ := List.getElem?_eq_some_iff.1 hget
  simp only [NFA.new, List.getElem_replicate] at hm
  rw [← hm] at hx
  exact absurd hx (AList.notMem_empty x)

theorem Nonempty.addMoveTableEntry {s v : ℤ} {y : Str} {n' : NFA} (h : n.Nonempty)
    (hok : n.addMoveTableEntry s y v = .ok n') : n'.Nonempty := by
  unfold NFA.addMoveTableEntry updateState at hok
  cases htab : n.getMoveTable s with
  | error e =>
      rw [htab] at hok
      cases hok
  | ok tab =>
      rw [htab] at hok
      obtain rfl := Except.ok.inj hok
      intro q m hm x hx
      obtain ⟨hq, hget⟩ := getMoveTable_eq_ok.1 hm
      rw [List.getElem?_set] at hget
      split at hget
      next heq =>
        split at hget
        next =>
          obtain rfl := Option.some.inj hget
          unfold addEntry at hx ⊢
          rw [targets_insert]
          split
          next => exact List.ne_nil_of_mem (List.mem_insert_self)
          next hne =>
            have hx' := (AList.mem_insert tab).1 hx
            exact h s tab htab x (hx'.resolve_left hne)
        next => cases hget
      next => exact h q m (getMoveTable_eq_ok.2 ⟨hq, hget⟩) x hx

/-- One transition. -/
theorem buildEntry_made (hn : n.Nonempty) (hcount : n.getStateCount = size + 1) (hi : i < size)
    {e : Str × ℕ} (he : e.2 < size) :
    ∃ n', buildEntry size i (e.1 ++ Nat.toDigits 10 e.2) n = .ok n' ∧ n'.Nonempty ∧
      n'.getStateCount = size + 1 ∧
      ∀ q x t, n'.Move q x t ↔ n.Move q x t ∨ q = i ∧ misread e = (x, t) := by
  have hmod : e.2 % 10 < 10 := Nat.mod_lt _ (by decide)
  have hstate : ((Nat.digitChar (e.2 % 10)).toNat : ℤ) - 48 = (e.2 % 10 : ℕ) := by
    rw [digitChar_toNat hmod]
    omega
  have hlt : ¬(size : ℤ) ≤ (e.2 % 10 : ℕ) := by
    have := Nat.mod_le e.2 10
    omega
  obtain ⟨n', hok, hc, hmove⟩ := addMoveTableEntry_made (n := n) (s := i) (by omega) (by omega)
    (misread e).1 (misread e).2
  refine ⟨n', ?_, hn.addMoveTableEntry hok, hc.trans hcount, fun q x t => ?_⟩
  · rw [buildEntry, trim_text]
    simp only [List.getLast?_concat, List.dropLast_concat, hstate, hlt, if_false]
    exact hok
  · rw [hmove, Prod.ext_iff]
    simp only [eq_comm]

theorem buildEntries_made (hn : n.Nonempty) (hcount : n.getStateCount = size + 1) (hi : i < size)
    {row : List (Str × ℕ)} (hrow : ∀ e ∈ row, e.2 < size) :
    ∃ n', buildEntries size i (row.map fun e => e.1 ++ Nat.toDigits 10 e.2) n = .ok n' ∧
      n'.Nonempty ∧ n'.getStateCount = size + 1 ∧
      ∀ q x t, n'.Move q x t ↔ n.Move q x t ∨ q = i ∧ ∃ e ∈ row, misread e = (x, t) := by
  induction row generalizing n with
  | nil => exact ⟨n, rfl, hn, hcount, by simp⟩
  | cons e row ih =>
      obtain ⟨n₁, hok₁, hn₁, hc₁, hmove₁⟩ := buildEntry_made hn hcount hi (hrow e List.mem_cons_self)
      obtain ⟨n₂, hok₂, hn₂, hc₂, hmove₂⟩ := ih hn₁ hc₁ fun e' he' =>
        hrow e' (List.mem_cons_of_mem e he')
      refine ⟨n₂, ?_, hn₂, hc₂, fun q x t => ?_⟩
      · rw [List.map_cons, buildEntries, hok₁]
        exact hok₂
      · rw [hmove₂, hmove₁]
        simp only [List.mem_cons, exists_eq_or_imp]
        rw [or_assoc, ← and_or_left]

theorem buildRows_made (hn : n.Nonempty) (hcount : n.getStateCount = size + 1) {rows : Table}
    (hi : i + rows.length ≤ size) (hrows : ∀ row ∈ rows, ∀ e ∈ row, e.2 < size) :
    ∃ n', buildRows size i rows.text n = .ok n' ∧ n'.Nonempty ∧ n'.getStateCount = size + 1 ∧
      ∀ q x t, n'.Move q x t ↔
        n.Move q x t ∨ i ≤ q ∧ ∃ e ∈ rows.row (q - i), misread e = (x, t) := by
  induction rows generalizing n i with
  | nil => exact ⟨n, rfl, hn, hcount, by simp [Table.row]⟩
  | cons row rows ih =>
      rw [List.length_cons] at hi
      obtain ⟨n₁, hok₁, hn₁, hc₁, hmove₁⟩ :=
        buildEntries_made hn hcount (i := i) (by omega) (hrows row List.mem_cons_self)
      obtain ⟨n₂, hok₂, hn₂, hc₂, hmove₂⟩ := ih hn₁ hc₁ (i := i + 1) (by omega)
        fun row' hrow' => hrows row' (List.mem_cons_of_mem row hrow')
      refine ⟨n₂, ?_, hn₂, hc₂, fun q x t => ?_⟩
      · unfold Table.text at hok₂ ⊢
        rw [List.map_cons, buildRows, hok₁]
        exact hok₂
      · rw [hmove₂, hmove₁]
        rcases lt_trichotomy q i with hq | rfl | hq
        · have h₁ : ¬((i + 1 : ℕ) : ℤ) ≤ q := by omega
          have h₂ : q ≠ i := by omega
          have h₃ : ¬(i : ℤ) ≤ q := by omega
          simp only [h₁, h₂, h₃, false_and, or_false]
        · have h₁ : ¬((i + 1 : ℕ) : ℤ) ≤ i := by omega
          simp only [h₁, false_and, or_false, le_refl, true_and, sub_self]
          rfl
        · have h₁ : ((i + 1 : ℕ) : ℤ) ≤ q := by omega
          have h₂ : q ≠ i := by omega
          have h₃ : (i : ℤ) ≤ q := by omega
          have hrow : Table.row (row :: rows) (q - i) = Table.row rows (q - (i + 1 : ℕ)) := by
            have hnat : (q - i).toNat = (q - (i + 1 : ℕ)).toNat + 1 := by omega
            rw [Table.row, Table.row, if_pos (by omega), if_pos (by omega), hnat]
            rfl
          simp only [h₁, h₂, h₃, false_and, or_false, true_and, hrow]

/-- The state before the last one has no table just if no transition is declared
for it. -/
theorem build_made {T : Table} (hT : T.Valid) :
    ∃ n, build T.text = .ok n ∧ n.Nonempty ∧ n.getStateCount = T.length + 1 ∧
      ∀ q x t, n.Move q x t ↔ (∃ e ∈ T.row q, misread e = (x, t)) ∨
        q = T.length - 1 ∧ t = T.length ∧
          x = if T.row (T.length - 1) = [] then ANY_INPUT else OTHER_INPUT := by
  have hpos := hT.pos
  have hlength : T.text.length = T.length := List.length_map _
  obtain ⟨n₁, hok₁, hn₁, hc₁, hmove₁⟩ := buildRows_made (i := 0) Nonempty.new
    (getStateCount_new (c := T.length + 1) (by omega)) (by omega) hT.target
  have hrows : ∀ q x t, n₁.Move q x t ↔ ∃ e ∈ T.row q, misread e = (x, t) := by
    intro q x t
    rw [hmove₁, iff_false_intro move_new, false_or]
    have hzero : q - (0 : ℕ) = q := by omega
    rw [hzero, and_iff_right_iff_imp]
    rintro ⟨e, he, -⟩
    unfold Table.row at he
    split at he
    · assumption
    · cases he
  have hlast : n₁.getStateCount - 2 = T.length - 1 := by omega
  obtain ⟨last, hget⟩ := exists_getMoveTable (n := n₁) (q := T.length - 1) (by omega) (by omega)
  have hempty : last.entries.isEmpty = true ↔ T.row (T.length - 1) = [] := by
    rw [List.isEmpty_iff]
    constructor
    · intro hnil
      by_contra hrow
      obtain ⟨e, he⟩ := List.exists_mem_of_ne_nil _ hrow
      have hmove := (hrows (T.length - 1) (misread e).1 (misread e).2).2 ⟨e, he, rfl⟩
      obtain ⟨e', he', -⟩ := mem_targets_iff.1 ((move_iff hget).1 hmove)
      rw [hnil] at he'
      cases he'
    · intro hrow
      by_contra hnil
      obtain ⟨e, he⟩ := List.exists_mem_of_ne_nil _ hnil
      have hkey : e.1 ∈ last := List.mem_keys_of_mem he
      obtain ⟨v, hv⟩ := List.exists_mem_of_ne_nil _ (hn₁ _ last hget e.1 hkey)
      obtain ⟨e', he', -⟩ := (hrows _ _ v).1 ((move_iff hget).2 hv)
      rw [hrow] at he'
      cases he'
  obtain ⟨n₂, hok₂, hc₂, hmove₂⟩ := addMoveTableEntry_made (n := n₁) (s := T.length - 1)
    (by omega) (by omega) (if T.row (T.length - 1) = [] then ANY_INPUT else OTHER_INPUT) T.length
  refine ⟨n₂, ?_, hn₁.addMoveTableEntry hok₂, hc₂.trans hc₁, fun q x t => ?_⟩
  · have hfinal : n₁.getStateCount - 1 = T.length := by omega
    rw [build, hlength, hok₁]
    show (do
      let last ← n₁.getMoveTable (n₁.getStateCount - 2)
      if last.entries.isEmpty then
        n₁.addMoveTableEntry (n₁.getStateCount - 2) ANY_INPUT (n₁.getStateCount - 1)
      else n₁.addMoveTableEntry (n₁.getStateCount - 2) OTHER_INPUT (n₁.getStateCount - 1)) = .ok n₂
    rw [hlast, hfinal, hget]
    show (if last.entries.isEmpty = true then _ else _) = _
    split at hok₂
    next h => rw [if_pos (hempty.2 h)]; exact hok₂
    next h => rw [if_neg fun h' => h (hempty.1 h')]; exact hok₂
  · rw [hmove₂]
    dsimp only
    rw [hrows, and_comm (a := x = _)]

/-! ## When the text is decoded -/

theorem Table.mem_row {T : Table} {e : Str × ℕ} :
    (∃ row ∈ T, e ∈ row) ↔ ∃ q, e ∈ T.row q := by
  constructor
  · rintro ⟨row, hrow, he⟩
    obtain ⟨k, hk, rfl⟩ := List.getElem_of_mem hrow
    refine ⟨k, ?_⟩
    rw [Table.row, if_pos (by omega), Int.toNat_natCast, List.getD_eq_getElem?_getD,
      List.getElem?_eq_getElem hk, Option.getD_some]
    exact he
  · rintro ⟨q, he⟩
    unfold Table.row at he
    split at he
    next =>
      rw [List.getD_eq_getElem?_getD] at he
      cases hget : T[q.toNat]? with
      | none =>
          rw [hget] at he
          cases he
      | some row =>
          rw [hget] at he
          exact ⟨row, List.mem_of_getElem? hget, he⟩
    next => cases he

/-- One digit, and nothing for `trim` to drop. -/
def Readable (e : Str × ℕ) : Prop := e.2 < 10 ∧ ∀ c ∈ e.1.head?, ' ' < c

instance (e : Str × ℕ) : Decidable (Readable e) :=
  @instDecidableAnd _ _ _ (Option.decidableForallMem e.1.head?)

theorem misread_of_readable {e : Str × ℕ} (h : Readable e) : misread e = (e.1, (e.2 : ℤ)) := by
  obtain ⟨x, t⟩ := e
  obtain ⟨ht, hx⟩ := h
  have hdrop : x.dropWhile isTrimmed = x := by
    cases x with
    | nil => rfl
    | cons c x =>
        have hc : isTrimmed c = false := decide_eq_false (Char.not_le.2 (hx c rfl))
        rw [List.dropWhile_cons, hc]
        rfl
  simp only [misread, hdrop, higherDigits, ht, if_true, List.append_nil, Nat.mod_eq_of_lt ht]

/-- A transition that is taken for another one with a possible input was
readable. -/
theorem readable_of_misread {e e' : Str × ℕ} (hinput : ∃ c ∈ e.1.getLast?, ¬c.isDigit)
    (h : misread e' = (e.1, (e.2 : ℤ))) : Readable e := by
  obtain ⟨x, t⟩ := e
  obtain ⟨x', t'⟩ := e'
  obtain ⟨hx, ht⟩ := Prod.ext_iff.1 h
  dsimp only [misread] at hx ht
  refine ⟨?_, fun c hc => ?_⟩
  · have := Nat.mod_lt t' (show 0 < 10 by decide)
    omega
  · rw [← hx] at hinput hc
    cases hfront : x'.dropWhile isTrimmed with
    | nil =>
        -- only digits are left, but the input does not end in one
        rw [hfront, List.nil_append] at hinput
        obtain ⟨d, hd, hnot⟩ := hinput
        exact absurd (isDigit_of_mem_higherDigits (List.mem_of_mem_getLast? hd)) hnot
    | cons d l =>
        rw [hfront, List.cons_append, List.head?_cons, Option.mem_some_iff] at hc
        subst hc
        have hnot := List.head_dropWhile_not isTrimmed (w := by rw [hfront]; exact List.cons_ne_nil _ _)
        simp only [hfront, List.head_cons] at hnot
        exact Char.not_le.1 (of_decide_eq_false hnot)

theorem readable_of_decoded {T : Table} (hT : T.Valid) (hdecoded : Decoded T) :
    ∀ row ∈ T, ∀ e ∈ row, Readable e := by
  obtain ⟨n, hok, -, -, hmove⟩ := build_made hT
  obtain ⟨n', hok', -, -, hmove'⟩ := hdecoded
  obtain rfl : n = n' := Except.ok.inj (hok.symm.trans hok')
  intro row hrow e he
  obtain ⟨q, hq⟩ := Table.mem_row.1 ⟨row, hrow, he⟩
  have hread := (hmove' q e.1 e.2).2 (Or.inl ⟨e, hq, rfl, rfl⟩)
  rcases (hmove q e.1 e.2).1 hread with ⟨e', -, h⟩ | ⟨-, ht, -⟩
  · exact readable_of_misread (hT.input row hrow e he) h
  · have := hT.target row hrow e he
    omega

theorem build_decodes_iff {T : Table} (hT : T.Valid) :
    Decoded T ↔ ∀ row ∈ T, ∀ e ∈ row, Readable e := by
  refine ⟨readable_of_decoded hT, fun hread => ?_⟩
  obtain ⟨n, hok, hnonempty, hc, hmove⟩ := build_made hT
  have hrow : ∀ q, ∀ e ∈ T.row q, misread e = (e.1, (e.2 : ℤ)) := by
    intro q e he
    obtain ⟨row, hrow, hmem⟩ := Table.mem_row.2 ⟨q, he⟩
    exact misread_of_readable (hread row hrow e hmem)
  have hmoves : ∀ q x t, (∃ e ∈ T.row q, misread e = (x, t)) ↔
      ∃ e ∈ T.row q, e.1 = x ∧ (e.2 : ℤ) = t := by
    intro q x t
    refine exists_congr fun e => and_congr_right fun he => ?_
    rw [hrow q e he, Prod.mk.injEq]
  refine ⟨n, hok, hc, fun q e he => ?_, fun q x t => by rw [hmove, hmoves]⟩
  obtain ⟨row, hmem, hrowe⟩ := Table.mem_row.2 ⟨q, he⟩
  have hmove_e : n.Move q e.1 e.2 := (hmove q e.1 e.2).2 (Or.inl ⟨e, he, hrow q e he⟩)
  obtain ⟨tab, htab, htarget⟩ := hmove_e
  obtain ⟨hq₀, hq⟩ := Move.range ⟨tab, htab, htarget⟩
  -- a state with a declared transition has no move on any input
  have hany : ANY_INPUT ∉ tab := by
    intro hkey
    obtain ⟨v, hv⟩ := List.exists_mem_of_ne_nil _ (hnonempty q tab htab _ hkey)
    rcases (hmove q ANY_INPUT v).1 ⟨tab, htab, hv⟩ with hdeclared | ⟨rfl, -, hx⟩
    · obtain ⟨e', he', hx, -⟩ := (hmoves _ _ _).1 hdeclared
      obtain ⟨row', hrow', hmem'⟩ := Table.mem_row.2 ⟨q, he'⟩
      exact hT.ordinary row' hrow' e' hmem' (Or.inl hx)
    · rw [if_neg (List.ne_nil_of_mem he)] at hx
      exact absurd hx (by decide)
  have hnot : ¬(MoveTable.targets tab e.1 = [] ∧ OTHER_INPUT ∈ tab) := fun h =>
    List.ne_nil_of_mem htarget h.1
  cases hl : tab.lookup e.1 with
  | none =>
      rw [MoveTable.targets, hl] at htarget
      cases htarget
  | some l =>
      refine ⟨l, ?_, fun t => ?_⟩
      · rw [moveToNextState, if_neg (by omega), htab]
        show (if ANY_INPUT ∈ tab then _ else _) = _
        rw [if_neg hany, if_neg hnot, hl]
        rfl
      · have hlist : t ∈ l ↔ n.Move q e.1 t := by
          rw [move_iff htab, MoveTable.targets, hl, Option.getD_some]
        rw [hlist, hmove, hmoves, or_iff_left_iff_imp]
        rintro ⟨-, -, hx⟩
        refine absurd ?_ (hT.ordinary row hmem e hrowe)
        rw [hx]
        split
        · exact Or.inl rfl
        · exact Or.inr rfl

theorem build_decodes_loop : Decoded [[(['a'], 0), (['b'], 1)], []] := by
  refine (build_decodes_iff ⟨by decide, by decide, fun row hrow e he => ?_, by decide⟩).2 (by decide)
  simp only [List.mem_cons, List.not_mem_nil, or_false] at hrow
  rcases hrow with rfl | rfl
  · simp only [List.mem_cons, List.not_mem_nil, or_false] at he
    rcases he with rfl | rfl
    · exact ⟨'a', rfl, by decide⟩
    · exact ⟨'b', rfl, by decide⟩
  · cases he

/-- A table of eleven states with a move to the last one. -/
def elevenStates : Table := [(['a'], 10)] :: List.replicate 10 []

theorem elevenStates_not_decoded : elevenStates.Valid ∧ ¬Decoded elevenStates := by
  have hvalid : elevenStates.Valid := ⟨by decide, by decide, by simp [elevenStates], by decide⟩
  exact ⟨hvalid, fun h => absurd (readable_of_decoded hvalid h) (by decide)⟩

end NFA

end MyJavaExample.Automate
