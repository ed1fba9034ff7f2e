import MyJavaExample.Automate.NFA

/-!
# What the operations of `NFA` do

Each operation on an automaton is described by its result: the number of states
and the moves (`Made`).  `Made.bind` puts the descriptions of consecutive
operations together.
-/

namespace MyJavaExample.Automate

open Java

namespace NFA

/-! ## Move tables -/

theorem targets_insert {m : MoveTable} {x y : Str} {l : List ℤ} :
    MoveTable.targets (m.insert y l) x = if x = y then l else m.targets x := by
  unfold MoveTable.targets
  split
  next h => rw [h, AList.lookup_insert, Option.getD_some]
  next h => rw [AList.lookup_insert_ne h]

theorem mem_targets_addEntry {m : MoveTable} {x y : Str} {t v : ℤ} :
    t ∈ MoveTable.targets (addEntry y v m) x ↔ t ∈ m.targets x ∨ x = y ∧ t = v := by
  unfold addEntry
  rw [targets_insert]
  split
  next h => simp [h, or_comm]
  next h => simp [h]

theorem mem_targets_erase {m : MoveTable} {x y : Str} {t : ℤ} :
    t ∈ MoveTable.targets (m.erase y) x ↔ x ≠ y ∧ t ∈ m.targets x := by
  unfold MoveTable.targets
  by_cases h : x = y
  · subst h
    rw [AList.lookup_erase]
    simp
  · simp [h, AList.lookup_erase_ne h]

/-- The targets of a table are those of its entries. -/
theorem mem_targets_iff {m : MoveTable} {x : Str} {t : ℤ} :
    t ∈ m.targets x ↔ ∃ e ∈ m.entries, e.1 = x ∧ t ∈ e.2 := by
  unfold MoveTable.targets
  constructor
  · intro h
    cases hl : m.lookup x with
    | none => simp [hl] at h
    | some l =>
        rw [hl, Option.getD_some] at h
        exact ⟨⟨x, l⟩, AList.mem_lookup_iff.1 hl, rfl, h⟩
  · rintro ⟨⟨y, l⟩, he, rfl, ht⟩
    have hl : m.lookup y = some l := AList.mem_lookup_iff.2 he
    rwa [hl, Option.getD_some]

theorem mem_foldl_insert {l acc : List ℤ} {inc t : ℤ} :
    t ∈ l.foldl (fun s v => s.insert (v + inc)) acc ↔ t ∈ acc ∨ t - inc ∈ l := by
  induction l generalizing acc with
  | nil => simp
  | cons v l ih =>
      rw [List.foldl_cons, ih, List.mem_insert_iff, List.mem_cons]
      have hshift : t = v + inc ↔ t - inc = v := by omega
      rw [hshift, or_assoc, or_left_comm]

/-- The entries are distinct, so the last one written for an input is the only
one. -/
theorem targets_updateMoveTable (m : MoveTable) (inc : ℤ) (x : Str) (t : ℤ) :
    t ∈ (updateMoveTable m inc).targets x ↔ t - inc ∈ m.targets x := by
  have key : ∀ (es : List (Sigma fun _ : Str => List ℤ)) (r : MoveTable), es.NodupKeys →
      (t ∈ MoveTable.targets (es.foldl (fun r e =>
        r.insert e.1 (e.2.foldl (fun s v => s.insert (v + inc)) [])) r) x ↔
        (∃ e ∈ es, e.1 = x ∧ t - inc ∈ e.2) ∨ (∀ e ∈ es, e.1 ≠ x) ∧ t ∈ r.targets x) := by
    intro es
    induction es with
    | nil => simp
    | cons e es ih =>
        intro r hnodup
        obtain ⟨hnot, hnodup⟩ := List.nodupKeys_cons.1 hnodup
        rw [List.foldl_cons, ih _ hnodup, targets_insert]
        by_cases hx : x = e.1
        · subst hx
          have hne : ∀ e' ∈ es, e'.1 ≠ e.1 := by
            intro e' he' heq
            exact hnot (heq ▸ List.mem_keys_of_mem he')
          rw [if_pos rfl, mem_foldl_insert]
          constructor
          · rintro (⟨e', he', heq, -⟩ | ⟨-, h⟩)
            · exact absurd heq (hne e' he')
            · exact Or.inl ⟨e, List.mem_cons_self, rfl, by simpa using h⟩
          · rintro (⟨e', he', heq, h⟩ | ⟨h, -⟩)
            · rcases List.mem_cons.1 he' with rfl | he'
              · exact Or.inr ⟨hne, Or.inr h⟩
              · exact absurd heq (hne e' he')
            · exact absurd rfl (h e List.mem_cons_self)
        · rw [if_neg hx]
          simp only [List.mem_cons, exists_eq_or_imp, forall_eq_or_imp]
          have hx' : e.1 ≠ x := fun heq => hx heq.symm
          simp only [hx', false_and, false_or, ne_eq, not_false_eq_true, true_and]
  unfold updateMoveTable
  rw [key m.entries ∅ m.nodupKeys, mem_targets_iff (m := m)]
  have hempty : ¬t ∈ MoveTable.targets ∅ x := by simp [MoveTable.targets]
  simp only [hempty, and_false, or_false]

/-! ## Operations on one state -/

variable {n m : NFA} {c s q t v inc : ℤ} {x y : Str} {E : ℤ → Str → ℤ → Prop}

theorem getMoveTable_eq_ok {m : MoveTable} :
    n.getMoveTable q = .ok m ↔ 0 ≤ q ∧ n.stateList[q.toNat]? = some m := by
  unfold getMoveTable
  split
  next h =>
    cases n.stateList[q.toNat]? with
    | none => simp [throw, throwThe, MonadExceptOf.throw]
    | some m' => simp [pure, Except.pure, h]
  next h => simp [h, throw, throwThe, MonadExceptOf.throw]

theorem exists_getMoveTable (h₀ : 0 ≤ q) (h : q < n.getStateCount) :
    ∃ m, n.getMoveTable q = .ok m := by
  unfold getStateCount at h
  have hlt : q.toNat < n.stateList.length := by omega
  exact ⟨_, getMoveTable_eq_ok.2 ⟨h₀, List.getElem?_eq_getElem hlt⟩⟩

/-- Moves are from states of the automaton. -/
theorem Move.range (h : n.Move q x t) : 0 ≤ q ∧ q < n.getStateCount := by
  obtain ⟨m, hm, -⟩ := h
  obtain ⟨h₀, hq⟩ := getMoveTable_eq_ok.1 hm
  obtain ⟨hlt, -⟩ := List.getElem?_eq_some_iff.1 hq
  unfold getStateCount
  omega

theorem move_iff {tab : MoveTable} (h : n.getMoveTable q = .ok tab) :
    n.Move q x t ↔ t ∈ tab.targets x := by
  constructor
  · rintro ⟨tab', h', ht⟩
    rw [h] at h'
    rwa [Except.ok.inj h']
  · exact fun ht => ⟨tab, h, ht⟩

/-- The result is an automaton with `c` states and the moves `E`. -/
def Made (r : Except JExn NFA) (c : ℤ) (E : ℤ → Str → ℤ → Prop) : Prop :=
  ∃ n, r = .ok n ∧ n.getStateCount = c ∧ ∀ q x t, n.Move q x t ↔ E q x t

theorem Made.bind {r : Except JExn NFA} {f : NFA → Except JExn NFA} {c' : ℤ}
    {E' : ℤ → Str → ℤ → Prop} (h : Made r c E)
    (hf : ∀ n : NFA, n.getStateCount = c → (∀ q x t, n.Move q x t ↔ E q x t) → Made (f n) c' E') :
    Made (r >>= f) c' E' := by
  obtain ⟨n, rfl, hc, hE⟩ := h
  exact hf n hc hE

theorem Made.congr {r : Except JExn NFA} {E' : ℤ → Str → ℤ → Prop} (h : Made r c E)
    (hE : ∀ q x t, E q x t ↔ E' q x t) : Made r c E' := by
  obtain ⟨n, rfl, hc, hn⟩ := h
  exact ⟨n, rfl, hc, fun q x t => (hn q x t).trans (hE q x t)⟩

theorem move_new : ¬(new c).Move q x t := by
  rintro ⟨m, hm, ht⟩
  obtain ⟨-, hget⟩ := getMoveTable_eq_ok.1 hm
  obtain ⟨hlt, hm⟩ := List.getElem?_eq_some_iff.1 hget
  simp only [new, List.getElem_replicate] at hm
  rw [← hm] at ht
  simp [MoveTable.targets] at ht

theorem getStateCount_new (h : 0 ≤ c) : (new c).getStateCount = c := by
  simp [new, getStateCount, h]

theorem updateState_made (h₀ : 0 ≤ s) (h : s < n.getStateCount) {f : MoveTable → MoveTable}
    {P : Str → ℤ → Prop}
    (hf : ∀ m, n.getMoveTable s = .ok m → ∀ x t, t ∈ (f m).targets x ↔ P x t) :
    Made (n.updateState s f) n.getStateCount
      (fun q x t => if q = s then P x t else n.Move q x t) := by
  obtain ⟨tab, htab⟩ := exists_getMoveTable h₀ h
  refine ⟨⟨n.stateList.set s.toNat (f tab)⟩, by rw [updateState, htab]; rfl, ?_, fun q x t => ?_⟩
  · simp [getStateCount]
  · obtain ⟨-, hget⟩ := getMoveTable_eq_ok.1 htab
    obtain ⟨hlt, -⟩ := List.getElem?_eq_some_iff.1 hget
    dsimp only
    split
    next hq =>
      rw [hq, ← hf tab htab x t]
      refine move_iff (getMoveTable_eq_ok.2 ⟨h₀, ?_⟩)
      exact List.getElem?_set_self hlt
    next hq =>
      have heq : ∀ tab', (NFA.mk (n.stateList.set s.toNat (f tab))).getMoveTable q = .ok tab' ↔
          n.getMoveTable q = .ok tab' := by
        intro tab'
        rw [getMoveTable_eq_ok, getMoveTable_eq_ok]
        refine and_congr_right fun hq₀ => ?_
        have hne : s.toNat ≠ q.toNat := by omega
        rw [List.getElem?_set_ne hne]
      simp only [Move, heq]

theorem addMoveTableEntry_made (h₀ : 0 ≤ s) (h : s < n.getStateCount) (y : Str) (v : ℤ) :
    Made (n.addMoveTableEntry s y v) n.getStateCount
      (fun q x t => n.Move q x t ∨ q = s ∧ x = y ∧ t = v) := by
  refine (updateState_made h₀ h (P := fun x t => n.Move s x t ∨ x = y ∧ t = v)
    fun tab htab x t => ?_).congr fun q x t => ?_
  · rw [mem_targets_addEntry, move_iff htab]
  · split
    next hq => simp [hq]
    next hq => simp [hq]

theorem removeAnyOther_made (h₀ : 0 ≤ s) (h : s < n.getStateCount) :
    Made (n.removeAnyOther s) n.getStateCount
      (fun q x t => n.Move q x t ∧ ¬(q = s ∧ Special x)) := by
  refine (updateState_made h₀ h (P := fun x t => ¬Special x ∧ n.Move s x t)
    fun tab htab x t => ?_).congr fun q x t => ?_
  · rw [mem_targets_erase, mem_targets_erase, move_iff htab, Special, not_or, and_assoc]
    exact and_left_comm
  · split
    next hq => simp [hq, and_comm]
    next hq => simp [hq]

/-! ## Whole tables -/

theorem addTargets_made (h₀ : 0 ≤ s) (h : s < n.getStateCount) (y : Str) (l : List ℤ) :
    Made (addTargets s y l n) n.getStateCount
      (fun q x t => n.Move q x t ∨ q = s ∧ x = y ∧ t ∈ l) := by
  induction l generalizing n with
  | nil => exact ⟨n, rfl, rfl, by simp⟩
  | cons v l ih =>
      refine (addMoveTableEntry_made h₀ h y v).bind fun n' hc hE => ?_
      rw [← hc] at h ⊢
      refine (ih h).congr fun q x t => ?_
      rw [hE, List.mem_cons, or_assoc]
      simp only [and_or_left]

theorem addMoveTable_made (h₀ : 0 ≤ s) (h : s < n.getStateCount) (tab : MoveTable) :
    Made (n.addMoveTable s tab) n.getStateCount
      (fun q x t => n.Move q x t ∨ q = s ∧ t ∈ tab.targets x) := by
  have key : ∀ (es : List (Sigma fun _ : Str => List ℤ)) (n : NFA), s < n.getStateCount →
      Made (addEntries s es n) n.getStateCount
        (fun q x t => n.Move q x t ∨ q = s ∧ ∃ e ∈ es, e.1 = x ∧ t ∈ e.2) := by
    intro es
    induction es with
    | nil => exact fun n _ => ⟨n, rfl, rfl, by simp⟩
    | cons e es ih =>
        intro n h
        refine (addTargets_made h₀ h e.1 e.2).bind fun n' hc hE => ?_
        rw [← hc] at h ⊢
        refine (ih n' h).congr fun q x t => ?_
        rw [hE]
        simp only [List.mem_cons, exists_eq_or_imp, eq_comm (a := x), and_or_left, or_assoc]
  refine (key tab.entries n h).congr fun q x t => ?_
  rw [mem_targets_iff]

/-- The states of `m` from `p` on get into the states from `s` on. -/
theorem addStates_made {p : ℤ} (k : ℕ) (h₀ : 0 ≤ s) (h : s + k ≤ n.getStateCount) (hp₀ : 0 ≤ p)
    (hp : p + k ≤ m.getStateCount) :
    Made (addStates m inc k s p n) n.getStateCount
      (fun q x t => n.Move q x t ∨ s ≤ q ∧ q < s + k ∧ m.Move (q - s + p) x (t - inc)) := by
  induction k generalizing n s p with
  | zero =>
      refine ⟨n, rfl, rfl, fun q x t => ?_⟩
      have hnone : ¬(s ≤ q ∧ q < s + (0 : ℕ)) := by omega
      exact iff_self_or.2 fun h => absurd ⟨h.1, h.2.1⟩ hnone
  | succ k ih =>
      obtain ⟨tab, htab⟩ := exists_getMoveTable (n := m) hp₀ (by omega)
      rw [addStates, htab]
      refine (addMoveTable_made h₀ (by omega) (updateMoveTable tab inc)).bind fun n' hc hE => ?_
      have hrest := ih (n := n') (s := s + 1) (p := p + 1) (by omega) (by omega) (by omega) (by omega)
      rw [hc] at hrest
      refine hrest.congr fun q x t => ?_
      rw [hE, targets_updateMoveTable, ← move_iff htab]
      have hshift : q - (s + 1) + (p + 1) = q - s + p := by omega
      rw [hshift]
      by_cases hq : q = s
      · have hsame : q - s + p = p := by omega
        rw [hsame]
        have hhigh : s < s + (k + 1 : ℕ) := by omega
        have hnot : ¬s + 1 ≤ s := by omega
        simp only [hq, true_and, le_refl s, hhigh, hnot, false_and, or_false]
      · have hrange : s + 1 ≤ q ∧ q < s + 1 + k ↔ s ≤ q ∧ q < s + (k + 1 : ℕ) := by omega
        rw [← and_assoc, hrange, ← and_assoc]
        simp only [hq, false_and, or_false]

theorem addNFA_made {p e : ℤ} (h₀ : 0 ≤ s) (h : s + (e - p + 1) ≤ n.getStateCount) (hp₀ : 0 ≤ p)
    (hp : e < m.getStateCount) (hpe : p ≤ e + 1) :
    Made (n.addNFA s m p e inc) n.getStateCount
      (fun q x t => n.Move q x t ∨ s ≤ q ∧ q < s + (e - p + 1) ∧ m.Move (q - s + p) x (t - inc)) := by
  have hk : ((e - p + 1).toNat : ℤ) = e - p + 1 := by omega
  have hmade := @addStates_made n m s inc p (e - p + 1).toNat h₀ (by omega) hp₀ (by omega)
  rwa [hk] at hmade

theorem ne_EMPTY_NFA (h : 2 ≤ n.getStateCount) : n ≠ EMPTY_NFA := by
  rintro rfl
  exact absurd h (by decide)

end NFA

end MyJavaExample.Automate
