import Mathlib.Data.List.Induction
import MyJavaExample.Lexer.DoubleBuffer

/-!
# The languages of the machines

A word belongs to the language of a machine if some next byte takes the machine
from there to its accepting state.  By `Kind.next_eq_EOF` it does not matter which
byte, as long as it ends the machine.

`parseToken` stops at the first character after which no machine goes on.  What
it has read before is the longest prefix of the input that can be continued to a
word of some language (`scan_decided`).  If this prefix is a word itself, it is
the token; there is no way back to a shorter one.
-/

namespace MyJavaExample.Lexer

open Java

namespace Kind

/-- The machines in the order of their priority. -/
def all : List Kind := [ifSM, whileSM, idSM, relopSM, whiteSM, digitSM]

theorem mem_all (k : Kind) : k ∈ all := by
  cases k <;> decide

/-- The state after a word, from the start. -/
def run (k : Kind) (w : List UInt8) : ℤ := w.foldl k.moveToNextState 0

/-- The word is not empty, and some next byte takes the machine to its accepting
state. -/
def Accepts (k : Kind) (w : List UInt8) : Prop :=
  w ≠ [] ∧ ∃ c, k.moveToNextState (k.run w) c = k.acceptState

/-- The word can be continued to a word of the language. -/
def Viable (k : Kind) (w : List UInt8) : Prop := ∃ v, k.Accepts (w ++ v)

/-- The states in which a machine goes on. -/
def goingOn : Kind → List ℤ
  | ifSM => [0, 1, 2]
  | whileSM => [0, 1, 2, 3, 4, 5]
  | idSM => [0, 1]
  | relopSM => [0, 1, 2, 3, 4, 5, 6]
  | whiteSM => [0, 1]
  | digitSM => [0, 1, 2, 3, 4, 5, 6]

theorem run_append (k : Kind) (w v : List UInt8) :
    k.run (w ++ v) = v.foldl k.moveToNextState (k.run w) :=
  List.foldl_append

theorem run_concat (k : Kind) (w : List UInt8) (c : UInt8) :
    k.run (w ++ [c]) = k.moveToNextState (k.run w) c := by
  rw [run_append]
  rfl

theorem next_fail (k : Kind) (c : UInt8) : k.moveToNextState (-1) c = -1 := by
  cases k <;> rfl

theorem foldl_fail (k : Kind) (v : List UInt8) : v.foldl k.moveToNextState (-1) = -1 := by
  induction v with
  | nil => rfl
  | cons c v ih => rw [List.foldl_cons, next_fail, ih]

/-- A machine that has ended fails from then on. -/
theorem next_ended {k : Kind} {state : ℤ} (h : k.Ended state) (c : UInt8) :
    k.moveToNextState state c = -1 := by
  rcases h with rfl | rfl
  · exact k.next_fail c
  · exact k.next_accept c

/-- Every state is known. -/
theorem next_mem (k : Kind) {state : ℤ} (h : state ∈ k.goingOn) (c : UInt8) :
    k.Ended (k.moveToNextState state c) ∨ k.moveToNextState state c ∈ k.goingOn := by
  cases k <;>
    simp only [goingOn, List.mem_cons, List.not_mem_nil, or_false] at h <;>
    rcases h with rfl | rfl | rfl | rfl | rfl | rfl | rfl <;>
    simp only [moveToNextState, IfSM.moveToNextState, WhileSM.moveToNextState,
      IdSM.moveToNextState, RelopSM.moveToNextState, WhiteSM.moveToNextState,
      DigitSM.moveToNextState] <;>
    (try split_ifs) <;> decide

theorem run_mem (k : Kind) (w : List UInt8) : k.Ended (k.run w) ∨ k.run w ∈ k.goingOn := by
  induction w using List.reverseRecOn with
  | nil => cases k <;> decide
  | append_singleton w c ih =>
      rw [run_concat]
      rcases ih with h | h
      · exact Or.inl (Or.inl (next_ended h c))
      · exact k.next_mem h c

/-- What holds at the start and of a failure, and is kept by every byte read in a
state where the machine goes on, holds of every word and the state after it. -/
theorem run_induct (k : Kind) {R : List UInt8 → ℤ → Prop} (hstart : R [] 0)
    (hfail : ∀ w, R w (-1))
    (hstep : ∀ w state c, state ∈ k.goingOn → R w state → R (w ++ [c]) (k.moveToNextState state c))
    (w : List UInt8) : R w (k.run w) := by
  induction w using List.reverseRecOn with
  | nil => exact hstart
  | append_singleton w c ih =>
      rw [run_concat]
      rcases k.run_mem w with hended | hgoing
      · rw [next_ended hended]
        exact hfail _
      · exact hstep w _ c hgoing ih

/-- A word that takes a machine from a state where it goes on to one where the
end of the input is accepted. -/
def completion : Kind → ℤ → List UInt8
  | ifSM, 0 => [ascii 'i', ascii 'f']
  | ifSM, 1 => [ascii 'f']
  | whileSM, s => [ascii 'w', ascii 'h', ascii 'i', ascii 'l', ascii 'e'].drop s.toNat
  | idSM, 0 => [ascii 'a']
  | relopSM, 0 => [ascii '<']
  | relopSM, 2 => [ascii '=']
  | whiteSM, 0 => [ascii ' ']
  | digitSM, 0 => [ascii '0']
  | digitSM, 2 => [ascii '0']
  | digitSM, 3 => [ascii '0']
  | digitSM, 5 => [ascii '0']
  | _, _ => []

theorem completion_accepts (k : Kind) : ∀ state ∈ k.goingOn,
    k.moveToNextState ((k.completion state).foldl k.moveToNextState state) EOF = k.acceptState := by
  cases k <;> decide

/-- The accepting state is not reached from the start by one byte. -/
theorem next_zero_ne (k : Kind) (c : UInt8) : k.moveToNextState 0 c ≠ k.acceptState := by
  cases k <;>
    simp only [moveToNextState, IfSM.moveToNextState, WhileSM.moveToNextState,
      IdSM.moveToNextState, RelopSM.moveToNextState, WhiteSM.moveToNextState,
      DigitSM.moveToNextState] <;>
    split_ifs <;> decide

variable {k : Kind} {w v : List UInt8} {c : UInt8}

/-- A machine goes on after just the words that can be continued. -/
theorem viable_iff : k.Viable w ↔ ¬k.Ended (k.run w) := by
  constructor
  · rintro ⟨v, -, c, hc⟩ hended
    rw [run_append] at hc
    have hfail : k.moveToNextState (v.foldl k.moveToNextState (k.run w)) c = -1 := by
      cases v with
      | nil => exact next_ended hended c
      | cons d v => rw [List.foldl_cons, next_ended hended, foldl_fail, next_fail]
    exact k.acceptState_ne (hc.symm.trans hfail)
  · intro hgoing
    have hmem := (k.run_mem w).resolve_left hgoing
    have haccept := k.completion_accepts _ hmem
    rw [← run_append] at haccept
    refine ⟨k.completion (k.run w), fun hnil => ?_, EOF, haccept⟩
    rw [hnil] at haccept
    exact k.next_zero_ne EOF haccept

theorem Accepts.viable (h : k.Accepts w) : k.Viable w := ⟨[], by rwa [List.append_nil]⟩

theorem Viable.of_append (h : k.Viable (w ++ v)) : k.Viable w := by
  obtain ⟨u, hu⟩ := h
  exact ⟨v ++ u, by rwa [← List.append_assoc]⟩

/-- Where a byte ends the machine, the machine accepts if the word is in its
language. -/
theorem accepts_iff (h : k.Ended (k.moveToNextState (k.run w) c)) :
    k.moveToNextState (k.run w) c = k.acceptState ↔ k.Accepts w := by
  constructor
  · intro hc
    refine ⟨?_, c, hc⟩
    rintro rfl
    exact k.next_zero_ne c hc
  · rintro ⟨-, d, hd⟩
    rw [← k.next_eq_EOF _ c h, k.next_eq_EOF _ d (Or.inr hd)]
    exact hd

end Kind

/-! ## The machines of the analyzer -/

/-- The machines have read `w` from the start. -/
def Read (ms : List StateMachine) (w : List UInt8) : Prop :=
  ms.map (fun m => (m.kind, m.state)) = Kind.all.map fun k => (k, k.run w)

theorem Read.reset : Read (resetAll stateMachines) [] := rfl

theorem Read.step {ms : List StateMachine} {w : List UInt8} (h : Read ms w) (c : UInt8) :
    Read (moveAllStateMachine c ms) (w ++ [c]) := by
  have hstep : ∀ m : StateMachine, ((m.step c).kind, (m.step c).state) =
      (m.kind, m.kind.moveToNextState m.state c) := by
    intro m
    unfold StateMachine.step
    split
    next hfail =>
      have hstate : m.state = -1 := by simpa [StateMachine.fail] using hfail
      rw [hstate, Kind.next_fail]
    next => rw [StateMachine.move_kind, StateMachine.move_state]
  have hmap := congrArg (List.map fun p : Kind × ℤ => (p.1, p.1.moveToNextState p.2 c)) h
  unfold Read moveAllStateMachine
  simp only [List.map_map, Function.comp_def, hstep, Kind.run_concat] at hmap ⊢
  exact hmap

theorem Read.kinds {ms : List StateMachine} {w : List UInt8} (h : Read ms w) :
    ms.map StateMachine.kind = Kind.all := by
  have hmap := congrArg (List.map Prod.fst) h
  rw [List.map_map, List.map_map] at hmap
  exact hmap.trans (List.map_id _)

theorem Read.state {ms : List StateMachine} {w : List UInt8} (h : Read ms w) {m : StateMachine}
    (hm : m ∈ ms) : m.state = m.kind.run w := by
  have hmem : (m.kind, m.state) ∈ Kind.all.map fun k => (k, k.run w) := by
    rw [← h]
    exact List.mem_map.2 ⟨m, hm, rfl⟩
  obtain ⟨k, -, heq⟩ := List.mem_map.1 hmem
  obtain ⟨rfl, hstate⟩ := Prod.mk.inj heq
  exact hstate.symm

theorem Read.exists_kind {ms : List StateMachine} {w : List UInt8} (h : Read ms w) (k : Kind) :
    ∃ m ∈ ms, m.kind = k := by
  have hk := k.mem_all
  rw [← h.kinds] at hk
  exact List.mem_map.1 hk

/-- All machines have ended just if the word cannot be continued. -/
theorem Read.finish_iff {ms : List StateMachine} {w : List UInt8} (h : Read ms w) :
    allStateMachineFinish ms = true ↔ ∀ k : Kind, ¬k.Viable w := by
  simp only [allStateMachineFinish_iff, Kind.viable_iff, not_not]
  constructor
  · intro hms k
    obtain ⟨m, hm, rfl⟩ := h.exists_kind k
    rw [← h.state hm, ← StateMachine.ended_iff]
    exact hms m hm
  · intro hk m hm
    rw [StateMachine.ended_iff, h.state hm]
    exact hk m.kind

/-- The first machine whose language has the word. -/
def FirstAccepting (w : List UInt8) (k : Kind) : Prop :=
  ∃ ks ks', Kind.all = ks ++ k :: ks' ∧ k.Accepts w ∧ ∀ k' ∈ ks, ¬k'.Accepts w

section Finish

variable {ms : List StateMachine} {w : List UInt8} {c : UInt8} (h : Read ms w)
  (hfinish : allStateMachineFinish (moveAllStateMachine c ms) = true)
include h hfinish

/-- Where a byte ends all machines, those accept whose languages have the word. -/
theorem Read.accept_iff {m : StateMachine} (hm : m ∈ moveAllStateMachine c ms) :
    m.accept = true ↔ m.kind.Accepts w := by
  have hstate := (h.step c).state hm
  have hended := (StateMachine.ended_iff m).1 (allStateMachineFinish_iff.1 hfinish m hm)
  rw [hstate, Kind.run_concat] at hended
  rw [← Kind.accepts_iff hended, ← Kind.run_concat, ← hstate]
  simp [StateMachine.accept]

theorem Read.peekFinalSM_some {sm : StateMachine}
    (hsm : peekFinalSM (moveAllStateMachine c ms) = some sm) : FirstAccepting w sm.kind := by
  obtain ⟨hacc, l, l', hl, hnot⟩ := List.find?_eq_some_iff_append.1 hsm
  have hmem : ∀ m ∈ l ++ sm :: l', m ∈ moveAllStateMachine c ms := fun m hm => by rwa [hl]
  refine ⟨l.map StateMachine.kind, l'.map StateMachine.kind, ?_, ?_, fun k hk => ?_⟩
  · rw [← (h.step c).kinds, hl, List.map_append, List.map_cons]
  · exact (h.accept_iff hfinish (hmem sm (by simp))).1 hacc
  · obtain ⟨m, hm, rfl⟩ := List.mem_map.1 hk
    rw [← h.accept_iff hfinish (hmem m (List.mem_append_left _ hm))]
    simpa using hnot m hm

theorem Read.peekFinalSM_none (hsm : peekFinalSM (moveAllStateMachine c ms) = none) (k : Kind) :
    ¬k.Accepts w := by
  obtain ⟨m, hm, rfl⟩ := (h.step c).exists_kind k
  rw [← h.accept_iff hfinish hm]
  exact List.find?_eq_none.1 hsm m hm

end Finish

/-! ## How a call is decided -/

/-- The word can be continued to a word of some language. -/
def Viable (w : List UInt8) : Prop := ∃ k : Kind, k.Viable w

theorem viable_nil : Viable [] :=
  ⟨.idSM, [ascii 'a'], by decide, EOF, by decide⟩

/-- The longest prefix of `l` that can be continued. -/
structure LongestViable (w l : List UInt8) : Prop where
  isPrefix : w <+: l
  viable : Viable w
  longest : ∀ v, v <+: l → Viable v → v.length ≤ w.length

theorem LongestViable.unique {w v l : List UInt8} (hw : LongestViable w l)
    (hv : LongestViable v l) : w = v := by
  have hlen : w.length = v.length :=
    le_antisymm (hv.longest w hw.isPrefix hw.viable) (hw.longest v hv.isPrefix hv.viable)
  rw [List.prefix_iff_eq_take.1 hw.isPrefix, List.prefix_iff_eq_take.1 hv.isPrefix, hlen]

theorem exists_longestViable (l : List UInt8) : ∃ w, LongestViable w l := by
  classical
  let n := Nat.findGreatest (fun n => Viable (l.take n)) l.length
  have hspec : Viable (l.take n) :=
    Nat.findGreatest_spec (P := fun n => Viable (l.take n)) (Nat.zero_le _) viable_nil
  have hle : n ≤ l.length := Nat.findGreatest_le _
  refine ⟨l.take n, List.take_prefix _ _, hspec, fun v hv hviable => ?_⟩
  rw [List.length_take_of_le hle]
  refine Nat.le_findGreatest hv.length_le ?_
  rwa [← List.prefix_iff_eq_take.1 hv]

/-- What a call makes of a word that no machine goes on from: the token of the
first machine whose language has it, or an exception. -/
def Settles (w : List UInt8) (res : Result) : Prop :=
  (∃ k, FirstAccepting w k ∧ res = .token k.tokenType (w.map toChar)) ∨
    (∀ k : Kind, ¬k.Accepts w) ∧ res = .throws illegalString

/-- What the character that ends all machines makes of the word before it. -/
theorem scan_finish {lag : ℕ} {ms : List StateMachine} {u r : List UInt8} {c : UInt8}
    (hread : Read ms u) (htrack : TrackAll ms u) (hlag : lag ≤ BUFFER_SIZE)
    (hfinish : allStateMachineFinish (moveAllStateMachine c ms) = true) :
    Settles u (scan lag ms (c :: r)).1 := by
  rw [scan_cons_finish hlag hfinish]
  cases hsm : peekFinalSM (moveAllStateMachine c ms) with
  | none => exact Or.inr ⟨hread.peekFinalSM_none hfinish hsm, rfl⟩
  | some sm =>
      refine Or.inl ⟨sm.kind, hread.peekFinalSM_some hfinish hsm, ?_⟩
      rw [← htrack.peekFinalSM_name hsm]

/-- A scan of machines that have read `u` stops at the length limit, or at the
first character after which no machine goes on. -/
theorem scan_decided {lag : ℕ} {ms : List StateMachine} {u l : List UInt8} (hread : Read ms u)
    (htrack : TrackAll ms u) (hu : Viable u) :
    (∃ w, w <+: l ∧ Viable (u ++ w) ∧ BUFFER_SIZE < lag + w.length ∧
      (scan lag ms (l ++ [EOF])).1 = .throws lexmeTooLong) ∨
    ∃ w, w <+: l ∧ Viable (u ++ w) ∧ lag + w.length ≤ BUFFER_SIZE ∧
      (∀ v, v <+: l → Viable (u ++ v) → v.length ≤ w.length) ∧
      Settles (u ++ w) (scan lag ms (l ++ [EOF])).1 := by
  rcases Nat.lt_or_ge BUFFER_SIZE lag with hlag | hlag
  · refine Or.inl ⟨[], List.nil_prefix, by rwa [List.append_nil], hlag, ?_⟩
    rw [scan_tooLong hlag]
  · induction l generalizing lag ms u with
    | nil =>
        refine Or.inr ⟨[], List.nil_prefix, by rwa [List.append_nil], hlag,
          fun v hv _ => hv.length_le, ?_⟩
        rw [List.append_nil]
        exact scan_finish hread htrack hlag (allStateMachineFinish_EOF ms)
    | cons c l ih =>
        by_cases hfinish : allStateMachineFinish (moveAllStateMachine c ms) = true
        · refine Or.inr ⟨[], List.nil_prefix, by rwa [List.append_nil], hlag,
            fun v hv hviable => ?_, ?_⟩
          · cases v with
            | nil => exact le_rfl
            | cons d v =>
                obtain ⟨rfl, -⟩ := List.cons_prefix_cons.1 hv
                obtain ⟨k, hk⟩ := hviable
                have happend : u ++ d :: v = u ++ [d] ++ v := by simp
                rw [happend] at hk
                exact absurd hk.of_append ((hread.step d).finish_iff.1 hfinish k)
          · rw [List.append_nil]
            exact scan_finish hread htrack hlag hfinish
        · have hu' : Viable (u ++ [c]) := by
            rw [(hread.step c).finish_iff] at hfinish
            exact not_forall_not.1 hfinish
          have happend : ∀ w, u ++ [c] ++ w = u ++ c :: w := by simp
          rw [List.cons_append, scan_cons_go hlag hfinish]
          rcases Nat.lt_or_ge BUFFER_SIZE (lag + 1) with hlag' | hlag'
          · refine Or.inl ⟨[c], ⟨l, rfl⟩, hu', hlag', ?_⟩
            rw [scan_tooLong hlag']
          · rcases ih (hread.step c) (htrack.step c) hu' hlag' with
              ⟨w, hw, hviable, hlong, hscan⟩ | ⟨w, hw, hviable, hshort, hlongest, hscan⟩
            · refine Or.inl ⟨c :: w, List.cons_prefix_cons.2 ⟨rfl, hw⟩, happend w ▸ hviable, ?_,
                hscan⟩
              rw [List.length_cons]
              omega
            · rw [happend] at hviable hscan
              refine Or.inr ⟨c :: w, List.cons_prefix_cons.2 ⟨rfl, hw⟩, hviable, ?_,
                fun v hv hv' => ?_, hscan⟩
              · rw [List.length_cons]
                omega
              · cases v with
                | nil => exact Nat.zero_le _
                | cons d v =>
                    obtain ⟨rfl, hv₁⟩ := List.cons_prefix_cons.1 hv
                    exact Nat.succ_le_succ (hlongest v hv₁ (by rwa [happend]))

/-- A call that begins at `l`: how it ends is decided by the longest prefix of `l`
that can be continued. -/
theorem scan_outcome (lag : ℕ) {w l : List UInt8} (hw : LongestViable w l) :
    BUFFER_SIZE < lag + w.length ∧
        (scan lag (resetAll stateMachines) (l ++ [EOF])).1 = .throws lexmeTooLong ∨
      lag + w.length ≤ BUFFER_SIZE ∧
        Settles w (scan lag (resetAll stateMachines) (l ++ [EOF])).1 := by
  rcases @scan_decided lag _ _ l Read.reset (TrackAll.reset stateMachines) viable_nil with
    ⟨v, hv, hviable, hlong, hscan⟩ | ⟨v, hv, hviable, hshort, hlongest, hscan⟩
  · have hle := hw.longest v hv hviable
    exact Or.inl ⟨by omega, hscan⟩
  · obtain rfl := hw.unique ⟨hv, hviable, hlongest⟩
    exact Or.inr ⟨hshort, hscan⟩

/-! ## The positions of an input in one buffer -/

namespace LexicalAnalyzer

/-- The whole input `l` was read when the analyzer was made. -/
structure Loaded (a : LexicalAnalyzer) (l : List UInt8) : Prop where
  holds : a.Holds 0 l
  beyond : ∀ j, l.length < j → a.buffer j = 0
  ended : ¬a.inputStream.avail a.inputStream.rest.length > 0

theorem Loaded.of_init {s : InputStream} {a : LexicalAnalyzer} (h : init s = .ok a)
    (hrest : a.inputStream.rest = []) (hsound : s.AvailableSound) (hEOF : EOF ∉ s.rest) :
    a.Loaded s.rest := by
  have hne : s.rest ≠ [] := by
    intro hnil
    simp [init, InputStream.read, hnil, BUFFER_TOTAL_SIZE] at h
    split at h <;> cases h
  rw [init] at h
  split at h
  next => cases h
  next =>
    rw [InputStream.read, if_neg (by decide), if_neg hne] at h
    cases h
    have hlen : s.rest.length ≤ s.delivered (BUFFER_TOTAL_SIZE - 1) := List.drop_eq_nil_iff.1 hrest
    have hle : s.rest.length ≤ BUFFER_TOTAL_SIZE - 1 := by
      unfold InputStream.delivered at hlen
      unfold BUFFER_TOTAL_SIZE at *
      omega
    rw [List.take_of_length_le hlen, List.drop_of_length_le hlen]
    refine ⟨?_, fun j hj => ?_, (Nat.le_of_eq hsound).not_gt⟩
    · have hread := @Holds.of_read s (fun _ => 0) 0 (BUFFER_TOTAL_SIZE - 1) 0 (Nat.zero_add _) hEOF
      rw [Nat.zero_add, List.take_of_length_le hle, List.drop_of_length_le hle] at hread
      exact hread
    · simp only [Buffer.set, Buffer.store]
      rw [if_neg (by omega), if_neg (by omega)]

/-- A call at a position whose lexeme is too long. -/
theorem parseToken_tooLong (a : LexicalAnalyzer) (p : ℕ) {lag : ℕ} (hlag : BUFFER_SIZE < lag) :
    source.parseToken (a.seek p (p + lag : ℕ)) =
      (.throws lexmeTooLong, a.seek p (p + lag : ℕ)) := by
  have hahead : ((p + lag : ℕ) : ℤ) - p > BUFFER_SIZE := by omega
  simp only [Source.parseToken, Source.parseLoop, source, getNextCh, seek, if_pos hahead]

theorem retract_seek (a : LexicalAnalyzer) (b : ℤ) (n : ℕ) :
    source.retract (a.seek b (n + 1 : ℕ)) = a.seek n n := by
  have hpred : ((n + 1 : ℕ) : ℤ) - 1 = n := by omega
  simp only [source, seek, hpred]

section Loaded

variable {a : LexicalAnalyzer} {l : List UInt8} (h : a.Loaded l) {p lag : ℕ}

include h

/-- A call at a position of the input computes the scan of what remains. -/
theorem Loaded.parseToken_eq (hlag : lag ≤ BUFFER_SIZE + 1) (hle : p + lag ≤ l.length) :
    source.parseToken (a.seek p (p + lag : ℕ)) =
      ((scan lag (resetAll stateMachines) (l.drop (p + lag) ++ [EOF])).1,
        source.settle (scan lag (resetAll stateMachines) (l.drop (p + lag) ++ [EOF])).1
          (a.seek p (p + lag +
            (scan lag (resetAll stateMachines) (l.drop (p + lag) ++ [EOF])).2 : ℕ))) := by
  have hholds := h.holds.seek hle p
  rw [Nat.zero_add] at hholds
  have hdiff : (a.seek p (p + lag : ℕ)).forward - (a.seek p (p + lag : ℕ)).begin = lag := by
    simp only [seek]
    omega
  have hread : (scan lag (resetAll stateMachines) (l.drop (p + lag) ++ [EOF])).2 ≤
      (l.drop (p + lag)).length + 1 := by
    simpa using @scan_read_le lag (resetAll stateMachines) (l.drop (p + lag) ++ [EOF])
  rw [hholds.parseToken_eq hdiff hlag]
  have hserved : ∀ n, n ≤ (l.drop (p + lag)).length + 1 →
      (a.seek p (p + lag : ℕ)).served (p + lag) (l.drop (p + lag)) n =
        a.seek p (p + lag + n : ℕ) := by
    intro n hn
    unfold served
    split
    next => rfl
    next hgt =>
      obtain rfl : n = (l.drop (p + lag)).length + 1 := by omega
      have hended : ¬(a.seek p (p + lag : ℕ)).inputStream.avail
          (a.seek p (p + lag : ℕ)).inputStream.rest.length > 0 := h.ended
      rw [passMark_end hended]
      rfl
  rw [hserved _ hread]

/-- A call after the mark reads a cell that was never written, or none. -/
theorem Loaded.parseToken_beyond (hlag : lag ≤ BUFFER_SIZE) (hgt : l.length < p + lag) :
    source.parseToken (a.seek p (p + lag : ℕ)) =
      (.throws (if p + lag < BUFFER_TOTAL_SIZE then illegalString else .arrayIndexOutOfBounds),
        a.seek p (p + lag + 1 : ℕ)) := by
  have hnear : ¬((p + lag : ℕ) : ℤ) - p > BUFFER_SIZE := by omega
  have hzero : allStateMachineFinish (moveAllStateMachine 0 (resetAll stateMachines)) = true ∧
      peekFinalSM (moveAllStateMachine 0 (resetAll stateMachines)) = none ∧ (0 : UInt8) ≠ EOF := by
    decide
  unfold Source.parseToken
  rw [Source.parseLoop]
  by_cases hin : p + lag < BUFFER_TOTAL_SIZE
  · have hget : a.buffer.get ((p + lag : ℕ) : ℤ) = .ok 0 := by
      rw [Buffer.get, if_pos ⟨by omega, by omega⟩, Int.toNat_natCast, h.beyond _ hgt]
    simp only [source, getNextCh, seek, if_neg hnear, hget, hzero, if_true, hin]
    rfl
  · have hget : a.buffer.get ((p + lag : ℕ) : ℤ) = .error .arrayIndexOutOfBounds :=
      if_neg (by omega)
    simp only [source, getNextCh, seek, if_neg hnear, hget, hin]
    rfl

/-- The calls stay at positions of the buffer. -/
theorem Loaded.parseToken_seek (hlag : lag ≤ BUFFER_SIZE + 1) :
    ∃ p' lag' : ℕ, lag' ≤ BUFFER_SIZE + 1 ∧
      (source.parseToken (a.seek p (p + lag : ℕ))).2 = a.seek p' (p' + lag' : ℕ) := by
  rcases Nat.lt_or_ge BUFFER_SIZE lag with hlong | hshort
  · rw [parseToken_tooLong a p hlong]
    exact ⟨p, lag, hlag, rfl⟩
  · rcases Nat.lt_or_ge l.length (p + lag) with hgt | hle
    · rw [h.parseToken_beyond hshort hgt, Nat.add_assoc]
      exact ⟨p, lag + 1, Nat.succ_le_succ hshort, rfl⟩
    · rw [h.parseToken_eq hlag hle]
      cases hscan : (scan lag (resetAll stateMachines) (l.drop (p + lag) ++ [EOF])).1 with
      | token ty name =>
          obtain ⟨n, hn⟩ := Nat.exists_eq_add_of_le' (scan_token_pos hscan)
          refine ⟨p + lag + n, 0, Nat.zero_le _, ?_⟩
          rw [hn, ← Nat.add_assoc]
          exact retract_seek a p _
      | null | throws | running =>
          rw [Nat.add_assoc]
          exact ⟨p, _, scan_lag_le hlag, rfl⟩

theorem Loaded.after_seek (hbegin : a.begin = 0) (k : ℕ) :
    ∃ p lag : ℕ, lag ≤ BUFFER_SIZE + 1 ∧ source.after k a = a.seek p (p + lag : ℕ) := by
  induction k with
  | zero =>
      refine ⟨0, 0, Nat.zero_le _, ?_⟩
      have hforward := h.holds.forward
      obtain ⟨s, b, begin, forward⟩ := a
      obtain rfl : begin = 0 := hbegin
      obtain rfl : forward = 0 := hforward
      rfl
  | succ k ih =>
      obtain ⟨p, lag, hlag, hafter⟩ := ih
      rw [Source.after_succ, hafter]
      exact h.parseToken_seek hlag

/-- The result of a call before the mark. -/
theorem Loaded.result (hle : p + lag ≤ l.length) :
    (source.parseToken (a.seek p (p + lag : ℕ))).1 =
      (scan lag (resetAll stateMachines) (l.drop (p + lag) ++ [EOF])).1 := by
  rcases Nat.lt_or_ge (BUFFER_SIZE + 1) lag with hlong | hshort
  · have hlag : BUFFER_SIZE < lag := by omega
    rw [parseToken_tooLong a p hlag, scan_tooLong hlag]
  · rw [h.parseToken_eq hshort hle]

end Loaded

theorem init_begin {s : InputStream} {a : LexicalAnalyzer} (h : init s = .ok a) : a.begin = 0 := by
  rw [init] at h
  split at h
  next => cases h
  next =>
    split at h
    · cases h
    · cases h
      rfl

section Results

variable {s : InputStream} {a : LexicalAnalyzer} (hinit : init s = .ok a)
  (hrest : a.inputStream.rest = []) (hsound : s.AvailableSound) (hEOF : EOF ∉ s.rest)

include hinit hrest hsound hEOF

/-- If the whole input was read by `init` and a call at any position returns a
token, the token is the longest prefix of what remains that is in the language of
some machine, and its type is that of the first machine whose language has it. -/
theorem parseToken_longest (p lag : ℕ) {ty : TokenType} {name : List UInt16}
    (htoken : (source.parseToken (a.seek p (p + lag : ℕ))).1 = .token ty name) :
    ∃ w k, w <+: s.rest.drop (p + lag) ∧ name = w.map toChar ∧
      (∀ v, v <+: s.rest.drop (p + lag) → (∃ k' : Kind, k'.Accepts v) → v.length ≤ w.length) ∧
      FirstAccepting w k ∧ ty = k.tokenType := by
  have hloaded := Loaded.of_init hinit hrest hsound hEOF
  rcases Nat.lt_or_ge s.rest.length (p + lag) with hgt | hle
  · rcases Nat.lt_or_ge BUFFER_SIZE lag with hlong | hshort
    · rw [parseToken_tooLong a p hlong] at htoken
      cases htoken
    · rw [hloaded.parseToken_beyond hshort hgt] at htoken
      cases htoken
  · obtain ⟨w, hw⟩ := exists_longestViable (s.rest.drop (p + lag))
    rw [hloaded.result hle] at htoken
    rcases scan_outcome lag hw with ⟨-, hscan⟩ | ⟨-, ⟨k, hk, hscan⟩ | ⟨-, hscan⟩⟩
    · rw [hscan] at htoken
      cases htoken
    · rw [hscan] at htoken
      cases htoken
      refine ⟨w, k, hw.isPrefix, rfl, ?_, hk, rfl⟩
      rintro v hv ⟨k', hk'⟩
      exact hw.longest v hv ⟨k', hk'.viable⟩
    · rw [hscan] at htoken
      cases htoken

/-- If the whole input was read by `init`, a call that comes after `i` others and
still has input left is decided by the longest prefix of this that can be
continued to a word of some language. -/
theorem parseToken_outcome (i : ℕ) :
    ∃ p lag : ℕ, source.after i a = a.seek p (p + lag : ℕ) ∧
      (p + lag < s.rest.length → ∃ w, LongestViable w (s.rest.drop (p + lag)) ∧
        (source.result i a = .throws lexmeTooLong ↔ BUFFER_SIZE < lag + w.length) ∧
        ((source.result i a).isToken = true ↔
          lag + w.length ≤ BUFFER_SIZE ∧ ∃ k : Kind, k.Accepts w) ∧
        (source.result i a = .throws illegalString ↔
          lag + w.length ≤ BUFFER_SIZE ∧ ∀ k : Kind, ¬k.Accepts w)) := by
  have hloaded := Loaded.of_init hinit hrest hsound hEOF
  obtain ⟨p, lag, -, hafter⟩ := hloaded.after_seek (init_begin hinit) i
  refine ⟨p, lag, hafter, fun hlt => ?_⟩
  obtain ⟨w, hw⟩ := exists_longestViable (s.rest.drop (p + lag))
  refine ⟨w, hw, ?_⟩
  have hresult : source.result i a =
      (scan lag (resetAll stateMachines) (s.rest.drop (p + lag) ++ [EOF])).1 := by
    rw [Source.result, hafter, hloaded.result hlt.le]
  have hdiffer : illegalString ≠ lexmeTooLong := by decide
  rw [hresult]
  rcases scan_outcome lag hw with ⟨hlong, hscan⟩ | ⟨hshort, ⟨k, hk, hscan⟩ | ⟨hnone, hscan⟩⟩
  · simp [hscan, hlong, hlong.not_ge, Result.isToken, hdiffer.symm]
  · obtain ⟨-, -, -, haccepts, -⟩ := hk
    simp only [hscan, hshort, hshort.not_gt, Result.isToken, reduceCtorEq, true_and, false_iff,
      true_iff, not_forall, not_not, iff_self]
    exact ⟨⟨k, haccepts⟩, ⟨k, haccepts⟩⟩
  · simp [hscan, hshort, hshort.not_gt, Result.isToken, hdiffer, hnone]

end Results

/-- The analyzer on `if x == 10 x = 15`, before its first call. -/
theorem parseToken_longest_test : ∃ w k, w <+: testInput.rest ∧ [105, 102] = w.map toChar ∧
    (∀ v, v <+: testInput.rest → (∃ k' : Kind, k'.Accepts v) → v.length ≤ w.length) ∧
    FirstAccepting w k ∧ .IF = k.tokenType := by
  have htoken : (source.parseToken (testAnalyzer.seek (0 : ℕ) (0 + 0 : ℕ))).1 =
      .token .IF [105, 102] := by
    decide +kernel
  exact parseToken_longest testInput_init rfl rfl (by decide) 0 0 htoken

/-- The analyzer on `if x == 10 x = 15`, after three calls. -/
theorem parseToken_outcome_test : init testInput = .ok testAnalyzer ∧
    ∃ p lag : ℕ, source.after 3 testAnalyzer = testAnalyzer.seek p (p + lag : ℕ) ∧
      (p + lag < testInput.rest.length → ∃ w, LongestViable w (testInput.rest.drop (p + lag)) ∧
        (source.result 3 testAnalyzer = .throws lexmeTooLong ↔ BUFFER_SIZE < lag + w.length) ∧
        ((source.result 3 testAnalyzer).isToken = true ↔
          lag + w.length ≤ BUFFER_SIZE ∧ ∃ k : Kind, k.Accepts w) ∧
        (source.result 3 testAnalyzer = .throws illegalString ↔
          lag + w.length ≤ BUFFER_SIZE ∧ ∀ k : Kind, ¬k.Accepts w)) :=
  ⟨testInput_init, parseToken_outcome testInput_init rfl rfl (by decide) 3⟩

/-- The input `1.x`: the prefix `1` is a number, but `1.` can be continued too and
there is no way back. -/
theorem parseToken_no_backtracking : ∃ a, init (.ofBytes ("1.x".toList.map ascii)) = .ok a ∧
    a.inputStream.rest = [] ∧ a.forward = 0 ∧ source.result 0 a = .throws illegalString ∧
    Kind.digitSM.Accepts [ascii '1'] :=
  ⟨_, rfl, rfl, rfl, by decide +kernel, by decide, EOF, by decide⟩

end LexicalAnalyzer

end MyJavaExample.Lexer
