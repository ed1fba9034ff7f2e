import Mathlib.Data.List.Chain
import MyJavaExample.Lib.Decimal

/-!
# Process accounting: `stat_log.py`

The script reads a log of state changes, one line for each, and adds up the time
that a process spends in each state.  `state_last_time` goes through the changes
once for each state and remembers when the state began; zero stands for "not in
this state", and a state that is entered again begins anew.

So the time in a state that begins at time zero is lost, and so is the time
between two equal states, which only the process 0 may have.  Up to the first
change, the time is waiting for nobody; all other time is counted in exactly one
state.
-/

namespace MyJavaExample.Tools

open Lib

/-- `P_NEW`, `P_READY`, `P_RUNNING`, `P_WAITING` and `P_EXIT` -/
inductive PState where
  | new
  | ready
  | running
  | waiting
  | exit
deriving DecidableEq

/-- A state and the time when it begins. -/
structure Entry where
  state : PState
  time : ℤ

inductive MyError where
  | sameLine
  | badFormat
  | badTime
  | duplicateNew
  | noNew
  | unknownState
  | repeatState
  | taskHasExited
  | valueError

/-- `class process`; there is always a first state. -/
structure Process where
  pid : ℤ
  states : List Entry
  nonempty : states ≠ []

namespace Process

/-- `process(pid, time)` -/
def start (pid time : ℤ) : Process where
  pid := pid
  states := [⟨.new, time⟩]
  nonempty := List.cons_ne_nil _ _

variable (p : Process)

def first : Entry := p.states.head p.nonempty

def last : Entry := p.states.getLast p.nonempty

def changeState (state : PState) (time : ℤ) : Except MyError Process :=
  if time < p.last.time then throw .badTime
  else if p.last.state = .exit then throw .taskHasExited
  else if p.last.state = state ∧ p.pid ≠ 0 then throw .repeatState
  else pure { p with
    states := p.states ++ [⟨state, time⟩]
    nonempty := List.append_ne_nil_of_right_ne_nil _ (List.cons_ne_nil _ _) }

def turnaroundTime : ℤ := p.last.time - p.first.time

/-- The loop of `state_last_time`, with `time` and `state_begin`; the assertion
may fail. -/
def stateLoop (state : PState) : List Entry → ℤ → ℤ → Option ℤ
  | [], time, _ => some time
  | e :: es, time, stateBegin =>
      if e.state = state then stateLoop state es time e.time
      else if stateBegin ≠ 0 then
        if stateBegin ≤ e.time then stateLoop state es (time + (e.time - stateBegin)) 0 else none
      else stateLoop state es time stateBegin

def stateLastTime (state : PState) : Option ℤ := stateLoop state p.states 0 0

def waitingTime : Option ℤ := p.stateLastTime .ready

def cpuTime : Option ℤ := p.stateLastTime .running

def ioTime : Option ℤ := p.stateLastTime .waiting

end Process

/-! ## The pool of processes -/

/-- `process_pool.new`; process 0 may begin again. -/
def newProcess (pid time : ℤ) : List Process → Except MyError (List Process)
  | [] => pure [.start pid time]
  | p :: ps =>
      if p.pid = pid then
        if pid ≠ 0 then throw .duplicateNew else pure (.start p.pid time :: ps)
      else do
        let ps ← newProcess pid time ps
        pure (p :: ps)

/-- `get_process` and `change_state` of the process found. -/
def changeProcess (pid : ℤ) (state : PState) (time : ℤ) :
    List Process → Except MyError (List Process)
  | [] => throw .noNew
  | p :: ps =>
      if p.pid = pid then do
        let p ← p.changeState state time
        pure (p :: ps)
      else do
        let ps ← changeProcess pid state time ps
        pure (p :: ps)

/-! ## The lines of the log -/

/-- `line.split("\t")` -/
def splitTab : List UInt8 → List (List UInt8)
  | [] => [[]]
  | c :: cs =>
      if c = 9 then [] :: splitTab cs
      else
        match splitTab cs with
        | [] => [[c]]
        | field :: fields => (c :: field) :: fields

/-- `upper` -/
def upper (s : List UInt8) : List UInt8 := s.map fun c => if 97 ≤ c ∧ c ≤ 122 then c - 32 else c

/-- `int` of a string: digits with a sign, between white space. -/
def int (s : List UInt8) : Option ℤ :=
  let s := s.dropWhile isSpaceByte
  let s := (s.reverse.dropWhile isSpaceByte).reverse
  let digits := match s with
    | [] => []
    | c :: s => if c = 43 ∨ c = 45 then s else c :: s
  if digits.all isDigitByte then scanInt s else none

/-- The letters N, J, R, W and E. -/
def stateOf (s : List UInt8) : Option PState :=
  match s with
  | [c] =>
      if c = 78 then some .new
      else if c = 74 then some .ready
      else if c = 82 then some .running
      else if c = 87 then some .waiting
      else if c = 69 then some .exit
      else none
  | _ => none

/-- The fields of a line, if it has three and the numbers can be read. -/
def fieldsOf (line : List UInt8) : Except MyError (ℤ × List UInt8 × ℤ) :=
  match splitTab line with
  | [pid, s, time] =>
      match int pid, int time with
      | some pid, some time => pure (pid, upper s, time)
      | _, _ => throw .valueError
  | _ => throw .badFormat

/-- The variables of the loop over the lines. -/
structure Parser where
  pool : List Process
  prevTime : ℤ
  prevLine : List UInt8

/-- The first two states of process 0. -/
def patched : Process where
  pid := 0
  states := [⟨.new, 40⟩, ⟨.running, 40⟩]
  nonempty := List.cons_ne_nil _ _

def Parser.start : Parser where
  pool := [patched]
  prevTime := 0
  prevLine := []

/-- The body of the loop. -/
def Parser.line (t : Parser) (line : List UInt8) : Except MyError Parser := do
  if line == t.prevLine then throw .sameLine
  let (pid, s, time) ← fieldsOf line
  if time < t.prevTime then throw .badTime
  match stateOf s with
  | none => throw .unknownState
  | some .new =>
      let pool ← newProcess pid time t.pool
      pure { pool, prevTime := time, prevLine := line }
  | some state =>
      let pool ← changeProcess pid state time t.pool
      pure { pool, prevTime := time, prevLine := line }

/-- The script up to the end of the log. -/
def parse (lines : List (List UInt8)) : Except MyError Parser :=
  lines.foldlM Parser.line .start

/-! ## The log as the script should see it -/

/-- What a line says about a process. -/
def addLine (pid : ℤ) (entries : List Entry) (line : List UInt8) : List Entry :=
  match fieldsOf line with
  | .error _ => entries
  | .ok (pid', s, time) =>
      if pid' = pid then
        match stateOf s with
        | none => entries
        | some .new => [⟨.new, time⟩]
        | some state => entries ++ [⟨state, time⟩]
      else entries

/-- The changes of a process in the log, from its last line N on. -/
def history (pid : ℤ) (lines : List (List UInt8)) : List Entry :=
  lines.foldl (addLine pid) (if pid = 0 then patched.states else [])

/-- Between two changes time passes only in a state that is counted: one that
does not begin at time zero and is not entered again. -/
def Counted (es : List Entry) : Prop :=
  es.tail.IsChain fun a b => a.time = 0 ∨ a.state = b.state → b.time = a.time

/-- The time from the first change to the next one. -/
def Process.newTime (p : Process) : ℤ :=
  match p.states with
  | a :: b :: _ => b.time - a.time
  | _ => 0

/-- The times of a process add up. -/
def Process.Accounts (p : Process) : Prop :=
  ∃ waiting cpu io, p.waitingTime = some waiting ∧ p.cpuTime = some cpu ∧ p.ioTime = some io ∧
    p.turnaroundTime = p.newTime + waiting + cpu + io

section

variable {p p' : Process} {ps ps' : List Process} {pid time : ℤ} {state : PState} {a b e : Entry}
  {es : List Entry} {t t' : Parser} {line : List UInt8} {lines : List (List UInt8)}

/-! ## One process -/

/-- One change after the other. -/
structure Follows (a b : Entry) : Prop where
  time : a.time ≤ b.time
  notExit : a.state ≠ .exit
  notNew : b.state ≠ .new

/-- The changes of a process that the script accepts. -/
structure Accepted (es : List Entry) : Prop where
  new : ∃ e, es.head? = some e ∧ e.state = .new ∧ 0 ≤ e.time
  chain : es.IsChain Follows

/-- The time in one state that the loop counts. -/
def countedTime (state : PState) : List Entry → ℤ
  | a :: b :: es =>
      (if a.state = state ∧ b.state ≠ state ∧ a.time ≠ 0 then b.time - a.time else 0) +
        countedTime state (b :: es)
  | _ => 0

/-- The time that no state counts. -/
def lostTime : List Entry → ℤ
  | a :: b :: es =>
      (if a.time = 0 ∨ a.state = b.state then b.time - a.time else 0) + lostTime (b :: es)
  | _ => 0

/-- The loop behind an entry. -/
theorem stateLoop_eq (state : PState) (h : (a :: es).IsChain Follows) (time : ℤ) :
    Process.stateLoop state es time (if a.state = state then a.time else 0) =
      some (time + countedTime state (a :: es)) := by
  induction es generalizing a time with
  | nil => exact congrArg some (Int.add_zero time).symm
  | cons b es ih =>
      obtain ⟨hfollows, hchain⟩ := List.isChain_cons_cons.1 h
      rw [Process.stateLoop, countedTime]
      by_cases hb : b.state = state
      · have hloop := ih hchain time
        rw [if_pos hb] at hloop
        rw [if_pos hb, hloop, if_neg fun hcount => hcount.2.1 hb, Int.zero_add]
      · have hloop (time : ℤ) := ih hchain time
        simp only [if_neg hb] at hloop
        rw [if_neg hb]
        by_cases ha : a.state = state
        · rw [if_pos ha]
          by_cases hzero : a.time = 0
          · rw [if_neg (not_not.2 hzero), if_neg fun hcount => hcount.2.2 hzero, Int.zero_add,
              hzero, hloop]
          · rw [if_pos hzero, if_pos hfollows.time, if_pos ⟨ha, hb, hzero⟩, hloop, Int.add_assoc]
        · rw [if_neg ha, if_neg (not_not.2 rfl), if_neg fun hcount => ha hcount.1, Int.zero_add,
            hloop]

/-- An interval is counted or lost. -/
theorem counted_or_lost (state : PState) (a b : Entry) (d : ℤ) :
    (if b.state ≠ state ∧ a.time ≠ 0 then d else 0) +
      (if a.time = 0 ∨ state = b.state then d else 0) = d := by
  by_cases hlost : a.time = 0 ∨ state = b.state
  · rw [if_pos hlost, if_neg, Int.zero_add]
    rintro ⟨hne, hzero⟩
    exact hlost.elim hzero fun heq => hne heq.symm
  · rw [if_neg hlost, if_pos, Int.add_zero]
    exact ⟨fun heq => hlost (.inr heq.symm), fun hzero => hlost (.inl hzero)⟩

/-- Every interval is counted in one state or lost. -/
theorem sum_countedTime (h : (a :: es).IsChain Follows) (ha : a.state ≠ .new) :
    countedTime .ready (a :: es) + countedTime .running (a :: es) +
      countedTime .waiting (a :: es) + lostTime (a :: es) =
      ((a :: es).getLast (List.cons_ne_nil a es)).time - a.time := by
  induction es generalizing a with
  | nil => exact (Int.sub_self a.time).symm
  | cons b es ih =>
      obtain ⟨hfollows, hchain⟩ := List.isChain_cons_cons.1 h
      have hrest := ih hchain hfollows.notNew
      have hnotExit := hfollows.notExit
      rw [List.getLast_cons_cons]
      simp only [countedTime, lostTime]
      -- the state of `a` is one of the three
      cases hstate : a.state with
      | new => exact absurd hstate ha
      | exit => exact absurd hstate hnotExit
      | ready =>
          have hpair := counted_or_lost .ready a b (b.time - a.time)
          simp only [reduceCtorEq, false_and, if_false, true_and]
          omega
      | running =>
          have hpair := counted_or_lost .running a b (b.time - a.time)
          simp only [reduceCtorEq, false_and, if_false, true_and]
          omega
      | waiting =>
          have hpair := counted_or_lost .waiting a b (b.time - a.time)
          simp only [reduceCtorEq, false_and, if_false, true_and]
          omega

theorem lostTime_nonneg (h : es.IsChain Follows) : 0 ≤ lostTime es := by
  induction es with
  | nil => exact le_rfl
  | cons a es ih =>
      cases es with
      | nil => exact le_rfl
      | cons b es =>
          obtain ⟨hfollows, hchain⟩ := List.isChain_cons_cons.1 h
          have hrest := ih hchain
          have htime := hfollows.time
          rw [lostTime]
          split <;> omega

theorem lostTime_eq_zero (h : es.IsChain Follows) : lostTime es = 0 ↔
    es.IsChain fun a b => a.time = 0 ∨ a.state = b.state → b.time = a.time := by
  induction es with
  | nil => exact iff_of_true rfl .nil
  | cons a es ih =>
      cases es with
      | nil => exact iff_of_true rfl (.singleton a)
      | cons b es =>
          obtain ⟨hfollows, hchain⟩ := List.isChain_cons_cons.1 h
          have hnonneg := lostTime_nonneg hchain
          have htime := hfollows.time
          rw [List.isChain_cons_cons, ← ih hchain, lostTime]
          split
          next hlost =>
            refine ⟨fun hsum => ⟨fun _ => by omega, by omega⟩, fun ⟨heq, hrest⟩ => ?_⟩
            rw [hrest, heq hlost]
            omega
          next hlost =>
            rw [Int.zero_add]
            exact ⟨fun hsum => ⟨fun h => absurd h hlost, hsum⟩, fun hrest => hrest.2⟩

/-- The accounting of a process. -/
theorem Accepted.accounts_iff (h : Accepted p.states) (hexit : p.last.state = .exit) :
    p.Accounts ↔ Counted p.states := by
  obtain ⟨⟨a, hhead, hnew, -⟩, hchain⟩ := h
  obtain ⟨pid, states, hne⟩ := p
  dsimp only at *
  match states, hne with
  | [a'], _ =>
      cases Option.some_inj.1 hhead
      have hlast : a.state = .exit := hexit
      rw [hnew] at hlast
      cases hlast
  | a' :: b :: es, hne =>
      cases Option.some_inj.1 hhead
      obtain ⟨hfollows, hrest⟩ := List.isChain_cons_cons.1 hchain
      have hloop (state : PState) (hstate : a.state ≠ state) :
          Process.stateLastTime ⟨pid, a :: b :: es, hne⟩ state =
            some (countedTime state (b :: es)) := by
        have heq := stateLoop_eq state hrest 0
        rw [Int.zero_add] at heq
        rw [Process.stateLastTime, Process.stateLoop, if_neg hstate, if_neg (not_not.2 rfl),
          Process.stateLoop, ← heq]
        by_cases hb : b.state = state
        · rw [if_pos hb, if_pos hb]
        · rw [if_neg hb, if_neg hb, if_neg (not_not.2 rfl)]
      have hsum := sum_countedTime hrest hfollows.notNew
      have hturnaround : Process.turnaroundTime ⟨pid, a :: b :: es, hne⟩ =
          ((b :: es).getLast (List.cons_ne_nil b es)).time - a.time := rfl
      have hnewTime : Process.newTime ⟨pid, a :: b :: es, hne⟩ = b.time - a.time := rfl
      rw [Counted, List.tail_cons, ← lostTime_eq_zero hrest, Process.Accounts, hturnaround, hnewTime,
        Process.waitingTime, Process.cpuTime, Process.ioTime, hloop .ready (by rw [hnew]; decide),
        hloop .running (by rw [hnew]; decide), hloop .waiting (by rw [hnew]; decide)]
      constructor
      · rintro ⟨waiting, cpu, io, hw, hc, hi, heq⟩
        cases hw
        cases hc
        cases hi
        omega
      · intro hzero
        exact ⟨_, _, _, rfl, rfl, rfl, by omega⟩

/-! ## The pool along the log -/

theorem accepted_new (h : 0 ≤ time) : Accepted [⟨.new, time⟩] :=
  ⟨⟨_, rfl, rfl, h⟩, .singleton _⟩

theorem accepted_patched : Accepted patched.states :=
  ⟨⟨_, rfl, rfl, by decide⟩, .cons_cons ⟨le_rfl, by decide, by decide⟩ (.singleton _)⟩

/-- A change is put behind the others. -/
theorem changeState_eq (h : p.changeState state time = .ok p') (hstate : state ≠ .new)
    (hp : Accepted p.states) : p'.pid = p.pid ∧ p'.states = p.states ++ [⟨state, time⟩] ∧
      Accepted p'.states := by
  unfold Process.changeState at h
  split at h
  next => cases h
  next htime =>
    split at h
    next => cases h
    next hexit =>
      split at h
      next => cases h
      next =>
        cases h
        obtain ⟨⟨a, hhead, hnew, hnonneg⟩, hchain⟩ := hp
        refine ⟨rfl, rfl, ⟨a, ?_, hnew, hnonneg⟩, ?_⟩
        · rw [List.head?_append, hhead]
          rfl
        · refine List.isChain_append.2 ⟨hchain, .singleton _, fun x hx y hy => ?_⟩
          have hlast : x = p.last := by
            rw [List.getLast?_eq_getLast_of_ne_nil p.nonempty] at hx
            exact (Option.some_inj.1 hx).symm
          have hentry : y = ⟨state, time⟩ := (Option.some_inj.1 hy).symm
          rw [hlast, hentry]
          exact ⟨not_lt.1 htime, hexit, hstate⟩

/-- The pool after some lines: each process once, with its history. -/
structure Pool (lines : List (List UInt8)) (ps : List Process) : Prop where
  distinct : (ps.map Process.pid).Nodup
  states : ∀ p ∈ ps, p.states = history p.pid lines
  accepted : ∀ p ∈ ps, Accepted p.states

theorem history_append (pid : ℤ) (lines : List (List UInt8)) (line : List UInt8) :
    history pid (lines ++ [line]) = addLine pid (history pid lines) line := by
  unfold history
  rw [List.foldl_append]
  rfl

theorem newProcess_eq (h : newProcess pid time ps = .ok ps') (hd : (ps.map Process.pid).Nodup) :
    (ps'.map Process.pid).Nodup ∧ (∀ q ∈ ps', q.pid = pid ∨ q.pid ∈ ps.map Process.pid) ∧
      ∀ q ∈ ps', q.pid = pid ∧ q.states = [⟨.new, time⟩] ∨ q.pid ≠ pid ∧ q ∈ ps := by
  induction ps generalizing ps' with
  | nil =>
      cases h
      refine ⟨List.nodup_singleton pid, fun q hq => ?_, fun q hq => ?_⟩
      · rw [List.mem_singleton.1 hq]
        exact .inl rfl
      · rw [List.mem_singleton.1 hq]
        exact .inl ⟨rfl, rfl⟩
  | cons p ps ih =>
      obtain ⟨hmem, hd'⟩ := List.nodup_cons.1 hd
      rw [newProcess] at h
      split at h
      next hpid =>
        split at h
        next => cases h
        next =>
          cases h
          refine ⟨hd, fun q hq => ?_, fun q hq => ?_⟩
          · rcases List.mem_cons.1 hq with rfl | hq
            · exact .inl hpid
            · exact .inr (List.mem_map_of_mem (List.mem_cons_of_mem p hq))
          · rcases List.mem_cons.1 hq with rfl | hq
            · exact .inl ⟨hpid, rfl⟩
            · refine .inr ⟨fun heq => hmem ?_, List.mem_cons_of_mem p hq⟩
              rw [hpid, ← heq]
              exact List.mem_map_of_mem hq
      next hpid =>
        cases hrest : newProcess pid time ps with
        | error e =>
            rw [hrest] at h
            cases h
        | ok ps₁ =>
            rw [hrest] at h
            cases h
            obtain ⟨hd₁, hpids, hcases⟩ := ih hrest hd'
            refine ⟨List.nodup_cons.2 ⟨fun hin => ?_, hd₁⟩, fun q hq => ?_, fun q hq => ?_⟩
            · obtain ⟨q, hq, heq⟩ := List.mem_map.1 hin
              rcases hpids q hq with hnew | hold
              · exact hpid (heq.symm.trans hnew)
              · exact hmem (heq ▸ hold)
            · rcases List.mem_cons.1 hq with rfl | hq
              · exact .inr List.mem_cons_self
              · exact (hpids q hq).imp_right (List.mem_cons_of_mem _)
            · rcases List.mem_cons.1 hq with rfl | hq
              · exact .inr ⟨hpid, List.mem_cons_self⟩
              · exact (hcases q hq).imp_right (And.imp_right (List.mem_cons_of_mem p))

theorem changeProcess_eq (h : changeProcess pid state time ps = .ok ps')
    (hd : (ps.map Process.pid).Nodup) (hstate : state ≠ .new)
    (hps : ∀ q ∈ ps, Accepted q.states) :
    ps'.map Process.pid = ps.map Process.pid ∧
      ∀ q ∈ ps', q.pid ≠ pid ∧ q ∈ ps ∨ q.pid = pid ∧ Accepted q.states ∧
        ∃ q₀ ∈ ps, q₀.pid = pid ∧ q.states = q₀.states ++ [⟨state, time⟩] := by
  induction ps generalizing ps' with
  | nil => cases h
  | cons p ps ih =>
      obtain ⟨hmem, hd'⟩ := List.nodup_cons.1 hd
      rw [changeProcess] at h
      split at h
      next hpid =>
        cases hchange : p.changeState state time with
        | error e =>
            rw [hchange] at h
            cases h
        | ok p₁ =>
            rw [hchange] at h
            cases h
            obtain ⟨hpid₁, hstates, haccepted⟩ :=
              changeState_eq hchange hstate (hps p List.mem_cons_self)
            refine ⟨congrArg (· :: ps.map Process.pid) hpid₁, fun q hq => ?_⟩
            rcases List.mem_cons.1 hq with rfl | hq
            · exact .inr ⟨hpid₁.trans hpid, haccepted, p, List.mem_cons_self, hpid, hstates⟩
            · refine .inl ⟨fun heq => hmem ?_, List.mem_cons_of_mem p hq⟩
              rw [hpid, ← heq]
              exact List.mem_map_of_mem hq
      next hpid =>
        cases hrest : changeProcess pid state time ps with
        | error e =>
            rw [hrest] at h
            cases h
        | ok ps₁ =>
            rw [hrest] at h
            cases h
            obtain ⟨hpids, hcases⟩ :=
              ih hrest hd' fun q hq => hps q (List.mem_cons_of_mem p hq)
            refine ⟨congrArg (p.pid :: ·) hpids, fun q hq => ?_⟩
            rcases List.mem_cons.1 hq with rfl | hq
            · exact .inl ⟨hpid, List.mem_cons_self⟩
            · refine (hcases q hq).imp (And.imp_right (List.mem_cons_of_mem p)) ?_
              rintro ⟨heq, haccepted, q₀, hq₀, hrest⟩
              exact ⟨heq, haccepted, q₀, List.mem_cons_of_mem p hq₀, hrest⟩

/-- What a line that is accepted does. -/
theorem line_cases (h : t.line line = .ok t') : ∃ pid s, fieldsOf line = .ok (pid, s, t'.prevTime) ∧
    t.prevTime ≤ t'.prevTime ∧
    (stateOf s = some .new ∧ newProcess pid t'.prevTime t.pool = .ok t'.pool ∨
      ∃ state, state ≠ .new ∧ stateOf s = some state ∧
        changeProcess pid state t'.prevTime t.pool = .ok t'.pool) := by
  unfold Parser.line at h
  split at h
  next => cases h
  next =>
    cases hfields : fieldsOf line with
    | error e =>
        rw [hfields] at h
        cases h
    | ok fields =>
        obtain ⟨pid, s, time⟩ := fields
        rw [hfields] at h
        dsimp only [bind, Except.bind, pure, Except.pure] at h
        split at h
        next => cases h
        next htime =>
          have hle : t.prevTime ≤ time := not_lt.1 htime
          cases hs : stateOf s with
          | none =>
              rw [hs] at h
              cases h
          | some state =>
              rw [hs] at h
              cases state with
              | new =>
                  dsimp only at h
                  cases hpool : newProcess pid time t.pool with
                  | error e =>
                      rw [hpool] at h
                      cases h
                  | ok pool =>
                      rw [hpool] at h
                      cases h
                      exact ⟨pid, s, rfl, hle, .inl ⟨hs, hpool⟩⟩
              | _ =>
                  dsimp only at h
                  split at h
                  next => cases h
                  next pool hpool =>
                    cases h
                    refine ⟨pid, s, rfl, hle, .inr ⟨_, ?_, hs, hpool⟩⟩
                    decide

theorem addLine_of_ne {pid' : ℤ} {s : List UInt8} (hfields : fieldsOf line = .ok (pid, s, time))
    (hne : pid' ≠ pid) (es : List Entry) : addLine pid' es line = es := by
  unfold addLine
  rw [hfields]
  exact if_neg hne.symm

theorem addLine_self {s : List UInt8} (hfields : fieldsOf line = .ok (pid, s, time))
    (hs : stateOf s = some state) (es : List Entry) : addLine pid es line =
      if state = .new then [⟨.new, time⟩] else es ++ [⟨state, time⟩] := by
  unfold addLine
  rw [hfields]
  dsimp only
  rw [if_pos rfl, hs]
  cases state <;> rfl

/-- One line. -/
theorem Pool.step (h : Pool lines t.pool) (hnonneg : 0 ≤ t.prevTime)
    (hline : t.line line = .ok t') : Pool (lines ++ [line]) t'.pool ∧ 0 ≤ t'.prevTime := by
  obtain ⟨pid, s, hfields, hle, hpool⟩ := line_cases hline
  have hnonneg' : 0 ≤ t'.prevTime := hnonneg.trans hle
  refine ⟨?_, hnonneg'⟩
  have hother (q : Process) (hq : q ∈ t.pool) (hne : q.pid ≠ pid) :
      q.states = history q.pid (lines ++ [line]) := by
    rw [history_append, addLine_of_ne hfields hne]
    exact h.states q hq
  rcases hpool with ⟨hs, hnew⟩ | ⟨state, hstate, hs, hchange⟩
  · obtain ⟨hd, -, hcases⟩ := newProcess_eq hnew h.distinct
    refine ⟨hd, fun q hq => ?_, fun q hq => ?_⟩
    · rcases hcases q hq with ⟨hpid, hstates⟩ | ⟨hne, hq⟩
      · rw [history_append, hstates, hpid, addLine_self hfields hs, if_pos rfl]
      · exact hother q hq hne
    · rcases hcases q hq with ⟨-, hstates⟩ | ⟨-, hq⟩
      · rw [hstates]
        exact accepted_new hnonneg'
      · exact h.accepted q hq
  · obtain ⟨hpids, hcases⟩ := changeProcess_eq hchange h.distinct hstate h.accepted
    refine ⟨hpids ▸ h.distinct, fun q hq => ?_, fun q hq => ?_⟩
    · rcases hcases q hq with ⟨hne, hq⟩ | ⟨hpid, -, q₀, hq₀, hpid₀, hstates⟩
      · exact hother q hq hne
      · rw [history_append, hpid, addLine_self hfields hs, if_neg hstate, hstates,
          h.states q₀ hq₀, hpid₀]
    · rcases hcases q hq with ⟨-, hq⟩ | ⟨-, haccepted, -⟩
      · exact h.accepted q hq
      · exact haccepted

/-- All lines, from any state of the loop. -/
theorem Pool.run (rest : List (List UInt8)) (h : Pool lines t.pool) (hnonneg : 0 ≤ t.prevTime)
    (hrun : rest.foldlM Parser.line t = .ok t') : Pool (lines ++ rest) t'.pool := by
  induction rest generalizing lines t with
  | nil =>
      cases hrun
      rwa [List.append_nil]
  | cons line rest ih =>
      rw [List.foldlM_cons] at hrun
      cases hline : t.line line with
      | error e =>
          rw [hline] at hrun
          cases hrun
      | ok t₁ =>
          rw [hline] at hrun
          obtain ⟨hpool, hnonneg₁⟩ := h.step hnonneg hline
          rw [List.append_cons]
          exact ih hpool hnonneg₁ hrun

theorem pool_start : Pool [] Parser.start.pool := by
  refine ⟨List.nodup_singleton _, fun q hq => ?_, fun q hq => ?_⟩
  · rw [List.mem_singleton.1 hq]
    rfl
  · rw [List.mem_singleton.1 hq]
    exact accepted_patched

/-- In every log that the script accepts the times of a process that has ended
add up exactly if no time passes in a state that begins at time zero or is
entered again. -/
theorem parse_accounts_iff (h : parse lines = .ok t) (hp : p ∈ t.pool) (hexit : p.last.state = .exit) :
    p.Accounts ↔ Counted (history p.pid lines) := by
  have hpool : Pool ([] ++ lines) t.pool := pool_start.run lines le_rfl h
  rw [List.nil_append] at hpool
  rw [← hpool.states p hp]
  exact (hpool.accepted p hp).accounts_iff hexit

end

/-- The bytes of a line. -/
def bytes (s : String) : List UInt8 := s.toList.map fun c => c.toNat.toUInt8

/-- A process is created, runs and ends. -/
def runLog : List (List UInt8) := ["1\tN\t48\n", "1\tR\t50\n", "1\tE\t60\n"].map bytes

/-- The idle process runs, runs again, and ends. -/
def idleLog : List (List UInt8) := ["0\tR\t50\n", "0\tE\t60\n"].map bytes

/-- Process 1 in `runLog`. -/
def runProcess : Process where
  pid := 1
  states := [⟨.new, 48⟩, ⟨.running, 50⟩, ⟨.exit, 60⟩]
  nonempty := List.cons_ne_nil _ _

theorem parse_runLog : parse runLog = .ok ⟨[patched, runProcess], 60, bytes "1\tE\t60\n"⟩ := rfl

theorem parse_accounts_iff_runLog : runProcess.Accounts ↔ Counted (history 1 runLog) :=
  parse_accounts_iff parse_runLog (List.mem_cons_of_mem _ List.mem_cons_self) rfl

/-- Process 0 in `idleLog`. -/
def idleProcess : Process where
  pid := 0
  states := [⟨.new, 40⟩, ⟨.running, 40⟩, ⟨.running, 50⟩, ⟨.exit, 60⟩]
  nonempty := List.cons_ne_nil _ _

/-- Ten of the twenty ticks of process 0 are counted. -/
theorem idleLog_not_accounts : parse idleLog = .ok ⟨[idleProcess], 60, bytes "0\tE\t60\n"⟩ ∧
    idleProcess.last.state = .exit ∧ ¬idleProcess.Accounts := by
  refine ⟨rfl, rfl, ?_⟩
  rintro ⟨waiting, cpu, io, hw, hc, hi, heq⟩
  cases hw
  cases hc
  cases hi
  exact absurd heq (by decide)

end MyJavaExample.Tools
