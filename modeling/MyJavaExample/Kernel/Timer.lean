import Mathlib.Data.Int.Notation
import Mathlib.Data.List.Perm.Subperm
import MyJavaExample.Lib.LinkedList
import MyJavaExample.Lib.Run

/-!
# Kernel timers: `add_timer` and `do_timer` of `kernel/sched.c`

The pending timers are a linked list in the array `timer_list`.  The `jiffies`
of a node count from the moment when the node before it fires.  `add_timer` puts
the new timer into the first node and moves it down by exchanging the contents
of neighbours, taking the time of each node that it passes from its own.

The time of the node that follows the new timer in the end should be reduced as
well.  This is not done, so a timer that is not the last one delays all timers
after it.  Where each timer is due after those before it, every callback is
called on time.
-/

namespace MyJavaExample.Kernel

open Lib

def TIME_REQUESTS : ℕ := 64

/-- The array `timer_list`, field by field, and `next_timer`.  `φ` are the
functions that can be called. -/
structure Timers (φ : Type*) where
  jiffies : ℕ → ℤ
  fn : ℕ → Option φ
  next : ℕ → Option ℕ
  nextTimer : Option ℕ
  panicked : Bool
  /-- The number of ticks up to now. -/
  ticks : ℤ
  /-- What was called, and on which tick. -/
  calls : List (φ × ℤ)
  /-- What was added, and the tick on which it is due. -/
  added : List (φ × ℤ)

namespace Timers

variable {φ : Type*} (s : Timers φ)

/-- One exchange: the new timer moves from `p` to the node `q` after it. -/
def swap (p q : ℕ) : Timers φ :=
  let left := s.jiffies p - s.jiffies q
  { s with
    jiffies := Function.update (Function.update s.jiffies p (s.jiffies q)) q left
    fn := Function.update (Function.update s.fn p (s.fn q)) q (s.fn p) }

/-- The loop of `add_timer`. -/
def sink : ℕ → Timers φ → ℕ → Timers φ
  | 0, s, _ => s
  | fuel + 1, s, p =>
      match s.next p with
      | none => s
      | some q => if s.jiffies q < s.jiffies p then sink fuel (s.swap p q) q else s

/-- The first node without a function. -/
def free : Option ℕ := (List.range TIME_REQUESTS).find? fun p => (s.fn p).isNone

def addTimer (jiffies : ℤ) (fn : Option φ) : Timers φ :=
  match fn with
  | none => s
  | some fn =>
      let s := { s with added := s.added ++ [(fn, s.ticks + jiffies)] }
      if jiffies ≤ 0 then { s with calls := s.calls ++ [(fn, s.ticks)] }
      else
        match s.free with
        | none => { s with panicked := true }
        | some p =>
            sink TIME_REQUESTS
              { s with
                fn := Function.update s.fn p (some fn)
                jiffies := Function.update s.jiffies p jiffies
                next := Function.update s.next p s.nextTimer
                nextTimer := some p } p

/-- The loop of `do_timer`. -/
def expire : ℕ → Timers φ → Timers φ
  | 0, s => s
  | fuel + 1, s =>
      match s.nextTimer with
      | none => s
      | some p =>
          if s.jiffies p ≤ 0 then
            expire fuel
              { s with
                fn := Function.update s.fn p none
                nextTimer := s.next p
                calls := s.calls ++ (s.fn p).toList.map fun fn => (fn, s.ticks) }
          else s

/-- The part of `do_timer` that is about timers. -/
def doTimer : Timers φ :=
  let s := { s with ticks := s.ticks + 1 }
  match s.nextTimer with
  | none => s
  | some p => expire TIME_REQUESTS { s with jiffies := Function.update s.jiffies p (s.jiffies p - 1) }

/-- Static storage is zero. -/
def boot : Timers φ where
  jiffies := fun _ => 0
  fn := fun _ => none
  next := fun _ => none
  nextTimer := none
  panicked := false
  ticks := 0
  calls := []
  added := []

end Timers

inductive TimerAction (φ : Type*) where
  | add (jiffies : ℤ) (fn : φ)
  | tick

namespace Timers

variable {φ : Type*}

def step (s : Timers φ) : TimerAction φ → Timers φ
  | .add jiffies fn => s.addTimer jiffies (some fn)
  | .tick => s.doTimer

/-- The timers that are not due yet. -/
def pending (s : Timers φ) : List (φ × ℤ) := s.added.filter fun a => s.ticks < a.2

/-- The calls of `add_timer` that are made: for a later tick, and with at most
64 timers pending. -/
def Valid (s : Timers φ) : TimerAction φ → Prop
  | .add jiffies _ => 1 ≤ jiffies ∧ s.pending.length < TIME_REQUESTS
  | .tick => True

/-- Up to now, exactly the timers that are due were called, each on its tick. -/
def OnTime (s : Timers φ) : Prop := s.calls.Perm (s.added.filter fun a => a.2 ≤ s.ticks)

/-- A new timer is due after all the others. -/
def LatestDue (s : Timers φ) : TimerAction φ → Prop
  | .add jiffies _ => ∀ a ∈ s.added, a.2 < s.ticks + jiffies
  | .tick => True

instance (s : Timers φ) : ∀ a, Decidable (s.Valid a)
  | .add _ _ => inferInstanceAs (Decidable (_ ∧ _))
  | .tick => inferInstanceAs (Decidable True)

instance (s : Timers φ) : ∀ a, Decidable (s.LatestDue a)
  | .add jiffies _ => inferInstanceAs (Decidable (∀ a ∈ s.added, a.2 < s.ticks + jiffies))
  | .tick => inferInstanceAs (Decidable True)

/-! ## Lists of time differences -/

/-- The functions of a list of differences, each with the tick on which it is
due. -/
def dues (now : ℤ) : List (ℤ × φ) → List (φ × ℤ)
  | [] => []
  | (jiffies, fn) :: l => (fn, now + jiffies) :: dues (now + jiffies) l

/-- What the loop of `add_timer` does to the list. -/
def insertDelta (jiffies : ℤ) (fn : φ) : List (ℤ × φ) → List (ℤ × φ)
  | [] => [(jiffies, fn)]
  | e :: l =>
      if e.1 < jiffies then e :: insertDelta (jiffies - e.1) fn l else (jiffies, fn) :: e :: l

theorem length_dues (now : ℤ) (l : List (ℤ × φ)) : (dues now l).length = l.length := by
  induction l generalizing now with
  | nil => rfl
  | cons e l ih => rw [dues, List.length_cons, ih, List.length_cons]

theorem lt_dues {now : ℤ} {l : List (ℤ × φ)} (hpos : ∀ e ∈ l, 0 < e.1) :
    ∀ a ∈ dues now l, now < a.2 := by
  induction l generalizing now with
  | nil => intro a ha; cases ha
  | cons e l ih =>
      intro a ha
      have he := hpos e List.mem_cons_self
      rcases List.mem_cons.1 ha with rfl | ha
      · dsimp only
        omega
      · have := ih (fun e he => hpos e (List.mem_cons_of_mem _ he)) a ha
        omega

/-- A timer that is due last goes to the end and leaves the others alone. -/
theorem dues_insertDelta {now jiffies : ℤ} {fn : φ} {l : List (ℤ × φ)}
    (hlast : ∀ a ∈ dues now l, a.2 < now + jiffies) :
    dues now (insertDelta jiffies fn l) = dues now l ++ [(fn, now + jiffies)] := by
  induction l generalizing now jiffies with
  | nil => rfl
  | cons e l ih =>
      have he : now + e.1 < now + jiffies := hlast _ List.mem_cons_self
      have hsum : now + e.1 + (jiffies - e.1) = now + jiffies := by omega
      rw [insertDelta, if_pos (by omega), dues, ih, dues, hsum, List.cons_append]
      intro a ha
      rw [hsum]
      exact hlast a (List.mem_cons_of_mem _ ha)

theorem insertDelta_pos {jiffies : ℤ} {fn : φ} {l : List (ℤ × φ)} (hj : 0 < jiffies)
    (hpos : ∀ e ∈ l, 0 < e.1) : ∀ e ∈ insertDelta jiffies fn l, 0 < e.1 := by
  induction l generalizing jiffies with
  | nil => simpa [insertDelta] using hj
  | cons e l ih =>
      have he := hpos e List.mem_cons_self
      have hl : ∀ e ∈ l, 0 < e.1 := fun e he => hpos e (List.mem_cons_of_mem _ he)
      rw [insertDelta]
      split
      next hlt =>
        intro x hx
        rcases List.mem_cons.1 hx with rfl | hx
        · exact he
        · exact ih (by omega) hl x hx
      next =>
        intro x hx
        rcases List.mem_cons.1 hx with rfl | hx
        · exact hj
        · exact hpos x hx

/-- No time is over. -/
theorem takeWhile_of_pos {l : List (ℤ × φ)} (hpos : ∀ e ∈ l, 0 < e.1) :
    l.takeWhile (fun e => decide (e.1 ≤ 0)) = [] ∧
      l.dropWhile (fun e => decide (e.1 ≤ 0)) = l := by
  cases l with
  | nil => exact ⟨rfl, rfl⟩
  | cons d l =>
      have hd : ¬d.1 ≤ 0 := by
        have := hpos d List.mem_cons_self
        omega
      exact ⟨List.takeWhile_cons_of_neg (by simpa using hd),
        List.dropWhile_cons_of_neg (by simpa using hd)⟩

/-! ## The array holds a list -/

/-- The contents of the nodes. -/
def contents (s : Timers φ) (nodes : List ℕ) : List (ℤ × Option φ) :=
  nodes.map fun p => (s.jiffies p, s.fn p)

/-- The pending timers are `l`, in the nodes `nodes`; all other nodes are free. -/
structure Rep (s : Timers φ) (nodes : List ℕ) (l : List (ℤ × φ)) : Prop where
  seg : Seg s.next s.nextTimer nodes none
  nodup : nodes.Nodup
  lt : ∀ p ∈ nodes, p < TIME_REQUESTS
  contents_eq : s.contents nodes = l.map fun e => (e.1, some e.2)
  free_eq : ∀ p, p ∉ nodes → s.fn p = none

variable {s : Timers φ} {nodes : List ℕ} {l : List (ℤ × φ)} {p : ℕ} {jiffies : ℤ} {fn : φ}

theorem Rep.length_eq (h : Rep s nodes l) : nodes.length = l.length := by
  have := congrArg List.length h.contents_eq
  simpa [contents] using this

theorem Rep.length_le (h : Rep s nodes l) : nodes.length ≤ TIME_REQUESTS := by
  have hsub : nodes ⊆ List.range TIME_REQUESTS := fun p hp => List.mem_range.2 (h.lt p hp)
  simpa using (h.nodup.subperm hsub).length_le

/-- The contents of nodes that keep theirs. -/
theorem contents_congr {s' : Timers φ} (hj : ∀ p ∈ nodes, s'.jiffies p = s.jiffies p)
    (hf : ∀ p ∈ nodes, s'.fn p = s.fn p) : s'.contents nodes = s.contents nodes :=
  List.map_congr_left fun p hp => by rw [hj p hp, hf p hp]

/-- The loop of `add_timer` moves the contents of `p` to its place. -/
theorem sink_spec {fuel : ℕ} (hseg : Seg s.next (s.next p) nodes none) (hnd : (p :: nodes).Nodup)
    (hc : s.contents nodes = l.map fun e => (e.1, some e.2)) (hj : s.jiffies p = jiffies)
    (hf : s.fn p = some fn) (hfuel : nodes.length ≤ fuel) :
    ∃ jiffies' fn', sink fuel s p = { s with jiffies := jiffies', fn := fn' } ∧
      (sink fuel s p).contents (p :: nodes) =
        (insertDelta jiffies fn l).map (fun e => (e.1, some e.2)) ∧
      ∀ q, q ∉ p :: nodes → jiffies' q = s.jiffies q ∧ fn' q = s.fn q := by
  induction nodes generalizing s p l jiffies fuel with
  | nil =>
      have hnext : s.next p = none := hseg
      have hl : l = [] := by simpa [contents] using hc.symm
      have hstop : sink fuel s p = s := by
        cases fuel with
        | zero => rfl
        | succ fuel => rw [sink, hnext]
      refine ⟨s.jiffies, s.fn, hstop, ?_, fun q _ => ⟨rfl, rfl⟩⟩
      rw [hstop, hl]
      simp [contents, insertDelta, hj, hf]
  | cons q nodes ih =>
      obtain ⟨hnext, hseg⟩ := hseg
      cases l with
      | nil => simp [contents] at hc
      | cons e l =>
          obtain ⟨hq, hrest⟩ : (s.jiffies q, s.fn q) = (e.1, some e.2) ∧
              s.contents nodes = l.map fun e => (e.1, some e.2) := List.cons.inj hc
          obtain ⟨hqj, hqf⟩ := Prod.mk.inj hq
          cases fuel with
          | zero => simp at hfuel
          | succ fuel =>
              rw [sink, hnext]
              simp only [hqj, hj, insertDelta]
              obtain ⟨hpq, hpn⟩ : p ≠ q ∧ p ∉ nodes := by simpa using (List.nodup_cons.1 hnd).1
              have hnd' := (List.nodup_cons.1 hnd).2
              have hqn : q ∉ nodes := (List.nodup_cons.1 hnd').1
              split
              next hlt =>
                have hswap : (s.swap p q).contents nodes = s.contents nodes := by
                  apply contents_congr <;> intro x hx
                  · simp [swap, ne_of_mem_of_not_mem hx hpn, ne_of_mem_of_not_mem hx hqn]
                  · simp [swap, ne_of_mem_of_not_mem hx hpn, ne_of_mem_of_not_mem hx hqn]
                obtain ⟨j', f', heq, hcont, hout⟩ :=
                  @ih (s.swap p q) l q (jiffies - e.1) fuel hseg hnd' (hswap.trans hrest)
                    (by simp [swap, hj, hqj]) (by simp [swap, hf]) (Nat.le_of_succ_le_succ hfuel)
                refine ⟨j', f', heq, ?_, fun x hx => ?_⟩
                · have hp : (sink fuel (s.swap p q) q).contents [p] = [(e.1, some e.2)] := by
                    obtain ⟨h₁, h₂⟩ := hout p (by simp [hpq, hpn])
                    rw [heq]
                    change [(j' p, f' p)] = _
                    rw [h₁, h₂]
                    simp [swap, hqj, hqf, hpq]
                  have happ : (sink fuel (s.swap p q) q).contents (p :: q :: nodes) =
                      (sink fuel (s.swap p q) q).contents [p] ++
                        (sink fuel (s.swap p q) q).contents (q :: nodes) := rfl
                  rw [happ, hp, hcont]
                  rfl
                · obtain ⟨hxp, hxq⟩ : x ≠ p ∧ x ∉ q :: nodes := by simpa using hx
                  obtain ⟨h₁, h₂⟩ := hout x hxq
                  have hxq' : x ≠ q := fun h => hxq (h ▸ List.mem_cons_self)
                  rw [h₁, h₂]
                  simp [swap, hxp, hxq']
              next =>
                refine ⟨s.jiffies, s.fn, rfl, ?_, fun x _ => ⟨rfl, rfl⟩⟩
                change (s.jiffies p, s.fn p) :: s.contents (q :: nodes) = _
                rw [hc, hj, hf]
                rfl

/-- The loop of `do_timer` calls and removes the timers whose time is over. -/
theorem Rep.expire {fuel : ℕ} (h : Rep s nodes l) (hfuel : nodes.length ≤ fuel) :
    ∃ nodes' next' fn', Rep (Timers.expire fuel s) nodes' (l.dropWhile fun e => e.1 ≤ 0) ∧
      Timers.expire fuel s =
        { s with
          nextTimer := next'
          fn := fn'
          calls := s.calls ++ (l.takeWhile fun e => e.1 ≤ 0).map fun e => (e.2, s.ticks) } := by
  induction nodes generalizing s l fuel with
  | nil =>
      obtain rfl : l = [] := List.length_eq_zero_iff.1 h.length_eq.symm
      have hnone : s.nextTimer = none := h.seg
      have hstop : Timers.expire fuel s = s := by
        cases fuel with
        | zero => rfl
        | succ fuel => rw [Timers.expire, hnone]
      rw [hstop]
      exact ⟨[], s.nextTimer, s.fn, h, by simp⟩
  | cons p nodes ih =>
      obtain ⟨hhead, hseg⟩ := h.seg
      cases l with
      | nil => exact absurd h.length_eq (by simp)
      | cons e l =>
          obtain ⟨hp, hrest⟩ : (s.jiffies p, s.fn p) = (e.1, some e.2) ∧
              s.contents nodes = l.map fun e => (e.1, some e.2) := List.cons.inj h.contents_eq
          obtain ⟨hpj, hpf⟩ := Prod.mk.inj hp
          cases fuel with
          | zero => simp at hfuel
          | succ fuel =>
              obtain ⟨hpn, hnd⟩ := List.nodup_cons.1 h.nodup
              rw [Timers.expire, hhead]
              simp only [hpj, hpf]
              split
              next hle =>
                rw [List.dropWhile_cons_of_pos (by simpa using hle),
                  List.takeWhile_cons_of_pos (by simpa using hle)]
                have hrep : Rep
                    { s with
                      fn := Function.update s.fn p none
                      nextTimer := s.next p
                      calls := s.calls ++ [(e.2, s.ticks)] } nodes l := by
                  refine ⟨hseg, hnd, fun x hx => h.lt x (List.mem_cons_of_mem p hx), ?_, ?_⟩
                  · rw [← hrest]
                    exact contents_congr (fun _ _ => rfl) fun x hx =>
                      Function.update_of_ne (ne_of_mem_of_not_mem hx hpn) ..
                  · intro x hx
                    by_cases hxp : x = p
                    · rw [hxp]
                      exact Function.update_self ..
                    · exact (Function.update_of_ne hxp ..).trans (h.free_eq x (by simp [hxp, hx]))
                obtain ⟨nodes', next', fn', hrep', heq⟩ := ih hrep (Nat.le_of_succ_le_succ hfuel)
                exact ⟨nodes', next', fn', hrep', by simpa using heq⟩
              next hgt =>
                rw [List.dropWhile_cons_of_neg (by simpa using hgt),
                  List.takeWhile_cons_of_neg (by simpa using hgt)]
                exact ⟨p :: nodes, s.nextTimer, s.fn, h, by simp⟩

/-! ## Every callback on its tick -/

/-- The timers that were added are the ones called and, in the order in which
they will be called, the pending ones. -/
structure Inv (s : Timers φ) : Prop where
  rep : ∃ nodes l, Rep s nodes l ∧ (∀ e ∈ l, 0 < e.1) ∧ s.added = s.calls ++ dues s.ticks l
  called : ∀ a ∈ s.calls, a.2 ≤ s.ticks

theorem Inv.boot : Inv (Timers.boot : Timers φ) where
  rep := ⟨[], [], ⟨rfl, List.nodup_nil, fun _ hp => absurd hp List.not_mem_nil, rfl,
    fun _ _ => rfl⟩, fun _ he => absurd he List.not_mem_nil, rfl⟩
  called _ ha := absurd ha List.not_mem_nil

theorem Inv.onTime (h : Inv s) : OnTime s := by
  obtain ⟨nodes, l, -, hpos, hadded⟩ := h.rep
  have hcalls : s.calls.filter (fun a => a.2 ≤ s.ticks) = s.calls :=
    List.filter_eq_self.2 fun a ha => decide_eq_true (h.called a ha)
  have hdues : (dues s.ticks l).filter (fun a => a.2 ≤ s.ticks) = [] :=
    List.filter_eq_nil_iff.2 fun a ha => by
      have := lt_dues hpos a ha
      simpa using this
  rw [OnTime, hadded, List.filter_append, hcalls, hdues, List.append_nil]

theorem Inv.pending_eq (h : Inv s) (hadded : s.added = s.calls ++ dues s.ticks l)
    (hpos : ∀ e ∈ l, 0 < e.1) : s.pending = dues s.ticks l := by
  have hcalls : s.calls.filter (fun a => s.ticks < a.2) = [] :=
    List.filter_eq_nil_iff.2 fun a ha => by
      have := h.called a ha
      simpa using this
  have hdues : (dues s.ticks l).filter (fun a => s.ticks < a.2) = dues s.ticks l :=
    List.filter_eq_self.2 fun a ha => decide_eq_true (lt_dues hpos a ha)
  rw [pending, hadded, List.filter_append, hcalls, hdues, List.nil_append]

theorem Rep.exists_free (h : Rep s nodes l) (hlt : l.length < TIME_REQUESTS) :
    ∃ p, s.free = some p ∧ p < TIME_REQUESTS ∧ p ∉ nodes := by
  cases hfree : s.free with
  | none =>
      -- all nodes would be pending
      rw [free, List.find?_eq_none] at hfree
      have hsub : List.range TIME_REQUESTS ⊆ nodes := by
        intro p hp
        by_contra hno
        exact hfree p hp (by rw [h.free_eq p hno]; rfl)
      have hle := ((List.nodup_range).subperm hsub).length_le
      rw [List.length_range, h.length_eq] at hle
      omega
  | some p =>
      rw [free] at hfree
      have hp := List.find?_some hfree
      have hmem := List.mem_of_find?_eq_some hfree
      refine ⟨p, rfl, List.mem_range.1 hmem, fun hin => ?_⟩
      have : (s.jiffies p, s.fn p) ∈ l.map fun e => (e.1, some e.2) := by
        rw [← h.contents_eq]
        exact List.mem_map_of_mem hin
      obtain ⟨e, -, he⟩ := List.mem_map.1 this
      rw [← (Prod.mk.inj he).2] at hp
      cases hp

/-- `add_timer` inserts the new timer into the list. -/
theorem Rep.addTimer (h : Rep s nodes l) (hj : 1 ≤ jiffies) (hlt : l.length < TIME_REQUESTS) :
    ∃ nodes', Rep (s.addTimer jiffies (some fn)) nodes' (insertDelta jiffies fn l) ∧
      (s.addTimer jiffies (some fn)).calls = s.calls ∧
      (s.addTimer jiffies (some fn)).ticks = s.ticks ∧
      (s.addTimer jiffies (some fn)).added = s.added ++ [(fn, s.ticks + jiffies)] := by
  obtain ⟨p, hfree, hp, hpn⟩ := h.exists_free hlt
  have hfree' : ({ s with added := s.added ++ [(fn, s.ticks + jiffies)] } : Timers φ).free =
      some p := hfree
  simp only [Timers.addTimer, if_neg (show ¬jiffies ≤ 0 by omega), hfree']
  generalize hs' : ({ s with
    added := s.added ++ [(fn, s.ticks + jiffies)]
    fn := Function.update s.fn p (some fn)
    jiffies := Function.update s.jiffies p jiffies
    next := Function.update s.next p s.nextTimer
    nextTimer := some p } : Timers φ) = s'
  have hnext : s'.next p = s.nextTimer := by
    rw [← hs']
    exact Function.update_self ..
  have hseg : Seg s'.next (s'.next p) nodes none := by
    rw [hnext, ← hs']
    exact h.seg.update hpn _
  have hc : s'.contents nodes = l.map fun e => (e.1, some e.2) := by
    rw [← h.contents_eq, ← hs']
    exact contents_congr
      (fun x hx => Function.update_of_ne (ne_of_mem_of_not_mem hx hpn) ..)
      fun x hx => Function.update_of_ne (ne_of_mem_of_not_mem hx hpn) ..
  have hnd : (p :: nodes).Nodup := List.nodup_cons.2 ⟨hpn, h.nodup⟩
  have hpj : s'.jiffies p = jiffies := by
    rw [← hs']
    exact Function.update_self ..
  have hpf : s'.fn p = some fn := by
    rw [← hs']
    exact Function.update_self ..
  obtain ⟨j', f', heq, hcont, hout⟩ := sink_spec hseg hnd hc hpj hpf h.length_le
  refine ⟨p :: nodes, ⟨?_, hnd, ?_, hcont, ?_⟩, ?_, ?_, ?_⟩
  · rw [heq]
    exact ⟨by rw [← hs'], hseg⟩
  · intro x hx
    rcases List.mem_cons.1 hx with rfl | hx
    · exact hp
    · exact h.lt x hx
  · intro x hx
    rw [heq]
    change f' x = none
    rw [(hout x hx).2, ← hs']
    obtain ⟨hxp, hxn⟩ : x ≠ p ∧ x ∉ nodes := by simpa using hx
    exact (Function.update_of_ne hxp ..).trans (h.free_eq x hxn)
  · rw [heq, ← hs']
  · rw [heq, ← hs']
  · rw [heq, ← hs']

theorem Inv.addTimer (h : Inv s) (hvalid : s.Valid (.add jiffies fn))
    (hlast : s.LatestDue (.add jiffies fn)) : Inv (s.addTimer jiffies (some fn)) := by
  obtain ⟨nodes, l, hrep, hpos, hadded⟩ := h.rep
  obtain ⟨hj, hlen⟩ := hvalid
  rw [h.pending_eq hadded hpos, length_dues] at hlen
  obtain ⟨nodes', hrep', hcalls, hticks, hadd⟩ := @Rep.addTimer _ s nodes l jiffies fn hrep hj hlen
  refine ⟨⟨nodes', _, hrep', insertDelta_pos (by omega) hpos, ?_⟩, ?_⟩
  · have hbefore : ∀ a ∈ dues s.ticks l, a.2 < s.ticks + jiffies := fun a ha =>
      hlast a (by rw [hadded]; exact List.mem_append_right _ ha)
    rw [hadd, hcalls, hticks, dues_insertDelta hbefore, hadded, List.append_assoc]
  · rw [hcalls, hticks]
    exact h.called

/-- The first timer is one tick nearer, and with it all the others. -/
theorem Rep.decrement {e : ℤ × φ} (h : Rep s (p :: nodes) (e :: l)) :
    Rep { s with
      ticks := s.ticks + 1
      jiffies := Function.update s.jiffies p (s.jiffies p - 1) } (p :: nodes)
      ((e.1 - 1, e.2) :: l) := by
  obtain ⟨hp, hrest⟩ : (s.jiffies p, s.fn p) = (e.1, some e.2) ∧
      s.contents nodes = l.map fun e => (e.1, some e.2) := List.cons.inj h.contents_eq
  obtain ⟨hpj, hpf⟩ := Prod.mk.inj hp
  have hpn := (List.nodup_cons.1 h.nodup).1
  refine ⟨h.seg, h.nodup, h.lt, ?_, h.free_eq⟩
  rw [List.map_cons, ← hrest]
  change (Function.update s.jiffies p (s.jiffies p - 1) p, s.fn p) :: _ = _
  rw [Function.update_self, hpj, hpf]
  congr 1
  exact contents_congr
    (fun x hx => Function.update_of_ne (ne_of_mem_of_not_mem hx hpn) ..) fun _ _ => rfl

theorem doTimer_some (hp : s.nextTimer = some p) :
    s.doTimer = Timers.expire TIME_REQUESTS
      { s with
        ticks := s.ticks + 1
        jiffies := Function.update s.jiffies p (s.jiffies p - 1) } := by
  unfold Timers.doTimer
  dsimp only
  split
  next hn =>
    rw [hp] at hn
    cases hn
  next q hq =>
    rw [hp] at hq
    cases hq
    rfl

theorem Inv.doTimer (h : Inv s) : Inv s.doTimer := by
  obtain ⟨nodes, l, hrep, hpos, hadded⟩ := h.rep
  have hcalled : ∀ a ∈ s.calls, a.2 ≤ s.ticks + 1 := fun a ha => by
    have := h.called a ha
    omega
  cases nodes with
  | nil =>
      obtain rfl : l = [] := List.length_eq_zero_iff.1 hrep.length_eq.symm
      have hnone : s.nextTimer = none := hrep.seg
      simp only [Timers.doTimer, hnone]
      exact ⟨⟨[], [], ⟨rfl, hrep.nodup, hrep.lt, rfl, hrep.free_eq⟩, hpos, hadded⟩, hcalled⟩
  | cons p nodes =>
      cases l with
      | nil => exact absurd hrep.length_eq (by simp)
      | cons e l =>
          have he : 0 < e.1 := hpos e List.mem_cons_self
          have hl : ∀ e ∈ l, 0 < e.1 := fun e he => hpos e (List.mem_cons_of_mem _ he)
          have hdues : dues s.ticks (e :: l) = dues (s.ticks + 1) ((e.1 - 1, e.2) :: l) := by
            have hsum : s.ticks + 1 + (e.1 - 1) = s.ticks + e.1 := by omega
            simp only [dues, hsum]
          rw [doTimer_some hrep.seg.1]
          obtain ⟨nodes', next', fn', hexp, heq⟩ := hrep.decrement.expire hrep.length_le
          by_cases hone : e.1 = 1
          · have hle : e.1 - 1 ≤ 0 := by omega
            obtain ⟨htake, hdrop⟩ := takeWhile_of_pos hl
            rw [List.dropWhile_cons_of_pos (by simpa using hle), hdrop] at hexp
            rw [List.takeWhile_cons_of_pos (by simpa using hle), htake] at heq
            refine ⟨⟨nodes', l, hexp, hl, ?_⟩, ?_⟩
            · rw [heq]
              change s.added = (s.calls ++ [(e.2, s.ticks + 1)]) ++ dues (s.ticks + 1) l
              rw [hadded, hdues, hone, List.append_assoc]
              simp [dues]
            · rw [heq]
              intro a ha
              rcases List.mem_append.1 ha with ha | ha
              · exact hcalled a ha
              · exact Int.le_of_eq (congrArg Prod.snd (List.mem_singleton.1 ha))
          · have hpos' : ∀ x ∈ (e.1 - 1, e.2) :: l, 0 < x.1 := by
              intro x hx
              rcases List.mem_cons.1 hx with rfl | hx
              · dsimp only
                omega
              · exact hl x hx
            obtain ⟨htake, hdrop⟩ := takeWhile_of_pos hpos'
            rw [hdrop] at hexp
            rw [htake] at heq
            refine ⟨⟨nodes', _, hexp, hpos', ?_⟩, ?_⟩
            · rw [heq]
              change s.added = (s.calls ++ []) ++ dues (s.ticks + 1) _
              rw [hadded, hdues, List.append_nil]
            · rw [heq]
              change ∀ a ∈ s.calls ++ [], a.2 ≤ s.ticks + 1
              rwa [List.append_nil]

theorem Inv.step (h : Inv s) {a : TimerAction φ} (hok : s.Valid a ∧ s.LatestDue a) :
    Inv (s.step a) := by
  cases a with
  | add jiffies fn => exact h.addTimer hok.1 hok.2
  | tick => exact h.doTimer

/-- If every timer is due after those that were added before it, each callback is
called once, on its tick. -/
theorem timers_on_time (as : List (TimerAction φ))
    (hvalid : EachStep Timers.step Valid Timers.boot as)
    (h : EachStep Timers.step LatestDue Timers.boot as) :
    Always Timers.step OnTime Timers.boot as :=
  (hvalid.and h).always (fun _ hs => hs.onTime) (fun _ _ hs hok => hs.step hok) Inv.boot

/-- Two timers that fire, and a third one. -/
theorem timers_on_time_three :
    let as : List (TimerAction ℕ) := [.add 2 7, .tick, .add 3 8, .tick, .tick, .add 2 9, .tick, .tick]
    (EachStep Timers.step Valid Timers.boot as ∧ EachStep Timers.step LatestDue Timers.boot as) ∧
      Always Timers.step OnTime Timers.boot as :=
  have hvalid : EachStep Timers.step Valid (Timers.boot : Timers ℕ)
      [.add 2 7, .tick, .add 3 8, .tick, .tick, .add 2 9, .tick, .tick] := by decide +kernel
  have h : EachStep Timers.step LatestDue (Timers.boot : Timers ℕ)
      [.add 2 7, .tick, .add 3 8, .tick, .tick, .add 2 9, .tick, .tick] := by decide +kernel
  ⟨⟨hvalid, h⟩, timers_on_time _ hvalid h⟩

/-- A timer of two ticks is put before one of five, which is then late. -/
theorem timer_delayed :
    ¬∀ as : List (TimerAction ℕ), EachStep Timers.step Valid Timers.boot as →
      Always Timers.step OnTime Timers.boot as := by
  intro h
  have hlast := (h [.add 5 7, .add 2 8, .tick, .tick, .tick, .tick, .tick] (by decide +kernel)).last
  revert hlast
  unfold OnTime
  decide +kernel

end Timers

end MyJavaExample.Kernel
