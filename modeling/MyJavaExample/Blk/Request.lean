import Mathlib.Algebra.Ring.Int.Defs
import Mathlib.Algebra.Ring.Nat
import Mathlib.Data.Int.Order.Basic
import Mathlib.Data.List.Perm.Subperm
import Mathlib.Data.Prod.Lex
import MyJavaExample.Lib.LinkedList
import MyJavaExample.Lib.Run
import MyJavaExample.Lib.Sweep

/-!
# The request queue: `kernel/blk_drv/ll_rw_blk.c` and `blk.h`

The requests of a device are a linked list in the array `request`, beginning
with the one in progress.  `add_request` never puts a request before that one
and otherwise keeps the order of an elevator; `end_request` takes the first
request out.
-/

namespace MyJavaExample.Blk

open Lib

def NR_REQUEST : ℕ := 32

def READ : ℤ := 0

def WRITE : ℤ := 1

/-- `struct request`, without its link. -/
structure Request where
  /-- `-1` if no request. -/
  dev : ℤ
  cmd : ℤ
  errors : ℤ
  sector : ℕ
  nrSectors : ℕ
  buffer : ℕ
deriving DecidableEq

/-- `IN_ORDER`. -/
def InOrder (s₁ s₂ : Request) : Prop :=
  s₁.cmd < s₂.cmd ∨ s₁.cmd = s₂.cmd ∧
    (s₁.dev < s₂.dev ∨ s₁.dev = s₂.dev ∧ s₁.sector < s₂.sector)

instance (s₁ s₂ : Request) : Decidable (InOrder s₁ s₂) := inferInstanceAs (Decidable (_ ∨ _))

/-- What `IN_ORDER` compares. -/
def Request.key (r : Request) : ℤ ×ₗ ℤ ×ₗ ℕ := toLex (r.cmd, toLex (r.dev, r.sector))

theorem key_lt_iff {s₁ s₂ : Request} : s₁.key < s₂.key ↔ InOrder s₁ s₂ := by
  simp only [Request.key, Prod.Lex.toLex_lt_toLex, InOrder]

/-- The array `request` and the list of one device. -/
structure Queue where
  request : ℕ → Request
  next : ℕ → Option ℕ
  /-- `current_request`. -/
  current : Option ℕ
  /-- The requests that were added and are not completed. -/
  pending : List ℕ

namespace Queue

variable (q : Queue)

/-- `req->next = tmp->next; tmp->next = req`. -/
def link (next : ℕ → Option ℕ) (req tmp : ℕ) : ℕ → Option ℕ :=
  Function.update (Function.update next req (next tmp)) tmp (some req)

/-- The loop of `add_request` and the insertion after it. -/
def place (request : ℕ → Request) (next : ℕ → Option ℕ) (req : ℕ) : ℕ → ℕ → ℕ → Option ℕ
  | 0, tmp => link next req tmp
  | fuel + 1, tmp =>
      match next tmp with
      | none => link next req tmp
      | some n =>
          if (InOrder (request tmp) (request req) ∨ ¬InOrder (request tmp) (request n)) ∧
              InOrder (request req) (request n) then link next req tmp
          else place request next req fuel n

def addRequest (req : ℕ) : Queue :=
  let q := { q with next := Function.update q.next req none, pending := req :: q.pending }
  match q.current with
  | none => { q with current := some req }
  | some tmp => { q with next := place q.request q.next req NR_REQUEST tmp }

/-- `end_request` where `CURRENT` is `cur`. -/
def endRequest (cur : ℕ) : Queue :=
  { q with
    request := Function.update q.request cur { q.request cur with dev := -1 }
    current := q.next cur
    pending := q.pending.erase cur }

def empty : Queue where
  request := fun _ => ⟨-1, 0, 0, 0, 0, 0⟩
  next := fun _ => none
  current := none
  pending := []

end Queue

inductive QueueAction where
  /-- `make_request` fills a request and adds it. -/
  | add (req : ℕ) (r : Request)
  | complete

namespace Queue

def step (q : Queue) : QueueAction → Queue
  | .add req r => { q with request := Function.update q.request req r }.addRequest req
  | .complete =>
      match q.current with
      | none => q
      | some cur => q.endRequest cur

/-- The request is a free one, and differs from the pending ones in command,
device or sector. -/
def Distinct (q : Queue) : QueueAction → Prop
  | .add req r => req < NR_REQUEST ∧ req ∉ q.pending ∧
      ∀ p ∈ q.pending, ((q.request p).cmd, (q.request p).dev, (q.request p).sector) ≠
        (r.cmd, r.dev, r.sector)
  | .complete => True

instance (q : Queue) : ∀ a, Decidable (q.Distinct a)
  | .add _ _ => inferInstanceAs (Decidable (_ ∧ _))
  | .complete => inferInstanceAs (Decidable True)

/-- The list has each pending request once, and is at most two runs in which
every request is in order with those after it. -/
def Disciplined (q : Queue) : Prop :=
  ∃ l, Seg q.next q.current l none ∧ l.Nodup ∧ l.Perm q.pending ∧
    ∃ a b, l = a ++ b ∧ a.Pairwise (fun x y => InOrder (q.request x) (q.request y)) ∧
      b.Pairwise fun x y => InOrder (q.request x) (q.request y)

/-! ## The list in the array -/

variable {q : Queue} {next : ℕ → Option ℕ} {req t : ℕ} {l : List ℕ}

theorem link_tmp (next : ℕ → Option ℕ) (req tmp : ℕ) : link next req tmp tmp = some req :=
  Function.update_self ..

theorem link_req (h : req ≠ t) : link next req t req = next t := by
  rw [link, Function.update_of_ne h, Function.update_self]

theorem link_of_ne {x : ℕ} (hr : x ≠ req) (ht : x ≠ t) : link next req t x = next x := by
  rw [link, Function.update_of_ne ht, Function.update_of_ne hr]

/-- The request is linked behind the first node. -/
theorem seg_link (hseg : Seg next (next t) l none) (hr : req ∉ t :: l) (ht : t ∉ l) :
    Seg (link next req t) (some t) (t :: req :: l) none := by
  obtain ⟨hrt, hrl⟩ : req ≠ t ∧ req ∉ l := by simpa using hr
  refine ⟨rfl, link_tmp next req t, ?_⟩
  rw [link_req hrt]
  exact hseg.congr fun x hx =>
    link_of_ne (ne_of_mem_of_not_mem hx hrl) (ne_of_mem_of_not_mem hx ht)

/-- The loop of `add_request` inserts into the list. -/
theorem place_spec {request : ℕ → Request} {fuel : ℕ} (hseg : Seg next (next t) l none)
    (hr : req ∉ t :: l) (hnd : (t :: l).Nodup) (hfuel : l.length ≤ fuel) :
    Seg (place request next req fuel t) (some t)
        (insertSweep (fun x => (request x).key) req t l) none ∧
      ∀ x, x ∉ t :: l → x ≠ req → place request next req fuel t x = next x := by
  have hout : ∀ (m : List ℕ) (x : ℕ), x ∉ t :: m → x ≠ req → link next req t x = next x :=
    fun m x hx hxr => link_of_ne hxr fun h => hx (h ▸ List.mem_cons_self)
  induction l generalizing t fuel with
  | nil =>
      have hstop : place request next req fuel t = link next req t := by
        cases fuel with
        | zero => rfl
        | succ fuel => rw [place, show next t = none from hseg]
      rw [hstop]
      exact ⟨seg_link hseg hr List.not_mem_nil, hout []⟩
  | cons n l ih =>
      obtain ⟨htn, htl⟩ : t ≠ n ∧ t ∉ l := by simpa using (List.nodup_cons.1 hnd).1
      cases fuel with
      | zero => simp at hfuel
      | succ fuel =>
          rw [place, hseg.1, insertSweep]
          simp only [key_lt_iff]
          split
          next => exact ⟨seg_link hseg hr (by simp [htn, htl]), hout (n :: l)⟩
          next =>
            have hr' : req ∉ n :: l := fun h => hr (List.mem_cons_of_mem t h)
            obtain ⟨hseg', hout'⟩ := ih hseg.2 hr' (List.nodup_cons.1 hnd).2
              (Nat.le_of_succ_le_succ hfuel)
              (fun m x hx hxr => link_of_ne hxr fun h => hx (h ▸ List.mem_cons_self))
            have hrt : t ≠ req := fun h => hr (h ▸ List.mem_cons_self)
            refine ⟨⟨rfl, ?_⟩, fun x hx hxr => hout' x (fun h => hx (List.mem_cons_of_mem t h)) hxr⟩
            rw [hout' t (by simp [htn, htl]) hrt, hseg.1]
            exact hseg'

/-! ## The invariant -/

/-- The list `l` has the pending requests in two sweeps. -/
structure Holds (q : Queue) (l : List ℕ) : Prop where
  seg : Seg q.next q.current l none
  nodup : l.Nodup
  lt : ∀ x ∈ l, x < NR_REQUEST
  perm : l.Perm q.pending
  runs : TwoRuns (fun x => (q.request x).key) l

theorem Holds.length_le (h : Holds q l) : l.length ≤ NR_REQUEST := by
  have hsub : l ⊆ List.range NR_REQUEST := fun x hx => List.mem_range.2 (h.lt x hx)
  simpa using (h.nodup.subperm hsub).length_le

theorem Holds.disciplined (h : Holds q l) : Disciplined q := by
  obtain ⟨a, b, hab, ha, hb⟩ := h.runs
  exact ⟨l, h.seg, h.nodup, h.perm, a, b, hab, ha.imp key_lt_iff.1, hb.imp key_lt_iff.1⟩

theorem Holds.add (h : Holds q l) {r : Request} (hok : q.Distinct (.add req r)) :
    ∃ l, Holds (q.step (.add req r)) l := by
  obtain ⟨hlt, hfree, hkeys⟩ := hok
  have hreq : req ∉ l := fun hx => hfree (h.perm.mem_iff.1 hx)
  have hsame : ∀ x ∈ l, (Function.update q.request req r x).key = (q.request x).key :=
    fun x hx => by rw [Function.update_of_ne (ne_of_mem_of_not_mem hx hreq)]
  have hseg := h.seg.update hreq none
  unfold Queue.step addRequest
  dsimp only
  cases hc : q.current with
  | none =>
      obtain rfl : l = [] := by
        rw [hc] at hseg
        cases l with
        | nil => rfl
        | cons t l => cases hseg.1
      refine ⟨[req], ⟨rfl, Function.update_self ..⟩, List.nodup_singleton req, ?_, ?_, ?_⟩
      · intro x hx
        rwa [List.mem_singleton.1 hx]
      · exact h.perm.cons req
      · exact Ascending.twoRuns (List.pairwise_singleton _ _)
  | some t =>
      rw [hc] at hseg
      cases l with
      | nil => cases hseg
      | cons t' l =>
          obtain ⟨ht, hseg⟩ := hseg
          cases ht
          have hfuel : l.length ≤ NR_REQUEST := Nat.le_of_succ_le h.length_le
          obtain ⟨hseg', -⟩ := @place_spec _ req t l (Function.update q.request req r) NR_REQUEST
            hseg hreq h.nodup hfuel
          have hperm := @perm_insertSweep _ _ _
            (fun x => (Function.update q.request req r x).key) req t l
          refine ⟨_, hseg', ?_, ?_, ?_, ?_⟩
          · exact hperm.nodup_iff.2 (List.nodup_cons.2 ⟨hreq, h.nodup⟩)
          · intro x hx
            rcases List.mem_cons.1 (hperm.mem_iff.1 hx) with rfl | hx
            · exact hlt
            · exact h.lt x hx
          · exact hperm.trans (h.perm.cons req)
          · refine (h.runs.congr hsame).insertSweep fun x hx heq => ?_
            rw [hsame x hx, Function.update_self] at heq
            refine hkeys x (h.perm.mem_iff.1 hx) ?_
            simpa [Request.key] using heq

theorem Holds.complete (h : Holds q l) : ∃ l, Holds (q.step .complete) l := by
  unfold Queue.step
  cases hc : q.current with
  | none => exact ⟨l, h⟩
  | some cur =>
      have hseg := h.seg
      rw [hc] at hseg
      cases l with
      | nil => cases hseg
      | cons t l =>
          obtain ⟨ht, hseg⟩ := hseg
          cases ht
          obtain ⟨hnot, hnd⟩ := List.nodup_cons.1 h.nodup
          refine ⟨l, hseg, hnd, fun x hx => h.lt x (List.mem_cons_of_mem cur hx), ?_, ?_⟩
          · have := h.perm.erase cur
            rwa [List.erase_cons_head] at this
          · refine h.runs.tail.congr fun x hx => ?_
            simp only [endRequest, Function.update_of_ne (ne_of_mem_of_not_mem hx hnot)]

/-- The queue of a device is always an elevator's. -/
theorem elevator_discipline (as : List QueueAction) (h : EachStep step Distinct empty as) :
    Always step Disciplined empty as := by
  refine EachStep.always (I := fun q => ∃ l, Holds q l) (fun q ⟨l, hl⟩ => hl.disciplined) ?_ ?_ h
  · rintro q a ⟨l, hl⟩ hok
    cases a with
    | add req r => exact hl.add hok
    | complete => exact hl.complete
  · exact ⟨[], rfl, List.nodup_nil, fun x hx => absurd hx List.not_mem_nil, .refl _,
      Ascending.twoRuns List.Pairwise.nil⟩

/-- Four requests, of which the first is completed before the last comes. -/
theorem elevator_discipline_four :
    let as := [.add 0 ⟨0x301, READ, 0, 6, 2, 0⟩, .add 1 ⟨0x301, WRITE, 0, 2, 2, 1024⟩,
      .add 2 ⟨0x301, READ, 0, 4, 2, 2048⟩, .complete, .add 0 ⟨0x301, READ, 0, 8, 2, 0⟩]
    EachStep step Distinct empty as ∧ Always step Disciplined empty as :=
  have h : EachStep step Distinct empty [.add 0 ⟨0x301, READ, 0, 6, 2, 0⟩,
      .add 1 ⟨0x301, WRITE, 0, 2, 2, 1024⟩, .add 2 ⟨0x301, READ, 0, 4, 2, 2048⟩, .complete,
      .add 0 ⟨0x301, READ, 0, 8, 2, 0⟩] := by decide +kernel
  ⟨h, elevator_discipline _ h⟩

end Queue

end MyJavaExample.Blk
