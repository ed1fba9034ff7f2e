import Mathlib.Data.List.Nodup
import MyJavaExample.Fs.BlockTree

/-!
# `truncate` frees the tree of an inode

`free_ind` and `free_dind` are `freeWith` of what frees the entries.  So the zones
that each of them frees are those in a list of slots, which is built in the same
way: `below`.
-/

namespace MyJavaExample.Fs

open Lib

variable {inode inode' : Inode} {d d' d'' : Device} {s s' p : Slot} {i j x z : ℕ} {l l' : List ℕ}

/-! ## Freeing a list of zones -/

/-- The zones of the list can be freed. -/
def Freeable (l : List ℕ) (d : Device) : Prop :=
  l.Nodup ∧ ∀ z ∈ l, d.DataZone z ∧ d.Used z ∧ d.count z = 0

/-- The zones of the list have been freed, and nothing else has changed. -/
structure Freed (l : List ℕ) (d d' : Device) : Prop where
  same : d' = { d with zmap := d'.zmap }
  cleared : ∀ z ∈ l, d'.bits (d.nr z) = some false
  kept : ∀ k, (∀ z ∈ l, d.nr z ≠ k) → d'.bits k = d.bits k

theorem freed_nil : Freed [] d d := ⟨rfl, fun _ h => absurd h List.not_mem_nil, fun _ _ => rfl⟩

theorem Freed.nr (h : Freed l d d') : d'.nr = d.nr := by
  have hsame := h.same
  rw [hsame]
  rfl

theorem Freed.append (h : Freed l d d') (h' : Freed l' d' d'') : Freed (l ++ l') d d'' := by
  have hsame := h.same
  refine ⟨?_, fun z hz => ?_, fun k hk => ?_⟩
  · rw [h'.same, hsame]
  · by_cases hz' : ∃ z' ∈ l', d.nr z' = d.nr z
    · obtain ⟨z', hmem, heq⟩ := hz'
      rw [← heq, ← h.nr]
      exact h'.cleared z' hmem
    · have hnot : ∀ z' ∈ l', d'.nr z' ≠ d.nr z := by
        rw [h.nr]
        exact fun z' hmem heq => hz' ⟨z', hmem, heq⟩
      rw [h'.kept _ hnot]
      rcases List.mem_append.1 hz with hz | hz
      · exact h.cleared z hz
      · exact absurd ⟨z, hz, rfl⟩ hz'
  · rw [h'.kept k, h.kept k fun z hz => hk z (List.mem_append_left _ hz)]
    rw [h.nr]
    exact fun z hz => hk z (List.mem_append_right _ hz)

theorem Freeable.of_append (h : Freeable (l ++ l') d) : Freeable l d :=
  ⟨(List.nodup_append.1 h.1).1, fun z hz => h.2 z (List.mem_append_left _ hz)⟩

/-- What is still to be freed. -/
theorem Freeable.rest (h : Freeable (l ++ l') d) (hf : Freed l d d') : Freeable l' d' := by
  have hsame := hf.same
  refine ⟨(List.nodup_append.1 h.1).2.1, fun z hz => ?_⟩
  obtain ⟨hdata, hused, hcount⟩ := h.2 z (List.mem_append_right _ hz)
  refine ⟨by rw [hsame]; exact hdata, ?_, by rw [hsame]; exact hcount⟩
  unfold Device.Used
  rw [hf.nr, hf.kept]
  · exact hused
  · intro y hy heq
    have hyz : y = z := (h.2 y (List.mem_append_left _ hy)).1.nr_inj hdata heq
    exact (List.nodup_append.1 h.1).2.2 y hy z hz hyz

theorem freeBlock_freed (h : Freeable [z] d) : ∃ d', d.freeBlock z = .ok d' ∧ Freed [z] d d' := by
  obtain ⟨hdata, hused, hcount⟩ := h.2 z (List.mem_singleton_self z)
  obtain ⟨zmap, heq, hbits⟩ := Device.freeBlock_eq hdata hused hcount
  refine ⟨_, heq, rfl, fun y hy => ?_, fun k hk => ?_⟩
  · rw [List.mem_singleton.1 hy, hbits, Function.update_self]
  · rw [hbits, Function.update_of_ne (hk z (List.mem_singleton_self z)).symm]

/-! ## The zones in slots -/

theorem Slot.read_congr (hdata : d'.data = d.data) (hread : d'.readable = d.readable) (s : Slot) :
    s.read inode d' = s.read inode d := by
  induction s with
  | zone i => rfl
  | entry s j ih => rw [Slot.read, Slot.read, ih, Device.child, Device.child, hdata, hread]

theorem TreeReadable.congr (h : TreeReadable inode d) (hdata : d'.data = d.data)
    (hread : d'.readable = d.readable) : TreeReadable inode d' := by
  intro s hs hne
  rw [Slot.read_congr hdata hread] at hne ⊢
  rw [hread]
  exact h s hs hne

/-- The zones in the slots of a list. -/
def zonesIn (inode : Inode) (d : Device) (l : List Slot) : List ℕ :=
  (l.map fun s => s.read inode d).filter (· ≠ 0)

theorem zonesIn_append (l l' : List Slot) :
    zonesIn inode d (l ++ l') = zonesIn inode d l ++ zonesIn inode d l' := by
  simp [zonesIn]

theorem zonesIn_eq_nil {l : List Slot} : zonesIn inode d l = [] ↔ ∀ s ∈ l, s.read inode d = 0 := by
  simp [zonesIn]

theorem mem_zonesIn {l : List Slot} : z ∈ zonesIn inode d l ↔ z ≠ 0 ∧ ∃ s ∈ l, s.read inode d = z := by
  simp [zonesIn, and_comm]

theorem zonesIn_congr (hdata : d'.data = d.data) (hread : d'.readable = d.readable)
    (l : List Slot) : zonesIn inode d' l = zonesIn inode d l := by
  unfold zonesIn
  simp only [Slot.read_congr hdata hread]

/-- The slots in the tree under a slot, if `g` gives those under its entries. -/
def below (g : Slot → List Slot) (s : Slot) : List Slot :=
  ((List.range 512).flatMap fun j => g (.entry s j)) ++ [s]

/-- `free` of the zone in a slot frees the zones in the slots that `g` gives. -/
structure Frees (inode : Inode) (free : ℕ → Device → Except String Device) (g : Slot → List Slot)
    (s : Slot) : Prop where
  zero : ∀ d, s.read inode d = 0 → zonesIn inode d (g s) = []
  freed : ∀ d, TreeReadable inode d → s.read inode d ≠ 0 → Freeable (zonesIn inode d (g s)) d →
    ∃ d', free (s.read inode d) d = .ok d' ∧ Freed (zonesIn inode d (g s)) d d'

theorem frees_leaf (s : Slot) : Frees inode (fun z d => d.freeBlock z) (fun s => [s]) s where
  zero d h := by simp [zonesIn, h]
  freed d _ hne h := by
    have hzones : zonesIn inode d [s] = [s.read inode d] := by simp [zonesIn, hne]
    rw [hzones] at h ⊢
    exact freeBlock_freed h

/-- The loop over the entries of the indirect block in `p`. -/
theorem freeEntries_freed {free : ℕ → Device → Except String Device} {g : Slot → List Slot} {n b : ℕ}
    (hg : ∀ j < 512, Frees inode free g (.entry p j)) (hn : i + n ≤ 512)
    (hd : TreeReadable inode d) (hp : p.Indirect) (hb : p.read inode d = b) (hne : b ≠ 0)
    (h : Freeable (zonesIn inode d ((List.range' i n).flatMap fun j => g (.entry p j))) d) :
    ∃ d', freeEntries free b n i d = .ok d' ∧
      Freed (zonesIn inode d ((List.range' i n).flatMap fun j => g (.entry p j))) d d' := by
  induction n generalizing i d with
  | zero => exact ⟨d, rfl, freed_nil⟩
  | succ n ih =>
      rw [List.range'_succ, List.flatMap_cons, zonesIn_append] at h ⊢
      have hentry := hg i (by omega)
      have hread : (Slot.entry p i).read inode d = (d.data b).short i := by
        subst hb
        exact Device.child_readable hne (hd p hp.valid hne) i
      have hstep : ∃ d', Freed (zonesIn inode d (g (.entry p i))) d d' ∧
          freeEntries free b (n + 1) i d = freeEntries free b n (i + 1) d' := by
        rw [freeEntries]
        simp only [← hread]
        by_cases hz : (Slot.entry p i).read inode d = 0
        · rw [if_pos hz, hentry.zero d hz]
          exact ⟨d, freed_nil, rfl⟩
        · obtain ⟨d', heq, hf⟩ := hentry.freed d hd hz h.of_append
          rw [if_neg hz, heq]
          exact ⟨d', hf, rfl⟩
      obtain ⟨d', hf, heq⟩ := hstep
      have hdata : d'.data = d.data := by rw [hf.same]
      have hreadable : d'.readable = d.readable := by rw [hf.same]
      have hrest := h.rest hf
      rw [← zonesIn_congr hdata hreadable] at hrest
      obtain ⟨d'', heq', hf'⟩ := ih (by omega) (hd.congr hdata hreadable)
        ((Slot.read_congr hdata hreadable p).trans hb) hrest
      rw [zonesIn_congr hdata hreadable] at hf'
      exact ⟨d'', heq.trans heq', hf.append hf'⟩

/-- `free_ind` and `free_dind`. -/
theorem frees_below {free : ℕ → Device → Except String Device} {g : Slot → List Slot}
    (hg : ∀ j < 512, Frees inode free g (.entry s j)) (hs : s.Indirect) :
    Frees inode (freeWith free) (below g) s where
  zero d h := by
    rw [below, zonesIn_eq_nil]
    intro t ht
    rcases List.mem_append.1 ht with ht | ht
    · obtain ⟨j, hj, ht⟩ := List.mem_flatMap.1 ht
      have hentry : (Slot.entry s j).read inode d = 0 := by
        rw [Slot.read, h, Device.child_zero]
      exact zonesIn_eq_nil.1 ((hg j (List.mem_range.1 hj)).zero d hentry) t ht
    · rw [List.mem_singleton.1 ht, h]
  freed d hd hne h := by
    have hread := hd s hs.valid hne
    rw [below, zonesIn_append] at h ⊢
    have hself : zonesIn inode d [s] = [s.read inode d] := by simp [zonesIn, hne]
    rw [hself] at h ⊢
    generalize hb : s.read inode d = b at *
    have hcount : d.count b = 0 := (h.2 b (List.mem_append_right _ (List.mem_singleton_self b))).2.2
    have hroom : d.count b ≠ 255 := by
      rw [hcount]
      decide
    have hdata : (d.take b).data = d.data := rfl
    have hreadable : (d.take b).readable = d.readable := rfl
    -- While the entries are freed the block itself is held.
    have hentries : Freeable (zonesIn inode (d.take b)
        ((List.range' 0 512).flatMap fun j => g (.entry s j))) (d.take b) := by
      rw [zonesIn_congr hdata hreadable, ← List.range_eq_range']
      refine ⟨h.of_append.1, fun z hz => ?_⟩
      obtain ⟨hz', hused, hzero⟩ := h.of_append.2 z hz
      have hzb : z ≠ b := (List.nodup_append.1 h.1).2.2 z hz b (List.mem_singleton_self b)
      exact ⟨hz', hused, (Function.update_of_ne hzb ..).trans hzero⟩
    obtain ⟨d₁, heq, hf⟩ := freeEntries_freed hg (le_refl _) (hd.congr hdata hreadable) hs
      ((Slot.read_congr hdata hreadable s).trans hb) hne hentries
    rw [zonesIn_congr hdata hreadable, ← List.range_eq_range'] at hf
    have hcount₁ : d₁.count = (d.take b).count := by rw [hf.same]
    have hf' : Freed (zonesIn inode d ((List.range 512).flatMap fun j => g (.entry s j))) d
        { d₁ with count := d.count } := by
      refine ⟨?_, hf.cleared, hf.kept⟩
      rw [hf.same]
      rfl
    obtain ⟨d₂, heq', hf''⟩ := freeBlock_freed (h.rest hf')
    refine ⟨d₂, ?_, hf'.append hf''⟩
    unfold freeWith
    rw [if_neg hne, Device.bread_readable hread]
    simp only [bind, Except.bind, heq, Device.brelse_of_count hcount₁ hroom]
    exact heq'

/-! ## The direct zones -/

/-- The inode without the zones from `i` on, `n` of them. -/
def Inode.clearZones (inode : Inode) (i n : ℕ) : Inode :=
  { inode with zone := fun k => if i ≤ k ∧ k < i + n then 0 else inode.zone k }

theorem clearZones_zero (inode : Inode) (i : ℕ) : inode.clearZones i 0 = inode := by
  unfold Inode.clearZones
  congr 1
  funext k
  rw [if_neg (by omega)]

theorem clearZones_succ (inode : Inode) (i n : ℕ) :
    ({ inode with zone := Function.update inode.zone i 0 } : Inode).clearZones (i + 1) n =
      inode.clearZones i (n + 1) := by
  unfold Inode.clearZones
  congr 1
  funext k
  dsimp only
  by_cases hk : k = i
  · subst hk
    rw [if_neg (by omega), if_pos (by omega), Function.update_self]
  · rw [Function.update_of_ne hk]
    exact if_congr (by omega) rfl rfl

theorem freeDirect_freed {n : ℕ}
    (h : Freeable (((List.range' i n).map inode.zone).filter (· ≠ 0)) d) :
    ∃ d', freeDirect n i inode d = .ok (inode.clearZones i n, d') ∧
      Freed (((List.range' i n).map inode.zone).filter (· ≠ 0)) d d' := by
  induction n generalizing i inode d with
  | zero => exact ⟨d, by rw [clearZones_zero]; rfl, freed_nil⟩
  | succ n ih =>
      rw [List.range'_succ, List.map_cons] at h ⊢
      have hzones : ((List.range' (i + 1) n).map (Function.update inode.zone i 0)) =
          (List.range' (i + 1) n).map inode.zone := by
        refine List.map_congr_left fun k hk => Function.update_of_ne ?_ ..
        have hk := (List.mem_range'_1.1 hk).1
        omega
      rw [freeDirect]
      by_cases hz : inode.zone i = 0
      · have hupdate : ({ inode with zone := Function.update inode.zone i 0 } : Inode) = inode := by
          rw [← hz, Function.update_eq_self]
        rw [if_pos hz]
        rw [List.filter_cons_of_neg (by simpa using hz)] at h ⊢
        obtain ⟨d', heq, hf⟩ := ih h
        rw [← clearZones_succ, hupdate]
        exact ⟨d', heq, hf⟩
      · rw [if_neg hz]
        rw [List.filter_cons_of_pos (by simpa using hz)] at h ⊢
        obtain ⟨d₁, heq, hf⟩ := freeBlock_freed (Freeable.of_append (l := [_]) h)
        have hrest : Freeable (((List.range' (i + 1) n).map
            ({ inode with zone := Function.update inode.zone i 0 } : Inode).zone).filter (· ≠ 0)) d₁ := by
          rw [hzones]
          exact Freeable.rest (l := [_]) h hf
        obtain ⟨d', heq', hf'⟩ := ih hrest
        refine ⟨d', ?_, ?_⟩
        · rw [← clearZones_succ]
          simp only [bind, Except.bind, heq]
          exact heq'
        · rw [hzones] at hf'
          exact hf.append hf'

/-! ## `truncate` -/

/-- The slots of an inode, in the order in which `truncate` frees them. -/
def treeSlots : List Slot :=
  (List.range 7).map .zone ++
    (below (fun s => [s]) (.zone 7) ++ below (below fun s => [s]) (.zone 8))

theorem mem_below {g : Slot → List Slot} {t : Slot} :
    t ∈ below g s ↔ (∃ j < 512, t ∈ g (.entry s j)) ∨ t = s := by
  simp [below]

theorem mem_treeSlots : s ∈ treeSlots ↔ s.Valid := by
  simp only [treeSlots, List.mem_append, List.mem_map, List.mem_range, mem_below,
    List.mem_singleton]
  constructor
  · rintro (⟨i, hi, rfl⟩ | (⟨j, hj, rfl⟩ | rfl) | ⟨i, hi, ⟨j, hj, rfl⟩ | rfl⟩ | rfl)
    · exact Nat.lt_trans hi (by decide)
    · exact ⟨.inl rfl, hj⟩
    · exact show 7 < 9 by decide
    · exact ⟨⟨rfl, hi⟩, hj⟩
    · exact ⟨.inr rfl, hi⟩
    · exact show 8 < 9 by decide
  · intro h
    cases s with
    | zone i =>
        have hi : i < 7 ∨ i = 7 ∨ i = 8 := by
          simp only [Slot.Valid] at h
          omega
        rcases hi with hi | rfl | rfl
        · exact .inl ⟨i, hi, rfl⟩
        · exact .inr (.inl (.inr rfl))
        · exact .inr (.inr (.inr rfl))
    | entry s j =>
        obtain ⟨hind, hj⟩ := h
        cases s with
        | zone i =>
            rcases hind with rfl | rfl
            · exact .inr (.inl (.inl ⟨j, hj, rfl⟩))
            · exact .inr (.inr (.inl ⟨j, hj, .inr rfl⟩))
        | entry s i =>
            cases s with
            | zone k =>
                obtain ⟨rfl, hi⟩ := hind
                exact .inr (.inr (.inl ⟨i, hi, .inl ⟨j, hj, rfl⟩⟩))
            | entry s k => exact hind.elim

/-- How many indirect blocks are above a slot. -/
def Slot.depth : Slot → ℕ
  | .zone _ => 0
  | .entry s _ => s.depth + 1

theorem Slot.depth_le_of_mem_path (h : s' ∈ s.path) : s'.depth ≤ s.depth := by
  induction s with
  | zone i => rw [List.mem_singleton.1 h]
  | entry s j ih =>
      rcases List.mem_cons.1 h with rfl | h
      · exact le_refl _
      · exact Nat.le_succ_of_le (ih h)

theorem Slot.path_inj {t : Slot} (h : s ∈ t.path) (h' : s' ∈ t.path) (hdepth : s.depth = s'.depth) :
    s = s' := by
  induction t with
  | zone i => rw [List.mem_singleton.1 h, List.mem_singleton.1 h']
  | entry t j ih =>
      rcases List.mem_cons.1 h with rfl | h <;> rcases List.mem_cons.1 h' with rfl | h'
      · rfl
      · exact absurd (hdepth ▸ depth_le_of_mem_path h') (Nat.not_succ_le_self _)
      · exact absurd (hdepth ▸ depth_le_of_mem_path h) (Nat.not_succ_le_self _)
      · exact ih h h'

theorem Slot.mem_path_trans {t : Slot} (h : s ∈ s'.path) (h' : s' ∈ t.path) : s ∈ t.path := by
  induction t with
  | zone i =>
      rw [List.mem_singleton.1 h'] at h
      exact h
  | entry t j ih =>
      rcases List.mem_cons.1 h' with rfl | h'
      · exact h
      · exact List.mem_cons_of_mem _ (ih h')

/-- A list of distinct slots under `s`. -/
def Under (s : Slot) (l : List Slot) : Prop := l.Nodup ∧ ∀ t ∈ l, s ∈ t.path

theorem under_self (s : Slot) : Under s [s] :=
  ⟨List.nodup_singleton s, fun _ ht => List.mem_singleton.1 ht ▸ s.self_mem_path⟩

theorem Under.below {g : Slot → List Slot} (h : ∀ j, Under (.entry s j) (g (.entry s j))) :
    Under s (below g s) := by
  have hnot (j : ℕ) : Slot.entry s j ∉ s.path := fun hmem =>
    Nat.not_succ_le_self _ (Slot.depth_le_of_mem_path hmem)
  refine ⟨List.nodup_append.2 ⟨List.nodup_flatMap.2 ⟨fun j _ => (h j).1, ?_⟩,
    List.nodup_singleton s, ?_⟩, fun t ht => ?_⟩
  · refine List.nodup_range.imp fun hne => List.disjoint_left.2 fun t ht ht' => hne ?_
    have heq := Slot.path_inj ((h _).2 t ht) ((h _).2 t ht') rfl
    cases heq
    rfl
  · rintro t ht t' ht' rfl
    obtain ⟨j, -, ht⟩ := List.mem_flatMap.1 ht
    rw [List.mem_singleton.1 ht'] at ht
    exact hnot j ((h j).2 s ht)
  · rcases mem_below.1 ht with ⟨j, -, ht⟩ | rfl
    · have hentry : s ∈ (Slot.entry s j).path := List.mem_cons_of_mem _ s.self_mem_path
      exact Slot.mem_path_trans hentry ((h j).2 t ht)
    · exact t.self_mem_path

theorem treeSlots_nodup : treeSlots.Nodup := by
  have h₇ : Under (.zone 7) (below (fun s => [s]) (.zone 7)) := .below fun j => under_self _
  have h₈ : Under (.zone 8) (below (below fun s => [s]) (.zone 8)) :=
    .below fun i => .below fun j => under_self _
  have hzone {i k : ℕ} {t : Slot} (hi : Slot.zone i ∈ t.path) (hk : Slot.zone k ∈ t.path) : i = k := by
    have heq := Slot.path_inj hi hk rfl
    cases heq
    rfl
  refine List.nodup_append.2 ⟨List.Nodup.map (fun i k h => by cases h; rfl) List.nodup_range,
    List.nodup_append.2 ⟨h₇.1, h₈.1, ?_⟩, ?_⟩
  · rintro t ht _ ht' rfl
    exact absurd (hzone (h₇.2 t ht) (h₈.2 t ht')) (by decide)
  · rintro t ht _ ht' rfl
    obtain ⟨i, hi, rfl⟩ := List.mem_map.1 ht
    have hi := List.mem_range.1 hi
    rcases List.mem_append.1 ht' with ht' | ht'
    · have := hzone (List.mem_singleton_self _) (h₇.2 _ ht')
      omega
    · have := hzone (List.mem_singleton_self _) (h₈.2 _ ht')
      omega

theorem WellFormed.nodup (h : WellFormed inode d) : (zonesIn inode d treeSlots).Nodup := by
  unfold zonesIn
  rw [List.filter_map]
  refine List.Nodup.map_on (fun s hs s' hs' heq => ?_) (treeSlots_nodup.filter _)
  obtain ⟨hs, hne⟩ := List.mem_filter.1 hs
  have hs' := (List.mem_filter.1 hs').1
  exact h.distinct s s' (mem_treeSlots.1 hs) (mem_treeSlots.1 hs') (by simpa using hne) heq

theorem Frees.freeWith {free : ℕ → Device → Except String Device} {g : Slot → List Slot}
    (h : Frees inode (freeWith free) g s) (hd : TreeReadable inode d)
    (hf : Freeable (zonesIn inode d (g s)) d) :
    ∃ d', Fs.freeWith free (s.read inode d) d = .ok d' ∧ Freed (zonesIn inode d (g s)) d d' := by
  by_cases hz : s.read inode d = 0
  · rw [h.zero d hz, hz]
    exact ⟨d, rfl, freed_nil⟩
  · exact h.freed d hd hz hf

theorem truncate_freed (hmode : inode.mode &&& S_IFMT = S_IFREG) (hd : TreeReadable inode d)
    (h : Freeable (zonesIn inode d treeSlots) d) : ∃ inode' d',
      truncate inode d = .ok (inode', d') ∧ (∀ i < 9, inode'.zone i = 0) ∧
        Freed (zonesIn inode d treeSlots) d d' := by
  have hdirect : zonesIn inode d ((List.range 7).map .zone) =
      ((List.range' 0 7).map inode.zone).filter (· ≠ 0) := by
    rw [zonesIn, List.map_map, List.range_eq_range']
    rfl
  have hind : Frees inode freeInd (below fun s => [s]) (.zone 7) :=
    frees_below (fun j _ => frees_leaf _) (.inl rfl)
  have hdind : Frees inode freeDind (below (below fun s => [s])) (.zone 8) :=
    frees_below (fun i hi => frees_below (fun j _ => frees_leaf _) ⟨rfl, hi⟩) (.inr rfl)
  rw [treeSlots, zonesIn_append, zonesIn_append, hdirect] at h ⊢
  obtain ⟨d₁, heq₁, hf₁⟩ := freeDirect_freed h.of_append
  have hdata₁ : d₁.data = d.data := by rw [hf₁.same]
  have hread₁ : d₁.readable = d.readable := by rw [hf₁.same]
  have hrest₁ := h.rest hf₁
  simp only [← zonesIn_congr hdata₁ hread₁] at hrest₁
  obtain ⟨d₂, heq₂, hf₂⟩ := hind.freeWith (hd.congr hdata₁ hread₁) hrest₁.of_append
  have hdata₂ : d₂.data = d₁.data := by rw [hf₂.same]
  have hread₂ : d₂.readable = d₁.readable := by rw [hf₂.same]
  have hrest₂ := hrest₁.rest hf₂
  rw [← zonesIn_congr hdata₂ hread₂] at hrest₂
  obtain ⟨d₃, heq₃, hf₃⟩ := hdind.freeWith ((hd.congr hdata₁ hread₁).congr hdata₂ hread₂) hrest₂
  rw [zonesIn_congr hdata₂ hread₂] at hf₃
  have hfreed := hf₁.append (hf₂.append hf₃)
  simp only [zonesIn_congr hdata₁ hread₁] at hfreed
  refine ⟨{ inode.clearZones 0 7 with
    zone := Function.update (Function.update (inode.clearZones 0 7).zone 7 0) 8 0
    size := 0
    dirt := true }, d₃, ?_, fun i hi => ?_, hfreed⟩
  · have hzone₇ : (inode.clearZones 0 7).zone 7 = inode.zone 7 := rfl
    have hzone₈ : (inode.clearZones 0 7).zone 8 = inode.zone 8 := rfl
    have heq₂' : freeInd (inode.zone 7) d₁ = .ok d₂ := heq₂
    have heq₃' : freeDind (inode.zone 8) d₂ = .ok d₃ := heq₃
    unfold truncate
    rw [if_neg (not_not.2 (.inl hmode)), heq₁]
    simp only [bind, Except.bind, hzone₇, hzone₈, heq₂', heq₃']
    rfl
  · dsimp only
    by_cases h₈ : i = 8
    · rw [h₈, Function.update_self]
    by_cases h₇ : i = 7
    · rw [h₇, Function.update_of_ne (by decide), Function.update_self]
    · rw [Function.update_of_ne h₈, Function.update_of_ne h₇]
      exact if_pos (by omega)

/-- An inode without zones has no blocks. -/
theorem Slot.read_eq_zero (h : ∀ i < 9, inode.zone i = 0) (hs : s.Valid) : s.read inode d = 0 := by
  induction s with
  | zone i => exact h i hs
  | entry s j ih => rw [Slot.read, ih hs.1.valid, Device.child_zero]

/-! ## Both -/

/-- Nobody uses the buffers of the zones in the tree. -/
def TreeIdle (inode : Inode) (d : Device) : Prop :=
  ∀ s : Slot, s.Valid → s.read inode d ≠ 0 → d.count (s.read inode d) = 0

/-- `create_block` on a well-formed tree is what `bmap` then reads; `truncate` frees
all of it.  A second `free_block` of a zone would be a panic. -/
theorem tree_created_and_freed (inode : Inode) (d : Device) (hmode : inode.mode &&& S_IFMT = S_IFREG)
    (hmounted : d.Mounted) (htree : WellFormed inode d) (hread : TreeReadable inode d) :
    (d.FreeIdle → TreeRoom inode d → ∀ k < BLOCKS, ∃ z inode' d',
      createBlock inode k d = .ok (z, inode', d') ∧ WellFormed inode' d' ∧
      bmap inode' k d' = .ok (z, inode', d') ∧ ∀ k' < BLOCKS, k' ≠ k →
        (bmap inode' k' d').map Prod.fst = (bmap inode k' d).map Prod.fst) ∧
    (TreeIdle inode d → ∃ inode' d', truncate inode d = .ok (inode', d') ∧
      (∀ s : Slot, s.Valid → s.read inode d ≠ 0 → d'.bits (d.nr (s.read inode d)) = some false) ∧
      (∀ b, (∀ s : Slot, s.Valid → s.read inode d ≠ 0 → d.nr (s.read inode d) ≠ b) →
        d'.bits b = d.bits b) ∧
      ∀ k < BLOCKS, bmap inode' k d' = .ok (0, inode', d')) := by
  refine ⟨fun hidle hroom k hk => ?_, fun hidle => ?_⟩
  · obtain ⟨z, inode', d', heq, h⟩ :=
      createBlock_created ⟨hmounted, hidle, htree, hread, hroom⟩ hk
    refine ⟨z, inode', d', heq, h.grown.ready.tree, ?_, fun k' hk' hne => ?_⟩
    · rw [bmap_eq hk (h.grown.ready.room.not_full (slot_valid hk))]
      exact congrArg (fun z => Except.ok (z, inode', d')) h.self
    · rw [bmap_eq hk' (h.grown.ready.room.not_full (slot_valid hk')),
        bmap_eq hk' (hroom.not_full (slot_valid hk')), h.mapped hk hk' hne]
      rfl
  · have hfreeable : Freeable (zonesIn inode d treeSlots) d := by
      refine ⟨htree.nodup, fun z hz => ?_⟩
      obtain ⟨hz, s, hs, rfl⟩ := mem_zonesIn.1 hz
      have hs := mem_treeSlots.1 hs
      exact ⟨(htree.zone s hs hz).1, (htree.zone s hs hz).2, hidle s hs hz⟩
    obtain ⟨inode', d', heq, hzone, hfreed⟩ := truncate_freed hmode hread hfreeable
    refine ⟨inode', d', heq, fun s hs hne => ?_, fun b hb => ?_, fun k hk => ?_⟩
    · exact hfreed.cleared _ (mem_zonesIn.2 ⟨hne, s, mem_treeSlots.2 hs, rfl⟩)
    · refine hfreed.kept b fun z hz => ?_
      obtain ⟨hz, s, hs, rfl⟩ := mem_zonesIn.1 hz
      exact hb s (mem_treeSlots.1 hs) hz
    · have hroom : TreeRoom inode' d' := fun s hs hne => absurd (Slot.read_eq_zero hzone hs) hne
      rw [bmap_eq hk (hroom.not_full (slot_valid hk))]
      exact congrArg (fun z => Except.ok (z, inode', d')) (Slot.read_eq_zero hzone (slot_valid hk))

/-- A second block is created, and both are freed. -/
theorem tree_created_and_freed_one :
    (∃ z inode' d', createBlock oneInode 1 (oneDevice fun _ => 0) = .ok (z, inode', d') ∧
      WellFormed inode' d' ∧ bmap inode' 1 d' = .ok (z, inode', d')) ∧
    ∃ inode' d', truncate oneInode (oneDevice fun _ => 0) = .ok (inode', d') ∧
      bmap inode' 0 d' = .ok (0, inode', d') := by
  have h := tree_created_and_freed oneInode (oneDevice fun _ => 0) (by decide)
    (oneDevice_mounted _) (oneInode_wellFormed _) fun _ _ _ => rfl
  obtain ⟨z, inode', d', heq, htree, hbmap, -⟩ :=
    h.1 (fun _ _ => rfl) one_ready.room 1 (by decide)
  obtain ⟨inode'', d'', heq', -, -, hzero⟩ := h.2 fun _ _ _ => rfl
  exact ⟨⟨z, inode', d', heq, htree, hbmap⟩, inode'', d'', heq', hzero 0 (by decide)⟩

/-- The buffers of the block and of the first free zone are in use. -/
def busyDevice : Device := oneDevice fun b => if b = 10 ∨ b = 11 then 1 else 0

/-- Then the block is not freed, and `create_block` does not return. -/
theorem busy_not_freed : busyDevice.Mounted ∧ WellFormed oneInode busyDevice ∧
    TreeReadable oneInode busyDevice ∧
    (∃ inode' d', truncate oneInode busyDevice = .ok (inode', d') ∧ d'.Used 10) ∧
    createBlock oneInode 1 busyDevice = .error "new block: count is != 1" :=
  ⟨oneDevice_mounted _, oneInode_wellFormed _, fun _ _ _ => rfl, ⟨_, _, rfl, rfl⟩, rfl⟩

end MyJavaExample.Fs
