import MyJavaExample.Fs.ZoneBits

/-!
# `create_block` keeps the tree of an inode

In a well-formed tree the zones in the slots are distinct data zones that are
marked used.  `create_block` fills the empty slots on the way to a block with
free zones, the outer ones first.
-/

namespace MyJavaExample.Fs

open Lib

variable {inode inode' : Inode} {d d' : Device} {s s' p : Slot} {i j x z : ℕ}

/-! ## The slots of an inode -/

namespace Slot

/-- The slots of the indirect blocks. -/
def Indirect : Slot → Prop
  | .zone i => i = 7 ∨ i = 8
  | .entry (.zone i) j => i = 8 ∧ j < 512
  | .entry (.entry _ _) _ => False

def Valid : Slot → Prop
  | .zone i => i < 9
  | .entry s j => s.Indirect ∧ j < 512

theorem Indirect.valid (h : s.Indirect) : s.Valid := by
  cases s with
  | zone i =>
      simp only [Indirect] at h
      simp only [Valid]
      omega
  | entry s j =>
      cases s with
      | zone i => exact ⟨.inr h.1, h.2⟩
      | entry s j => exact h.elim

/-- The slots that `_bmap` reads on its way to a slot. -/
def path : Slot → List Slot
  | .zone i => [.zone i]
  | .entry s j => .entry s j :: s.path

theorem indirect_of_mem_path (hs : s.Valid) (h : s' ∈ s.path) : s' = s ∨ s'.Indirect := by
  induction s with
  | zone i => exact .inl (List.mem_singleton.1 h)
  | entry s j ih =>
      rcases List.mem_cons.1 h with rfl | h
      · exact .inl rfl
      · rcases ih hs.1.valid h with rfl | h
        · exact .inr hs.1
        · exact .inr h

theorem self_mem_path (s : Slot) : s ∈ s.path := by
  cases s <;> exact List.mem_cons_self ..

theorem valid_of_mem_path (hs : s.Valid) (h : s' ∈ s.path) : s'.Valid := by
  rcases indirect_of_mem_path hs h with rfl | h
  · exact hs
  · exact h.valid

theorem ne_entry_self (s : Slot) (j : ℕ) : Slot.entry s j ≠ s := by
  intro h
  have hsize := congrArg sizeOf h
  simp only [Slot.entry.sizeOf_spec] at hsize
  omega

end Slot

theorem slot_valid {k : ℕ} (hk : k < BLOCKS) : (slot k).Valid := by
  unfold BLOCKS at hk
  unfold slot
  split
  next h => exact Nat.lt_trans h (by decide)
  next =>
    split
    next h => exact ⟨.inl rfl, h⟩
    next => exact ⟨⟨rfl, by omega⟩, Nat.mod_lt _ (by decide)⟩

/-- The slot of a block is not one of an indirect block. -/
theorem slot_not_indirect (k : ℕ) : ¬(slot k).Indirect := by
  unfold slot
  split
  next h =>
    simp only [Slot.Indirect]
    omega
  next =>
    split
    next => exact fun h => absurd h.1 (by decide)
    next => exact id

theorem slot_inj {k k' : ℕ} (h : slot k = slot k') : k = k' := by
  unfold slot at h
  split at h <;> split at h <;> (try split at h) <;> (try split at h) <;> simp at h <;> omega

/-! ## Well-formed trees -/

structure WellFormed (inode : Inode) (d : Device) : Prop where
  zone : ∀ s : Slot, s.Valid → s.read inode d ≠ 0 →
    d.DataZone (s.read inode d) ∧ d.Used (s.read inode d)
  distinct : ∀ s s' : Slot, s.Valid → s'.Valid → s.read inode d ≠ 0 →
    s.read inode d = s'.read inode d → s = s'

/-- The blocks of the tree can be read. -/
def TreeReadable (inode : Inode) (d : Device) : Prop :=
  ∀ s : Slot, s.Valid → s.read inode d ≠ 0 → d.readable (s.read inode d) = true

/-- None of the buffers of the tree has 255 references, so all can be taken. -/
def TreeRoom (inode : Inode) (d : Device) : Prop :=
  ∀ s : Slot, s.Valid → s.read inode d ≠ 0 → d.count (s.read inode d) ≠ 255

structure Ready (inode : Inode) (d : Device) : Prop where
  mounted : d.Mounted
  idle : d.FreeIdle
  tree : WellFormed inode d
  readable : TreeReadable inode d
  room : TreeRoom inode d

theorem TreeRoom.not_full {create : Bool} (h : TreeRoom inode d) (hs : s.Valid) :
    ¬s.Full create inode d := by
  induction s with
  | zone i => exact id
  | entry s j ih =>
      rintro (hfull | ⟨⟨hne, -, hcount⟩, -⟩)
      · exact ih hs.1.valid hfull
      · exact h s hs.1.valid hne hcount

/-! ## One slot is filled -/

/-- The slot `s` has been empty and has `z` now, which is a free zone or nothing. -/
structure Filled (s : Slot) (z : ℕ) (inode : Inode) (d : Device) (inode' : Inode) (d' : Device) :
    Prop where
  sb : d'.sb = d.sb
  count : d'.count = d.count
  mounted : d'.Mounted
  bits : ∀ x, d.DataZone x → d'.bits (d.nr x) = if x = z then some true else d.bits (d.nr x)
  readable : ∀ x, x ≠ z → d'.readable x = d.readable x
  fresh : z ≠ 0 → d.Free z ∧ d'.data z = .zero ∧ d'.readable z = true
  full : z = 0 → ∀ x, ¬d.Free x
  zone : ∀ i, inode'.zone i = if s = .zone i then z else inode.zone i
  short : ∀ (p : Slot) j, p.Indirect → j < 512 → p.read inode d ≠ 0 → (d'.data (p.read inode d)).short j =
    if s = .entry p j then z else (d.data (p.read inode d)).short j
  data : ∀ x, x ≠ z → (∀ p : Slot, p.Indirect → p.read inode d ≠ x) → d'.data x = d.data x
  size : inode'.size = inode.size
  mode : inode'.mode = inode.mode

namespace Filled

/-- The zone is in no slot yet. -/
theorem read_ne (h : Filled s z inode d inode' d') (hd : Ready inode d) (hp : p.Valid)
    (hne : p.read inode d ≠ 0) : p.read inode d ≠ z := by
  rintro rfl
  exact (h.fresh hne).1.not_used (hd.tree.zone p hp hne).2

/-- Only the slot itself reads otherwise. -/
theorem read (h : Filled s z inode d inode' d') (hd : Ready inode d) (hempty : s.read inode d = 0)
    (hparent : ∀ (p : Slot) j, s = .entry p j → p.read inode d ≠ 0) (hp : p.Valid) :
    p.read inode' d' = if p = s then z else p.read inode d := by
  induction p with
  | zone i =>
      rw [Slot.read, h.zone i]
      simp only [eq_comm, Slot.read]
  | entry p j ih =>
      have hchild (x : ℕ) (hx : x ≠ 0) (hread : d.readable x = true) :
          d.child x j = (d.data x).short j := Device.child_readable hx hread j
      rw [Slot.read, ih hp.1.valid, Slot.read]
      by_cases hps : p = s
      · -- The entries of a new block are empty, and so were those of no block.
        subst hps
        rw [if_pos rfl, if_neg (Slot.ne_entry_self p j), hempty, Device.child_zero]
        by_cases hz : z = 0
        · rw [hz, Device.child_zero]
        · rw [Device.child_readable hz (h.fresh hz).2.2, (h.fresh hz).2.1]
          rfl
      · rw [if_neg hps]
        by_cases hx : p.read inode d = 0
        · have hne : Slot.entry p j ≠ s := fun he => hparent p j he.symm hx
          rw [hx, Device.child_zero, Device.child_zero, if_neg hne]
        · have hread := hd.readable p hp.1.valid hx
          have hread' := (h.readable _ (h.read_ne hd hp.1.valid hx)).trans hread
          rw [Device.child_readable hx hread', Device.child_readable hx hread,
            h.short p j hp.1 hp.2 hx]
          exact if_congr eq_comm rfl rfl

theorem dataZone (h : Filled s z inode d inode' d') : d'.DataZone x ↔ d.DataZone x := by
  unfold Device.DataZone
  rw [h.sb]

theorem bits_nr (h : Filled s z inode d inode' d') (hx : d.DataZone x) :
    d'.bits (d'.nr x) = if x = z then some true else d.bits (d.nr x) := by
  rw [← h.bits x hx]
  unfold Device.nr
  rw [h.sb]

theorem used (h : Filled s z inode d inode' d') (hx : d.DataZone x) :
    d'.Used x ↔ x = z ∨ d.Used x := by
  unfold Device.Used
  rw [h.bits_nr hx]
  by_cases hxz : x = z
  · simp [hxz]
  · simp [hxz]

theorem free (h : Filled s z inode d inode' d') : d'.Free x ↔ x ≠ z ∧ d.Free x := by
  unfold Device.Free
  rw [h.dataZone]
  by_cases hx : d.DataZone x
  · rw [h.bits_nr hx]
    by_cases hxz : x = z
    · simp [hxz]
    · simp [hxz]
  · simp [hx]

/-- The zone that is found is in no other slot, so the tree stays well-formed. -/
theorem ready (h : Filled s z inode d inode' d') (hd : Ready inode d) (hs : s.Valid)
    (hempty : s.read inode d = 0) (hparent : ∀ (p : Slot) j, s = .entry p j → p.read inode d ≠ 0) :
    Ready inode' d' := by
  have hread {p : Slot} (hp : p.Valid) := h.read hd hempty hparent hp
  have hold {p : Slot} (hp : p.Valid) (hne : p ≠ s) : p.read inode' d' = p.read inode d := by
    rw [hread hp, if_neg hne]
  have hnew : s.read inode' d' = z := by rw [hread hs, if_pos rfl]
  refine ⟨h.mounted, fun x hx => ?_, ⟨fun p hp hne => ?_, fun p p' hp hp' hne heq => ?_⟩,
    fun p hp hne => ?_, fun p hp hne => ?_⟩
  · rw [h.count]
    exact hd.idle x (h.free.1 hx).2
  · by_cases hps : p = s
    · subst hps
      rw [hnew] at hne ⊢
      have hdata := (h.fresh hne).1.1
      exact ⟨h.dataZone.2 hdata, (h.used hdata).2 (.inl rfl)⟩
    · rw [hold hp hps] at hne ⊢
      obtain ⟨hdata, hused⟩ := hd.tree.zone p hp hne
      exact ⟨h.dataZone.2 hdata, (h.used hdata).2 (.inr hused)⟩
  · by_cases hps : p = s
    · by_cases hps' : p' = s
      · rw [hps, hps']
      · subst hps
        rw [hnew, hold hp' hps'] at heq
        rw [hnew, heq] at hne
        exact absurd heq.symm (h.read_ne hd hp' hne)
    · rw [hold hp hps] at hne heq
      by_cases hps' : p' = s
      · subst hps'
        rw [hnew] at heq
        exact absurd heq (h.read_ne hd hp hne)
      · rw [hold hp' hps'] at heq
        exact hd.tree.distinct p p' hp hp' hne heq
  · by_cases hps : p = s
    · subst hps
      rw [hnew] at hne ⊢
      exact (h.fresh hne).2.2
    · rw [hold hp hps] at hne ⊢
      rw [h.readable _ (h.read_ne hd hp hne)]
      exact hd.readable p hp hne
  · rw [h.count]
    by_cases hps : p = s
    · subst hps
      rw [hnew] at hne ⊢
      rw [hd.idle z (h.fresh hne).1]
      decide
    · rw [hold hp hps] at hne ⊢
      exact hd.room p hp hne

end Filled

/-! ## Where `create_block` fills a slot -/

theorem Block.setShort_short (b : Block) (j : ℕ) : b.setShort j (b.short j) = b := by
  have hlow := (b (2 * j)).toNat_lt
  have hhigh := (b (2 * j + 1)).toNat_lt
  have h₁ : UInt8.ofNat (b.short j) = b (2 * j) := by
    apply UInt8.toNat_inj.1
    rw [UInt8.toNat_ofNat', Block.short]
    omega
  have h₂ : UInt8.ofNat (b.short j / 256) = b (2 * j + 1) := by
    apply UInt8.toNat_inj.1
    rw [UInt8.toNat_ofNat', Block.short]
    omega
  rw [Block.setShort, h₁, h₂, Function.update_eq_self]
  exact Function.update_eq_self ..

theorem Device.setData_self (d : Device) (b : ℕ) : d.setData b (d.data b) = d := by
  rw [Device.setData, Function.update_eq_self]

/-- `i_zone[i]` gets a block. -/
theorem inodeZone_filled (hd : Ready inode d) (h : inode.zone i = 0) :
    ∃ z inode' d', inodeZone true i inode d = .ok (z, inode', d') ∧
      Filled (.zone i) z inode d inode' d' := by
  obtain ⟨z, d', heq, hnew⟩ := Device.newBlock_eq hd.mounted hd.idle
  have hzone : inodeZone true i inode d =
      .ok (z, if z = 0 then inode else inode.setZone i z, d') := by
    have hlt : z % 65536 = z := Nat.mod_eq_of_lt hnew.lt
    unfold inodeZone
    rw [if_pos ⟨rfl, h⟩, heq]
    change Except.ok (z % 65536, if z % 65536 = 0 then inode else inode.setZone i (z % 65536), d') = _
    rw [hlt]
  have hdata (x : ℕ) (hx : x ≠ 0) (hused : d.Used x) : d'.data x = d.data x := by
    refine hnew.data x ?_
    rintro rfl
    exact (hnew.fresh hx).1.not_used hused
  refine ⟨z, _, d', hzone, hnew.sb, hnew.count, hnew.mounted, hnew.bits, hnew.readable, hnew.fresh,
    hnew.full, fun k => ?_, fun p j hp _ hne => ?_, fun x hx _ => hnew.data x hx, ?_, ?_⟩
  · by_cases hz : z = 0
    · rw [if_pos hz]
      split
      next hk =>
        cases hk
        exact h.trans hz.symm
      next => rfl
    · rw [if_neg hz]
      refine (Function.update_apply ..).trans (if_congr ?_ rfl rfl)
      rw [Slot.zone.injEq, eq_comm]
  · rw [hdata _ hne (hd.tree.zone p hp.valid hne).2]
    rfl
  · split <;> rfl
  · split <;> rfl

theorem take_ready {b : ℕ} (hd : Ready inode d) (hb : d.Used b) :
    (d.take b).Mounted ∧ (d.take b).FreeIdle := by
  refine ⟨⟨hd.mounted.firstdatazone_pos, hd.mounted.first⟩, fun x hx => ?_⟩
  have hfree : d.Free x := hx
  have hne : x ≠ b := by
    rintro rfl
    exact hfree.not_used hb
  exact (Function.update_of_ne hne ..).trans (hd.idle x hfree)

/-- An entry of an indirect block gets one. -/
theorem indirect_filled (hd : Ready inode d) (hp : p.Indirect) (hne : p.read inode d ≠ 0)
    (h : (Slot.entry p j).read inode d = 0) :
    ∃ z d', indirect true (p.read inode d) j d = .ok (z, d') ∧
      Filled (.entry p j) z inode d inode d' := by
  have hread := hd.readable p hp.valid hne
  obtain ⟨hdata, hused⟩ := hd.tree.zone p hp.valid hne
  have hdistinct {p' : Slot} (hp' : p'.Indirect) (heq : p.read inode d = p'.read inode d) : p = p' :=
    hd.tree.distinct p p' hp.valid hp'.valid hne heq
  have hroom := hd.room p hp.valid hne
  rw [Slot.read, Device.child_readable hne hread] at h
  generalize hb : p.read inode d = b at *
  obtain ⟨hmounted, hidle⟩ := take_ready hd hused
  obtain ⟨z, d₁, heq, hnew⟩ := Device.newBlock_eq hmounted hidle
  have hold (x : ℕ) (hx : x ≠ 0) (hused : d.Used x) : x ≠ z := by
    rintro rfl
    exact (hnew.fresh hx).1.not_used hused
  have hkept : d₁.data b = d.data b := hnew.data b (hold b hne hused)
  have heq' : indirect true b j d =
      .ok (z, { d₁.setData b ((d₁.data b).setShort j z) with count := d.count }) := by
    unfold indirect
    have hzero : ((d.take b).data b).short j = 0 := h
    rw [Device.bread_readable hread]
    simp only [zoneOrNew, hzero, and_self, if_true, heq]
    have hsame : (if z = (d₁.data b).short j then d₁
        else d₁.setData b ((d₁.data b).setShort j z)) =
        d₁.setData b ((d₁.data b).setShort j z) := by
      split
      next hz => rw [hz, Block.setShort_short, Device.setData_self]
      next => rfl
    simp only [bind, Except.bind, hsame]
    rw [Device.brelse_of_count (by exact hnew.count) hroom]
    rfl
  have hdata' (x : ℕ) (hx : x ≠ b) :
      (d₁.setData b ((d₁.data b).setShort j z)).data x = d₁.data x := Function.update_of_ne hx ..
  refine ⟨z, _, heq', hnew.sb, rfl, ⟨hnew.mounted.firstdatazone_pos, hnew.mounted.first⟩, hnew.bits,
    hnew.readable, fun hz => ⟨(hnew.fresh hz).1, ?_, (hnew.fresh hz).2.2⟩, hnew.full, fun k => rfl,
    fun p' k hp' hk hne' => ?_, fun x hx hind => ?_, rfl, rfl⟩
  · exact (hdata' z (hold b hne hused).symm).trans (hnew.fresh hz).2.1
  · by_cases hpb : p'.read inode d = b
    · obtain rfl := hdistinct hp' hpb.symm
      rw [hpb]
      have hlt : z < 65536 := by
        rcases Nat.eq_zero_or_pos z with rfl | hpos
        · decide
        · exact (hnew.fresh (Nat.ne_of_gt hpos)).1.1.lt
      have hset : (d₁.setData b ((d₁.data b).setShort j z)).data b = (d₁.data b).setShort j z :=
        Function.update_self ..
      rw [hset, Block.short_setShort _ _ hlt, hkept]
      simp only [Slot.entry.injEq, true_and]
    · have hslot : Slot.entry p j ≠ .entry p' k := by
        rintro ⟨⟩
        exact hpb hb
      rw [if_neg hslot, hdata' _ hpb, hnew.data _ (hold _ hne' (hd.tree.zone p' hp'.valid hne').2)]
      rfl
  · rw [hdata' x (hb ▸ (hind p hp).symm), hnew.data x hx]
    rfl

/-! ## Free zones and empty slots -/

/-- There are `n` free zones at least. -/
def Device.Enough (d : Device) (n : ℕ) : Prop :=
  ∃ l : List ℕ, l.Nodup ∧ (∀ x ∈ l, d.Free x) ∧ n ≤ l.length

/-- The empty slots among those of a list. -/
def missing (inode : Inode) (d : Device) (l : List Slot) : List Slot :=
  l.filter fun s => s.read inode d = 0

/-- Filling a slot takes one of each. -/
theorem Filled.enough (h : Filled s z inode d inode' d') (hd : Ready inode d)
    (hempty : s.read inode d = 0) (hparent : ∀ (p : Slot) j, s = .entry p j → p.read inode d ≠ 0)
    {l : List Slot} (hnodup : l.Nodup) (hl : ∀ p ∈ l, p.Valid) (hs : s ∈ l)
    (he : d.Enough (missing inode d l).length) :
    z ≠ 0 ∧ d'.Enough (missing inode' d' l).length := by
  obtain ⟨zs, hzs, hfree, hle⟩ := he
  have hmem : s ∈ missing inode d l := List.mem_filter.2 ⟨hs, by simpa using hempty⟩
  have hz : z ≠ 0 := by
    intro hz
    have hpos := Nat.lt_of_lt_of_le (List.length_pos_of_mem hmem) hle
    exact h.full hz _ (hfree _ (List.getElem_mem hpos))
  have herase : missing inode' d' l = (missing inode d l).erase s := by
    unfold missing
    rw [List.Nodup.erase_eq_filter (hnodup.filter _), List.filter_filter]
    refine List.filter_congr fun p hp => ?_
    rw [h.read hd hempty hparent (hl p hp)]
    by_cases hps : p = s
    · simp [hps, hz]
    · simp [hps]
  refine ⟨hz, zs.erase z, hzs.erase z, fun x hx => ?_, ?_⟩
  · obtain ⟨hxz, hx⟩ := (List.Nodup.mem_erase_iff hzs).1 hx
    exact h.free.2 ⟨hxz, hfree x hx⟩
  · rw [herase, List.length_erase_of_mem hmem, List.length_erase]
    split <;> omega

/-! ## `create_block` -/

/-- Only slots of the list, which were empty, read otherwise. -/
structure Grown (l : List Slot) (inode : Inode) (d : Device) (inode' : Inode) (d' : Device) :
    Prop where
  ready : Ready inode' d'
  read : ∀ p : Slot, p.Valid → p ∉ l → p.read inode' d' = p.read inode d
  grows : ∀ p : Slot, p.Valid →
    p.read inode' d' = p.read inode d ∨ p.read inode d = 0 ∧ ¬d.Used (p.read inode' d')
  data : ∀ x, d.DataZone x → d.Used x → (∀ p : Slot, p.Indirect → p.read inode d ≠ x) →
    d'.data x = d.data x
  used : ∀ x, d.DataZone x → d.Used x → d'.Used x
  sb : d'.sb = d.sb
  count : d'.count = d.count
  size : inode'.size = inode.size
  mode : inode'.mode = inode.mode

theorem grown_nil (hd : Ready inode d) : Grown [] inode d inode d :=
  ⟨hd, fun _ _ _ => rfl, fun _ _ => .inl rfl, fun _ _ _ _ => rfl, fun _ _ h => h, rfl, rfl, rfl, rfl⟩

theorem Grown.mono {l l' : List Slot} (h : Grown l inode d inode' d') (hl : l ⊆ l') :
    Grown l' inode d inode' d' :=
  { h with read := fun p hp hnot => h.read p hp fun hmem => hnot (hl hmem) }

theorem Grown.filled {inode'' : Inode} {d'' : Device} {l : List Slot}
    (h : Grown l inode d inode' d') (hf : Filled s z inode' d' inode'' d'') (hs : s.Valid)
    (hempty : s.read inode' d' = 0) (hold : s.read inode d = 0)
    (hparent : ∀ (p : Slot) j, s = .entry p j → p.read inode' d' ≠ 0) :
    Grown (s :: l) inode d inode'' d'' := by
  have hread {p : Slot} (hp : p.Valid) := hf.read h.ready hempty hparent hp
  have hdz {x : ℕ} (hx : d.DataZone x) : d'.DataZone x := by
    unfold Device.DataZone at hx ⊢
    rwa [h.sb]
  have hdz' {x : ℕ} (hx : d'.DataZone x) : d.DataZone x := by
    unfold Device.DataZone at hx ⊢
    rwa [h.sb] at hx
  have hfresh (hz : z ≠ 0) (hx : d.DataZone z) (hused : d.Used z) : False :=
    (hf.fresh hz).1.not_used (h.used z hx hused)
  refine ⟨hf.ready h.ready hs hempty hparent, fun p hp hnot => ?_, fun p hp => ?_,
    fun x hx hused hind => ?_, fun x hx hused => (hf.used (hdz hx)).2 (.inr (h.used x hx hused)),
    hf.sb.trans h.sb, hf.count.trans h.count, hf.size.trans h.size, hf.mode.trans h.mode⟩
  · rw [hread hp, if_neg fun he : p = s => hnot (he ▸ List.mem_cons_self ..)]
    exact h.read p hp fun hmem => hnot (List.mem_cons_of_mem _ hmem)
  · rw [hread hp]
    by_cases hps : p = s
    · subst hps
      rw [if_pos rfl]
      by_cases hz : z = 0
      · exact .inl (hz.trans hold.symm)
      · exact .inr ⟨hold, fun hused => hfresh hz (hdz' (hf.fresh hz).1.1) hused⟩
    · rw [if_neg hps]
      exact h.grows p hp
  · have hne : x ≠ z := by
      rintro rfl
      exact hfresh (h.ready.mounted.ne_zero (hdz hx)) hx hused
    rw [hf.data x hne fun p hp => ?_]
    · exact h.data x hx hused hind
    · rcases h.grows p hp.valid with hsame | ⟨-, hnew⟩
      · rw [hsame]
        exact hind p hp
      · rintro rfl
        exact hnew hused

theorem Slot.sizeOf_le_of_mem_path (h : s' ∈ s.path) : sizeOf s' ≤ sizeOf s := by
  induction s with
  | zone i =>
      rw [List.mem_singleton.1 h]
  | entry s j ih =>
      rcases List.mem_cons.1 h with rfl | h
      · exact le_refl _
      · have hle := ih h
        simp only [Slot.entry.sizeOf_spec]
        omega

/-- What `create_block` has done for the slot `s` when it returns `z`. -/
structure Created (s : Slot) (z : ℕ) (inode : Inode) (d : Device) (inode' : Inode) (d' : Device) :
    Prop where
  grown : Grown s.path inode d inode' d'
  self : s.read inode' d' = z
  zero : s.read inode d = 0 → z ≠ 0 → d'.data z = .zero
  enough : ∀ l : List Slot, l.Nodup → (∀ p ∈ l, p.Valid) → s.path ⊆ l →
    d.Enough (missing inode d l).length → z ≠ 0 ∧ d'.Enough (missing inode' d' l).length

theorem Grown.created {inode'' : Inode} {d'' : Device} {l : List Slot}
    (h : Grown l inode d inode' d') (hf : Filled s z inode' d' inode'' d'') (hs : s.Valid)
    (hempty : s.read inode' d' = 0) (hold : s.read inode d = 0)
    (hparent : ∀ (p : Slot) j, s = .entry p j → p.read inode' d' ≠ 0) (hpath : s.path = s :: l)
    (henough : ∀ l' : List Slot, l'.Nodup → (∀ p ∈ l', p.Valid) → s.path ⊆ l' →
      d.Enough (missing inode d l').length → d'.Enough (missing inode' d' l').length) :
    Created s z inode d inode'' d'' where
  grown := by
    rw [hpath]
    exact h.filled hf hs hempty hold hparent
  self := by rw [hf.read h.ready hempty hparent hs, if_pos rfl]
  zero _ hz := (hf.fresh hz).2.1
  enough l' hnodup hl hsub he :=
    hf.enough h.ready hempty hparent hnodup hl (hsub (Slot.self_mem_path s))
      (henough l' hnodup hl hsub he)

theorem follow_created (hd : Ready inode d) (hs : s.Valid) :
    ∃ z inode' d', follow true inode d s = .ok (z, inode', d') ∧
      Created s z inode d inode' d' := by
  induction s with
  | zone i =>
      by_cases hold : inode.zone i = 0
      · obtain ⟨z, inode', d', heq, hf⟩ := inodeZone_filled hd hold
        exact ⟨z, inode', d', heq, (grown_nil hd).created hf hs hold hold (fun _ _ h => by cases h) rfl
          fun _ _ _ _ h => h⟩
      · exact ⟨_, _, _, follow_eq (hd.room.not_full hs) fun _ => hold,
          (grown_nil hd).mono (List.nil_subset _), rfl, fun h => absurd h hold,
          fun _ _ _ _ h => ⟨hold, h⟩⟩
  | entry p j ih =>
      by_cases hold : (Slot.entry p j).read inode d = 0
      · obtain ⟨z, inode', d', heq, hp⟩ := ih hs.1.valid
        have hready := hp.grown.ready
        by_cases hz : z = 0
        · refine ⟨0, inode', d', ?_, hp.grown.mono (List.subset_cons_self _ _), ?_,
            fun _ h => absurd rfl h, fun l hnodup hl hsub he => ?_⟩
          · rw [follow, heq, hz]
            rfl
          · rw [Slot.read, hp.self, hz, Device.child_zero]
          · exact absurd hz (hp.enough l hnodup hl (fun _ h => hsub (List.mem_cons_of_mem _ h)) he).1
        · have hne : p.read inode' d' ≠ 0 := by
            rw [hp.self]
            exact hz
          have hnot : Slot.entry p j ∉ p.path := by
            intro hmem
            have hle := Slot.sizeOf_le_of_mem_path hmem
            simp only [Slot.entry.sizeOf_spec] at hle
            omega
          have hempty := (hp.grown.read _ hs hnot).trans hold
          obtain ⟨z', d'', heq', hf⟩ := indirect_filled hready hs.1 hne hempty
          refine ⟨z', inode', d'', ?_, hp.grown.created hf hs hempty hold (fun p' j' h => ?_) rfl
            fun l hnodup hl hsub he => ?_⟩
          · rw [hp.self] at heq'
            rw [follow, heq]
            simp only [bind, Except.bind, hz, if_false, heq']
            rfl
          · cases h
            exact hne
          · exact (hp.enough l hnodup hl (fun _ h => hsub (List.mem_cons_of_mem _ h)) he).2
      · exact ⟨_, _, _, follow_eq (hd.room.not_full hs) fun _ => hold,
          (grown_nil hd).mono (List.nil_subset _), rfl, fun h => absurd h hold,
          fun _ _ _ _ h => ⟨hold, h⟩⟩

theorem createBlock_created {k : ℕ} (hd : Ready inode d) (hk : k < BLOCKS) :
    ∃ z inode' d', createBlock inode k d = .ok (z, inode', d') ∧
      Created (slot k) z inode d inode' d' := by
  unfold createBlock
  rw [bmapOr_eq true hk]
  exact follow_created hd (slot_valid hk)

/-- The other blocks are not on the way. -/
theorem Created.mapped {k k' : ℕ} (h : Created (slot k) z inode d inode' d') (hk : k < BLOCKS)
    (hk' : k' < BLOCKS) (hne : k' ≠ k) : mapped inode' d' k' = mapped inode d k' := by
  refine h.grown.read _ (slot_valid hk') fun hmem => ?_
  rcases Slot.indirect_of_mem_path (slot_valid hk) hmem with heq | hind
  · exact hne (slot_inj heq)
  · exact slot_not_indirect k' hind

/-! ## An inode with one block -/

/-- Without indirect blocks only direct slots are in use. -/
theorem Slot.direct_of_read (h₇ : inode.zone 7 = 0) (h₈ : inode.zone 8 = 0) (hs : s.Valid)
    (hne : s.read inode d ≠ 0) : ∃ i < 7, s = .zone i := by
  induction s with
  | zone i =>
      simp only [Slot.Valid] at hs
      have hne₇ : i ≠ 7 := fun hi => hne (by rw [hi]; exact h₇)
      have hne₈ : i ≠ 8 := fun hi => hne (by rw [hi]; exact h₈)
      exact ⟨i, by omega, rfl⟩
  | entry p j ih =>
      have hp : p.read inode d ≠ 0 := by
        intro hp
        rw [Slot.read, hp, Device.child_zero] at hne
        exact hne rfl
      obtain ⟨i, hi, rfl⟩ := ih hs.1.valid hp
      have hind : i = 7 ∨ i = 8 := hs.1
      omega

def oneInode : Inode := ⟨S_IFREG, 1, fun i => if i = 0 then 10 else 0, false⟩

/-- A device with 100 zones, of which the first one is in use. -/
def oneDevice (count : ℕ → UInt8) : Device where
  sb := ⟨1, 1, 10, 110, SUPER_MAGIC⟩
  zmap := fun i => if i = 0 then some fun w => if w.val = 0 then 3#32 else 0#32 else none
  data := fun _ => .zero
  count := count
  readable := fun _ => true

theorem oneDevice_mounted (count : ℕ → UInt8) : (oneDevice count).Mounted :=
  ⟨show 1 ≤ (10 : UInt16).toNat by decide, rfl⟩

theorem oneInode_read (count : ℕ → UInt8) (hs : s.Valid) (hne : s.read oneInode (oneDevice count) ≠ 0) :
    s = .zone 0 := by
  obtain ⟨i, -, rfl⟩ := Slot.direct_of_read rfl rfl hs hne
  by_cases hi : i = 0
  · rw [hi]
  · exact absurd (if_neg hi) hne

theorem oneInode_wellFormed (count : ℕ → UInt8) : WellFormed oneInode (oneDevice count) where
  zone s hs hne := by
    rw [oneInode_read count hs hne]
    have hnr : (oneDevice count).nr 10 = 1 := rfl
    have hused : (oneDevice count).bits ((oneDevice count).nr 10) = some true := by
      rw [hnr]
      rfl
    exact ⟨⟨show (10 : UInt16).toNat ≤ 10 by decide, show 10 < (110 : UInt16).toNat by decide⟩, hused⟩
  distinct s s' hs hs' hne heq := by
    rw [oneInode_read count hs hne, oneInode_read count hs' (heq ▸ hne)]

theorem one_ready : Ready oneInode (oneDevice fun _ => 0) :=
  ⟨oneDevice_mounted _, fun _ _ => rfl, oneInode_wellFormed _, fun _ _ _ => rfl,
    fun _ _ _ => by simp [oneDevice]⟩

end MyJavaExample.Fs
