import MyJavaExample.Fs.Inode
import MyJavaExample.Lib.Outcome

/-!
# The tree of the blocks of an inode

A zone number stands in a slot: in the inode, or at an entry of the indirect
block whose number stands in another slot.  `_bmap` follows the slot of a block.
`bmap` changes nothing, so it is a function of the inode and the device; so is
`create_block` where the block is there.
-/

namespace MyJavaExample.Fs

open Lib

variable {inode : Inode} {d : Device}

theorem Block.short_setShort {j z : ℕ} (b : Block) (k : ℕ) (hz : z < 65536) :
    (b.setShort j z).short k = if j = k then z else b.short k := by
  unfold Block.setShort Block.short
  by_cases hjk : j = k
  · subst hjk
    rw [if_pos rfl, Function.update_self, Function.update_of_ne (by omega), Function.update_self,
      UInt8.toNat_ofNat', UInt8.toNat_ofNat']
    omega
  · rw [if_neg hjk, Function.update_of_ne (by omega), Function.update_of_ne (by omega),
      Function.update_of_ne (by omega), Function.update_of_ne (by omega)]

namespace Device

/-- A reference to the buffer of `b`. -/
def take (d : Device) (b : ℕ) : Device := d.setCount b (d.count b + 1)

theorem bread_readable {b : ℕ} (h : d.readable b = true) : d.bread b = some (d.take b) := if_pos h

theorem bread_unreadable {b : ℕ} (h : d.readable b = false) : d.bread b = none := by
  simp [bread, h]

@[simp] theorem count_take (d : Device) (b : ℕ) : (d.take b).count b = d.count b + 1 :=
  Function.update_self ..

theorem add_one_eq_zero {c : UInt8} : c + 1 = 0 ↔ c = 255 := by
  have hwrap : (255 : UInt8) + 1 = 0 := by decide
  rw [← hwrap]
  exact UInt8.add_left_inj 1

theorem brelse_of_count {d' : Device} {b : ℕ} (h : d'.count = (d.take b).count)
    (hb : d.count b ≠ 255) : d'.brelse b = pure { d' with count := d.count } := by
  have hne : ¬d'.count b = 0 := by
    rw [h, count_take, add_one_eq_zero]
    exact hb
  have hback : Function.update (d.take b).count b ((d.take b).count b - 1) = d.count := by
    rw [count_take, UInt8.add_sub_cancel]
    simp [take, setCount]
  unfold brelse
  rw [if_neg hne, setCount, h, hback]

theorem brelse_take {b : ℕ} (hb : d.count b ≠ 255) : (d.take b).brelse b = pure d :=
  brelse_of_count rfl hb

/-- After 255 references the count has wrapped around. -/
theorem brelse_wrapped {d' : Device} {b : ℕ} (h : d'.count = (d.take b).count)
    (hb : d.count b = 255) : d'.brelse b = throw "Trying to free free buffer" := by
  refine if_pos ?_
  rw [h, count_take, add_one_eq_zero]
  exact hb

/-- The block can be read, but its buffer has 255 references. -/
def Full (d : Device) (b : ℕ) : Prop := b ≠ 0 ∧ d.readable b = true ∧ d.count b = 255

theorem count_ne_of_not_full {b : ℕ} (hb : b ≠ 0) (h : d.readable b = true) (hfull : ¬d.Full b) :
    d.count b ≠ 255 := fun hcount => hfull ⟨hb, h, hcount⟩

/-- The entry `j` of the indirect block `b`; there is no block 0. -/
def child (d : Device) (b j : ℕ) : ℕ :=
  if b ≠ 0 ∧ d.readable b then (d.data b).short j else 0

theorem child_zero (j : ℕ) : d.child 0 j = 0 := by simp [child]

theorem child_readable {b : ℕ} (hb : b ≠ 0) (h : d.readable b = true) (j : ℕ) :
    d.child b j = (d.data b).short j := if_pos ⟨hb, h⟩

theorem child_unreadable {b : ℕ} (h : d.readable b = false) (j : ℕ) : d.child b j = 0 := by
  simp [child, h]

end Device

/-! ## Slots -/

inductive Slot where
  /-- `i_zone[i]`. -/
  | zone (i : ℕ)
  /-- An entry of the indirect block in a slot. -/
  | entry (s : Slot) (j : ℕ)
deriving DecidableEq

/-- The number in a slot, with 0 for none. -/
def Slot.read (inode : Inode) (d : Device) : Slot → ℕ
  | .zone i => inode.zone i
  | .entry s j => d.child (s.read inode d) j

/-- `_bmap` from the inode to a slot. -/
def follow (create : Bool) (inode : Inode) (d : Device) : Slot → Except String (ℕ × Inode × Device)
  | .zone i => inodeZone create i inode d
  | .entry s j => do
      let (z, inode, d) ← follow create inode d s
      if z = 0 then pure (0, inode, d)
      else
        let (i, d) ← indirect create z j d
        pure (i, inode, d)

/-- The slot of a block. -/
def slot (block : ℕ) : Slot :=
  if block < 7 then .zone block
  else if block - 7 < 512 then .entry (.zone 7) (block - 7)
  else .entry (.entry (.zone 8) ((block - 7 - 512) / 512)) ((block - 7 - 512) % 512)

theorem bmapOr_eq (create : Bool) {k : ℕ} (hk : k < BLOCKS) :
    bmapOr create inode k d = follow create inode d (slot k) := by
  have hneg : ¬(k : ℤ) < 0 := by omega
  have hbig : ¬(BLOCKS : ℤ) ≤ k := by omega
  unfold bmapOr slot
  rw [if_neg hneg, if_neg hbig]
  simp only [Int.toNat_natCast]
  by_cases hdirect : k < 7
  · rw [if_pos hdirect, if_pos hdirect]
    rfl
  rw [if_neg hdirect, if_neg hdirect]
  by_cases hsingle : k - 7 < 512
  · rw [if_pos hsingle, if_pos hsingle]
    rfl
  rw [if_neg hsingle, if_neg hsingle]
  simp only [follow, bind_assoc]
  congr 1
  funext r
  split
  next => rfl
  next => simp only [bind_assoc, pure_bind]

theorem bmapOr_big (create : Bool) {k : ℕ} (hk : BLOCKS ≤ k) :
    bmapOr create inode k d = throw "_bmap: block>big" := by
  have hneg : ¬(k : ℤ) < 0 := by omega
  have hbig : (BLOCKS : ℤ) ≤ k := by omega
  unfold bmapOr
  rw [if_neg hneg, if_pos hbig]

/-! ## `new_block` -/

def NewBlockPanic (e : String) : Prop :=
  e = "new_block: bit already set" ∨ e = "new block: count is != 1"

namespace Device

/-- The bit that stands for no zone is set: `read_super` sets it, and no zone that is
freed has it. -/
def First (d : Device) : Prop := ∀ m, d.zmap 0 = some m → m.bit 0 = true

/-- The bit of a slot that is found. -/
theorem findSlot_clear {n i k j : ℕ} {m : BlockData} (h : d.findSlot n i = some (k, m, j)) :
    d.zmap k = some m ∧ j < 8192 ∧ m.bit j = false := by
  induction n generalizing i with
  | zero => cases h
  | succ n ih =>
      rw [findSlot] at h
      split at h
      next => exact ih h
      next m' hm =>
        dsimp only at h
        split at h
        next hlt =>
          cases h
          exact ⟨hm, hlt, bit_findFirstZero hlt⟩
        next => exact ih h

/-- The bit is not the first one, so the block is a natural number. -/
theorem zoneBlock_natCast {k j : ℕ} {m : BlockData} (hfirst : d.First) (hm : d.zmap k = some m)
    (hbit : m.bit j = false) : ∃ z : ℕ, ZoneDev.zoneBlock d.sb k j = z ∧
      z + 1 = k * 8192 + j + d.sb.firstdatazone.toNat := by
  have hpos : 0 < k * 8192 + j := by
    by_contra hzero
    obtain ⟨rfl, rfl⟩ : k = 0 ∧ j = 0 := by omega
    rw [hfirst m hm] at hbit
    cases hbit
  refine ⟨k * 8192 + j + d.sb.firstdatazone.toNat - 1, ?_, by omega⟩
  unfold ZoneDev.zoneBlock
  omega

theorem First.setMap {k j : ℕ} {m : BlockData} (hfirst : d.First) (hm : d.zmap k = some m)
    (hj : j < 8192) : (d.setMap k (m.insert j)).First := by
  intro m' hm'
  by_cases hk : 0 = k
  · subst hk
    have hsame : (d.setMap 0 (m.insert j)).zmap 0 = some (m.insert j) := by
      simp [Device.setMap]
    rw [← Option.some.inj (hsame.symm.trans hm'), Bitmap.bit_insert (show j < 256 * 32 from hj),
      hfirst m hm, Bool.or_true]
  · exact hfirst m' ((Function.update_of_ne hk ..).symm.trans hm')

/-- No reference is kept; a block that was found is empty and can be read. -/
structure NewBlock (d : Device) (z : ℕ) (d' : Device) : Prop where
  count : d'.count = d.count
  first : d'.First
  fresh : z ≠ 0 → d'.readable z = true ∧ d'.data z = .zero ∧ d.count z = 0

theorem newBlock_spec (hfirst : d.First) :
    Ends (fun r => d.NewBlock r.1 r.2 ∧ r.1 < 65536) NewBlockPanic d.newBlock := by
  unfold newBlock
  cases hslot : d.findSlot 8 0 with
  | none => exact .pure ⟨⟨rfl, hfirst, absurd rfl⟩, show 0 < 65536 by decide⟩
  | some r =>
      obtain ⟨i, m, j⟩ := r
      obtain ⟨hm, hj, hbit⟩ := findSlot_clear hslot
      obtain ⟨z, hz, -⟩ := zoneBlock_natCast hfirst hm hbit
      have hset : (d.setMap i (m.insert j)).First := hfirst.setMap hm hj
      have hsb : (d.setMap i (m.insert j)).sb = d.sb := rfl
      dsimp only [setBit]
      rw [hbit, hsb, hz]
      refine .ite (fun h => by cases h) fun _ => .ite
        (fun _ => .pure ⟨⟨rfl, hset, absurd rfl⟩, show 0 < 65536 by decide⟩) fun hlt => ?_
      have hlt' : z < d.sb.nzones.toNat := by omega
      have hz16 : z < 65536 := Nat.lt_trans hlt' d.sb.nzones.toNat_lt
      rw [ZoneDev.blocknr_natCast (by omega)]
      refine .ite (fun _ => .throw (.inr rfl)) fun hcount =>
        .pure ⟨⟨rfl, hset, fun _ => ⟨?_, ?_, ?_⟩⟩, hz16⟩
      · exact Function.update_self ..
      · exact Function.update_self ..
      · exact (UInt8.add_left_inj 1).1 (not_not.1 hcount)

/-- Whatever the map is. -/
theorem newBlock_count {z : ℕ} {d' : Device} (h : d.newBlock = .ok (z, d')) : d'.count = d.count := by
  have hends : Ends (fun r => r.2.count = d.count) (fun _ => True) d.newBlock := by
    unfold newBlock
    split
    next => exact .pure rfl
    next =>
      exact .ite (fun _ => trivial) fun _ => .ite (fun _ => .pure rfl) fun _ =>
        .ite (fun _ => trivial) fun _ => .pure rfl
  rw [h] at hends
  exact hends

end Device

/-! ## The way to a slot -/

/-- The zone of a block, with 0 for none. -/
def mapped (inode : Inode) (d : Device) (block : ℕ) : ℕ := (slot block).read inode d

/-- On the way to a slot there is an indirect block whose buffer has 255 references, and
it is not `new_block` that panics before `brelse` does. -/
def Slot.Full (create : Bool) (inode : Inode) (d : Device) : Slot → Prop
  | .zone _ => False
  | .entry s j => s.Full create inode d ∨ d.Full (s.read inode d) ∧
      (create = true → d.child (s.read inode d) j = 0 →
        ∀ e, (d.take (s.read inode d)).newBlock ≠ .error e)

section

variable {create : Bool} {b j : ℕ} {s : Slot}

theorem indirect_eq (hb : b ≠ 0) (hfull : ¬d.Full b) (h : create = true → d.child b j ≠ 0) :
    indirect create b j d = pure (d.child b j, d) := by
  unfold indirect
  cases hread : d.readable b with
  | false =>
      rw [Device.bread_unreadable hread, Device.child_unreadable hread]
  | true =>
      rw [Device.child_readable hb hread] at h ⊢
      have hold : ¬(create = true ∧ ((d.take b).data b).short j = 0) := fun hnew => h hnew.1 hnew.2
      rw [Device.bread_readable hread]
      simp only [zoneOrNew, hold, if_false, pure_bind, if_true]
      rw [Device.brelse_take (Device.count_ne_of_not_full hb hread hfull)]
      rfl

theorem indirect_full (hfull : d.Full b)
    (hnew : create = true → d.child b j = 0 → ∀ e, (d.take b).newBlock ≠ .error e) :
    indirect create b j d = throw "Trying to free free buffer" := by
  obtain ⟨hb, hread, hcount⟩ := hfull
  unfold indirect
  rw [Device.child_readable hb hread] at hnew
  rw [Device.bread_readable hread]
  dsimp only
  unfold zoneOrNew
  by_cases hempty : create = true ∧ ((d.take b).data b).short j = 0
  · rw [if_pos hempty]
    cases hblock : (d.take b).newBlock with
    | error e => exact absurd hblock (hnew hempty.1 hempty.2 e)
    | ok r =>
        obtain ⟨z, d'⟩ := r
        have hcount' := Device.newBlock_count hblock
        change ((if z = (d'.data b).short j then d' else _ : Device).brelse b >>= _) = _
        rw [Device.brelse_wrapped (d := d) ?_ hcount]
        · rfl
        · split
          next => exact hcount'
          next => exact hcount'
  · rw [if_neg hempty]
    simp only [pure_bind, if_true]
    rw [Device.brelse_wrapped rfl hcount]
    rfl

/-- Where all buffers on the way can be taken, and the slot is not to be filled. -/
theorem follow_eq (hfull : ¬s.Full create inode d) (h : create = true → s.read inode d ≠ 0) :
    follow create inode d s = pure (s.read inode d, inode, d) := by
  induction s with
  | zone i => exact if_neg fun hnew => h hnew.1 hnew.2
  | entry s j ih =>
      rw [Slot.Full, not_or] at hfull
      rw [Slot.read] at h ⊢
      have hne (hcreate : create = true) : s.read inode d ≠ 0 := by
        intro hz
        rw [hz, Device.child_zero] at h
        exact h hcreate rfl
      rw [follow, ih hfull.1 hne]
      simp only [pure_bind]
      by_cases hz : s.read inode d = 0
      · rw [if_pos hz, hz, Device.child_zero]
      · have hblock : ¬d.Full (s.read inode d) := fun hf =>
          hfull.2 ⟨hf, fun hcreate hzero => absurd hzero (h hcreate)⟩
        rw [if_neg hz, indirect_eq hz hblock h]
        rfl

theorem follow_full (hfull : s.Full create inode d) :
    follow create inode d s = throw "Trying to free free buffer" := by
  induction s with
  | zone i => exact hfull.elim
  | entry s j ih =>
      rw [follow]
      by_cases hs : s.Full create inode d
      · rw [ih hs]
        rfl
      · obtain ⟨hblock, hnew⟩ := hfull.resolve_left hs
        rw [follow_eq hs fun _ => hblock.1]
        simp only [pure_bind]
        rw [if_neg hblock.1, indirect_full hblock hnew]
        rfl

end

/-! ## `bmap` -/

theorem bmap_eq {k : ℕ} (hk : k < BLOCKS) (hfull : ¬(slot k).Full false inode d) :
    bmap inode k d = pure (mapped inode d k, inode, d) := by
  unfold bmap mapped
  rw [bmapOr_eq false hk, follow_eq hfull fun h => by cases h]

theorem createBlock_eq {k : ℕ} (hk : k < BLOCKS) (hfull : ¬(slot k).Full true inode d)
    (h : mapped inode d k ≠ 0) : createBlock inode k d = pure (mapped inode d k, inode, d) := by
  unfold createBlock mapped
  rw [bmapOr_eq true hk, follow_eq hfull fun _ => h]

theorem createBlock_full {k : ℕ} (hk : k < BLOCKS) (hfull : (slot k).Full true inode d) :
    createBlock inode k d = throw "Trying to free free buffer" := by
  unfold createBlock
  rw [bmapOr_eq true hk, follow_full hfull]

/-- An empty entry is filled, or `new_block` panics. -/
theorem indirect_new {b j : ℕ} (hfirst : d.First) (hb : b ≠ 0) (h : d.child b j = 0)
    (hfull : ¬(d.Full b ∧ ∀ e, (d.take b).newBlock ≠ .error e)) :
    Ends (fun r => d.NewBlock r.1 r.2) NewBlockPanic (indirect true b j d) := by
  unfold indirect
  cases hread : d.readable b with
  | false =>
      rw [Device.bread_unreadable hread]
      exact .pure ⟨rfl, hfirst, absurd rfl⟩
  | true =>
      rw [Device.bread_readable hread]
      rw [Device.child_readable hb hread] at h
      have hzero : ((d.take b).data b).short j = 0 := h
      simp only [zoneOrNew, hzero, and_self, if_true]
      have hspec := (d.take b).newBlock_spec hfirst
      cases hblock : (d.take b).newBlock with
      | error e =>
          rw [hblock] at hspec
          exact .throw hspec
      | ok r =>
          rw [hblock] at hspec
          obtain ⟨z, d'⟩ := r
          obtain ⟨⟨hcount, hfirst', hnew⟩, -⟩ := hspec
          have hroom : d.count b ≠ 255 := fun hcount => hfull ⟨⟨hb, hread, hcount⟩, by simp [hblock]⟩
          have hne : z ≠ 0 → z ≠ b := by
            rintro hz' rfl
            have hheld := (hnew hz').2.2
            rw [Device.count_take, Device.add_one_eq_zero] at hheld
            exact hroom hheld
          have hfree (hz : z ≠ 0) : d.count z = 0 :=
            (Function.update_of_ne (hne hz) ..).symm.trans (hnew hz).2.2
          change Ends _ _ ((if z = (d'.data b).short j then d' else _ : Device).brelse b >>= _)
          by_cases hsame : z = (d'.data b).short j
          · rw [if_pos hsame, Device.brelse_of_count hcount hroom]
            exact .pure ⟨rfl, hfirst', fun hz => ⟨(hnew hz).1, (hnew hz).2.1, hfree hz⟩⟩
          · rw [if_neg hsame, Device.brelse_of_count (by exact hcount) hroom]
            refine .pure ⟨rfl, hfirst', fun hz => ⟨(hnew hz).1, ?_, hfree hz⟩⟩
            exact (Function.update_of_ne (hne hz) ..).trans (hnew hz).2.1

/-- `create_block` where there is no block. -/
theorem follow_new {s : Slot} (hfirst : d.First) (hfull : ¬s.Full true inode d)
    (h : s.read inode d = 0) :
    Ends (fun r => d.NewBlock r.1 r.2.2) NewBlockPanic (follow true inode d s) := by
  induction s with
  | zone i =>
      have hz : inode.zone i = 0 := h
      simp only [follow, inodeZone, hz, and_self, if_true]
      refine (d.newBlock_spec hfirst).bind fun r hr => .pure ?_
      rw [Nat.mod_eq_of_lt hr.2]
      exact hr.1
  | entry s j ih =>
      rw [Slot.read] at h
      rw [Slot.Full, not_or] at hfull
      rw [follow]
      by_cases hz : s.read inode d = 0
      · refine (ih hfull.1 hz).bind ?_
        rintro ⟨z, inode', d'⟩ ⟨hcount, hfirst', hnew⟩
        dsimp only at hcount hfirst' hnew ⊢
        refine .ite (fun _ => .pure ⟨hcount, hfirst', absurd rfl⟩) fun hz' => ?_
        have hchild : d'.child z j = 0 := by
          rw [Device.child_readable hz' (hnew hz').1, (hnew hz').2.1]
          rfl
        have hroom : ¬d'.Full z := by
          rintro ⟨-, -, h255⟩
          rw [hcount, (hnew hz').2.2] at h255
          cases h255
        refine (indirect_new hfirst' hz' hchild fun hf => hroom hf.1).bind fun r hr => .pure ?_
        exact ⟨hr.count.trans hcount, hr.first, fun hr' => hcount ▸ hr.fresh hr'⟩
      · rw [follow_eq hfull.1 fun _ => hz]
        simp only [pure_bind]
        rw [if_neg hz]
        refine (indirect_new hfirst hz h fun hf => hfull.2 ⟨hf.1, fun _ _ => hf.2⟩).bind
          fun r hr => .pure hr

theorem createBlock_new {k : ℕ} (hfirst : d.First) (hk : k < BLOCKS)
    (hfull : ¬(slot k).Full true inode d) (h : mapped inode d k = 0) :
    Ends (fun r => d.NewBlock r.1 r.2.2) NewBlockPanic (createBlock inode k d) := by
  unfold createBlock
  rw [bmapOr_eq true hk]
  exact follow_new hfirst hfull h

end MyJavaExample.Fs
