import MyJavaExample.Fs.BitmapZones
import MyJavaExample.Fs.ZoneBits

/-!
# A device and the cache below it

A `Device` keeps the zone maps and the reference counts of a mounted device by
themselves; in a `ZoneDev` they are in the buffers of the cache.  `new_block` and
`free_block` do the same to both, whatever buffers `getblk` takes.
-/

namespace MyJavaExample.Fs

open Lib

namespace Buffers

variable {c : Buffers} {victim : Option ℕ} {stale : BlockData} {block b : ℕ} {bh : Buf}

/-- The references to a block; a block without a buffer has none. -/
def count (c : Buffers) (b : ℕ) : UInt8 := (c b).elim 0 Buf.count

theorem count_of_some (h : c b = some bh) : c.count b = bh.count := by rw [count, h, Option.elim_some]

theorem count_of_none (h : c b = none) : c.count b = 0 := by rw [count, h, Option.elim_none]

theorem count_update (c : Buffers) (block : ℕ) (bh : Buf) :
    (c.update block bh).count = Function.update c.count block bh.count := by
  funext b
  unfold count
  by_cases hb : b = block
  · subst hb
    rw [update_self, Function.update_self, Option.elim_some]
  · rw [update_of_ne hb, Function.update_of_ne hb]

/-- A buffer is taken from another block only if nobody uses it. -/
theorem count_evict (c : Buffers) (victim : Option ℕ) : (c.evict victim).count = c.count := by
  funext b
  unfold count evict
  cases hb : c b with
  | none => rfl
  | some bh =>
      dsimp only
      split
      next h => exact h.2.symm
      next => rfl

theorem count_getblk (c : Buffers) (victim : Option ℕ) (stale : BlockData) (block : ℕ) :
    (c.getblk victim stale block).1.count = c.count block + 1 ∧
      (c.getblk victim stale block).2.count =
        Function.update c.count block (c.count block + 1) := by
  unfold getblk
  cases hb : c block with
  | none =>
      dsimp only
      rw [count_update, count_evict, count_of_none hb]
      exact ⟨rfl, rfl⟩
  | some bh =>
      dsimp only
      rw [count_update, count_of_some hb]
      exact ⟨rfl, rfl⟩

end Buffers

namespace ZoneDev

variable {z : ZoneDev} {d : Device} {i k block : ℕ} {bh : Buf}

/-- `d` is the device `z` with its maps and references read from the cache. -/
structure Represents (z : ZoneDev) (d : Device) : Prop where
  sb : d.sb = z.sb
  zmap : d.zmap = z.zoneMap
  count : d.count = z.cache.count

theorem Represents.mounted (h : z.Represents d) (hz : z.Mounted) : d.Mounted := by
  refine ⟨h.sb ▸ hz.firstdatazone_pos, ?_⟩
  have hfirst := hz.first
  unfold zoneBit at hfirst
  unfold Device.bits
  rw [h.zmap]
  split at hfirst
  next m hm => rw [hm, Option.map_some, hfirst]
  next => cases hfirst

theorem Represents.findSlot (h : z.Represents d) (n i : ℕ) :
    d.findSlot n i = (z.findSlot n i).map fun r => (r.1, r.2.2.1.data, r.2.2.2) := by
  induction n generalizing i with
  | zero => rfl
  | succ n ih =>
      rw [Device.findSlot, ZoneDev.findSlot, h.zmap, zoneMap]
      cases hz : ZoneDev.zmap z.sb i with
      | none => exact ih (i + 1)
      | some block =>
          cases hb : z.cache block with
          | none => simpa [hb] using ih (i + 1)
          | some bh =>
              by_cases hlt : findFirstZero bh.data < 8192
              · simp [hb, hlt]
              · simp [hb, hlt, ih (i + 1)]

/-- Another content of a map, under the same references. -/
theorem Represents.setMap (h : z.Represents d) (hz : ZoneDev.zmap z.sb i = some block)
    (hb : z.cache block = some bh) (m : BlockData) :
    Represents ⟨z.sb, z.cache.update block { bh with data := m, dirt := true }⟩ (d.setMap i m) where
  sb := h.sb
  zmap := by
    funext k
    rw [zoneMap_update hz, Device.setMap, h.zmap]
    by_cases hk : k = i
    · simp [hk]
    · simp [hk]
  count := by
    have hsame : bh.count = z.cache.count block := (Buffers.count_of_some hb).symm
    rw [Buffers.count_update, hsame, Function.update_eq_self]
    exact h.count

theorem Represents.newBlock (h : z.Represents d) (hz : z.Mounted) (victim : Option ℕ)
    (stale : BlockData) :
    Agree (fun r s => r.1 = s.1 ∧ r.2.Represents s.2) (z.newBlock victim stale) d.newBlock := by
  unfold ZoneDev.newBlock Device.newBlock
  rw [h.findSlot]
  cases hslot : z.findSlot 8 0 with
  | none => exact .pure ⟨rfl, h⟩
  | some r =>
      obtain ⟨i, block, bh, j⟩ := r
      obtain ⟨-, -, hmap, hb, hj, hclear⟩ := findSlot_spec hslot
      have hset := h.setMap hmap hb (bh.data.insert j)
      have hmounted := hz.insert_bit hmap hb hj
      simp only [Option.map_some, setBit, hclear, Bool.false_eq_true, if_false, h.sb, Device.sb_setMap]
      generalize z.cache.update block { bh with data := bh.data.insert j, dirt := true } = c
        at hset hmounted
      refine .ite Iff.rfl (fun _ => .pure ⟨rfl, hset⟩) fun _ => ?_
      generalize blocknr (zoneBlock z.sb i j) = nr
      obtain ⟨hcount, hcounts⟩ := c.count_getblk victim stale nr
      have hsame : (d.setMap i (bh.data.insert j)).count nr = c.count nr := congrFun hset.count nr
      refine .ite (by rw [hcount, hsame]) (fun _ => .throw _) fun hone => .pure ⟨rfl, ?_⟩
      have hone := not_not.1 hone
      have hmaps (bh : Buf) : zoneMap ⟨z.sb, (c.getblk victim stale nr).2.brelse nr bh⟩ =
          zoneMap ⟨z.sb, c⟩ := zoneMap_congr rfl fun _ _ hk => hmounted.getblk_frame hone bh hk
      refine ⟨hset.sb, hset.zmap.trans (hmaps _).symm, ?_⟩
      have hzero : c.count nr = 0 := (UInt8.add_left_inj 1).1 (hcount.symm.trans hone)
      have hback : (c.getblk victim stale nr).1.count - 1 = c.count nr := by
        rw [hone, hzero]
        rfl
      rw [Buffers.brelse, Buffers.count_update, hcounts]
      dsimp only
      rw [hback, Function.update_idem, Function.update_eq_self]
      exact hset.count

theorem Represents.freeBit (h : z.Represents d) :
    Agree Represents (z.freeBit block) (d.freeBit block) := by
  unfold ZoneDev.freeBit Device.freeBit
  rw [h.sb, h.zmap]
  generalize block + 1 - z.sb.firstdatazone.toNat = nr
  cases hmap : ZoneDev.zmap z.sb (nr / 8192) with
  | none =>
      have hnone : z.zoneMap (nr / 8192) = none := by simp [zoneMap, hmap]
      simp only [hmap, hnone]
      exact .throw _
  | some b =>
      cases hb : z.cache b with
      | none =>
          have hnone : z.zoneMap (nr / 8192) = none := by simp [zoneMap, hmap, hb]
          simp only [hmap, hb, hnone]
          exact .throw _
      | some bh =>
          simp only [hmap, hb, zoneMap_of_zmap hmap hb, clearBit]
          exact .ite Iff.rfl (fun _ => .throw _) fun _ => .pure (h.setMap hmap hb _)

/-- Of a block that is not one of the maps. -/
theorem Represents.freeBlock (h : z.Represents d) (hblock : ∀ i, ZoneDev.zmap z.sb i ≠ some block) :
    Agree Represents (z.freeBlock block) (d.freeBlock block) := by
  have hkept (bh : Buf) : zoneMap ⟨z.sb, z.cache.update block bh⟩ = z.zoneMap :=
    zoneMap_congr rfl fun i b hk => Buffers.update_of_ne fun hb => hblock i (hb ▸ hk)
  unfold ZoneDev.freeBlock Device.freeBlock
  rw [h.sb, h.count]
  refine .ite Iff.rfl (fun _ => .throw _) fun _ => ?_
  cases hb : z.cache block with
  | none =>
      rw [Buffers.count_of_none hb]
      simp only [Buffers.getHashTable, hb, Option.map_none]
      exact h.freeBit
  | some bh =>
      rw [Buffers.count_of_some hb]
      simp only [Buffers.getHashTable, hb, Option.map_some]
      refine .ite Iff.rfl (fun _ => .pure ⟨h.sb, h.zmap.trans (hkept _).symm, ?_⟩) fun hone => ?_
      · rw [Buffers.count_update, ← h.count]
        rfl
      · have hzero : bh.count = 0 := (UInt8.add_left_inj 1).1 (not_not.1 hone)
        refine Represents.freeBit ⟨h.sb, h.zmap.trans (hkept _).symm, ?_⟩
        have hback : bh.count + 1 - 1 = z.cache.count block := by
          rw [Buffers.count_of_some hb, hzero]
          rfl
        rw [Buffers.brelse, Buffers.count_update]
        dsimp only
        rw [hback, Function.update_eq_self]
        exact h.count

end ZoneDev

end MyJavaExample.Fs
