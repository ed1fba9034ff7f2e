import MyJavaExample.Fs.BitmapZones

/-!
# When no block is left

`new_block` gives out the first bit that is clear in the zone maps.  It sets the
bit before it looks whether there is a block for it, so that the maps of a full
device are left alone only if no bit past its end is clear.
-/

namespace MyJavaExample.Fs

open Lib

/-! ## The first bit -/

theorem getLsbD_of_lt_bsf {v : BitVec 32} {d i : ℕ} (h : bsf v = some d) (hi : i < d) :
    v.getLsbD i = false := by
  have hnot := (List.find?_range_eq_some.1 h).2.2 i hi
  simpa using hnot

theorem bsf_eq_none {v : BitVec 32} (h : bsf v = none) (i : ℕ) (hi : i < 32) :
    v.getLsbD i = false := by
  have hnot := List.find?_range_eq_none.1 h i hi
  simpa using hnot

/-- The bits from `32 * k` up to the result are set. -/
theorem bit_of_lt_findFirstZeroFrom {addr : BlockData} {n k i : ℕ} (hn : n + k = 256)
    (hle : 32 * k ≤ i) (hlt : i < findFirstZeroFrom addr n (32 * k)) (hi : i < 8192) :
    addr.bit i = true := by
  induction n generalizing k with
  | zero => omega
  | succ n ih =>
      simp only [findFirstZeroFrom] at hlt
      have hk : k < 256 := by omega
      have hword : 32 * k / 32 = k := by omega
      -- The bits of the word itself are those that `bsf` has passed over.
      have hset (hdiv : i / 32 = k) (hclear : (~~~lods addr (32 * k)).getLsbD (i % 32) = false) :
          addr.bit i = true := by
        have hmod : i % 32 < 32 := Nat.mod_lt _ (by decide)
        simpa [Bitmap.bit, lods, hdiv, hword, hk, hmod] using hclear
      split at hlt
      next edx hbsf =>
        obtain ⟨hedx, -⟩ := bsf_eq_some hbsf
        exact hset (by omega) (getLsbD_of_lt_bsf hbsf (by omega))
      next hbsf =>
        by_cases hdiv : i / 32 = k
        · exact hset hdiv (bsf_eq_none hbsf _ (Nat.mod_lt _ (by decide)))
        · have hsucc : 32 * k + 32 = 32 * (k + 1) := by omega
          rw [hsucc] at hlt
          exact ih (by omega) (by omega) hlt

theorem bit_of_lt_findFirstZero {addr : BlockData} {i : ℕ} (hlt : i < findFirstZero addr)
    (hi : i < 8192) : addr.bit i = true :=
  bit_of_lt_findFirstZeroFrom (n := 256) (k := 0) rfl (Nat.zero_le i) hlt hi

/-- Setting a bit that was clear changes the map. -/
theorem insert_ne {m : BlockData} {j : ℕ} (hj : j < 8192) (h : m.bit j = false) :
    m.insert j ≠ m := by
  intro heq
  have hbit : (m.insert j).bit j = true := by
    simp [Bitmap.bit_insert (n := 256) (w := 32) hj]
  rw [heq, h] at hbit
  cases hbit

namespace Buffers

variable {c : Buffers} {victim : Option ℕ} {stale : BlockData} {block b : ℕ}

/-- `getblk` changes no other buffer, unless it takes it. -/
theorem getblk_of_ne (h : b ≠ block) : (c.getblk victim stale block).2 b = c b ∨
    (c.getblk victim stale block).2 b = none := by
  unfold getblk
  cases c block with
  | some bh => exact .inl (update_of_ne h)
  | none =>
      simp only [update_of_ne h, evict]
      cases c b with
      | none => exact .inl rfl
      | some bh =>
          dsimp only
          split
          next => exact .inr rfl
          next => exact .inl rfl

theorem count_getblk_ne_one : (c.getblk victim stale block).1.count ≠ 1 ↔ c.Held block := by
  unfold getblk Held
  cases hb : c block with
  | none => simp
  | some bh => simp

end Buffers

namespace ZoneDev

variable {z z' : ZoneDev} {victim : Option ℕ} {stale : BlockData} {i j k block : ℕ} {bh : Buf}

/-- Bit `k` is the first one of the maps that is clear. -/
structure FirstClear (z : ZoneDev) (k : ℕ) : Prop where
  slot_lt : k / 8192 < 8
  clear : ∃ m, z.zoneMap (k / 8192) = some m ∧ m.bit (k % 8192) = false
  set : ∀ i < k, ∀ m, z.zoneMap (i / 8192) = some m → m.bit (i % 8192) = true

/-- The block that `new_block` takes a bit of the maps for. -/
def blockOf (z : ZoneDev) (k : ℕ) : ℤ := zoneBlock z.sb (k / 8192) (k % 8192)

/-- Only block 0 has the number 0 in the cache. -/
theorem blocknr_blockOf (h : z.blockOf k < z.sb.nzones.toNat) :
    blocknr (z.blockOf k) = 0 ↔ z.blockOf k = 0 := by
  have hnzones := z.sb.nzones.toNat_lt
  unfold blocknr blockOf zoneBlock at *
  omega

theorem FirstClear.unique (hi : z.FirstClear i) (hk : z.FirstClear k) : i = k := by
  have hle {i k : ℕ} (hi : z.FirstClear i) (hk : z.FirstClear k) : ¬k < i := by
    intro hlt
    obtain ⟨m, hm, hbit⟩ := hk.clear
    rw [hi.set k hlt m hm] at hbit
    cases hbit
  exact Nat.le_antisymm (Nat.le_of_not_lt (hle hi hk)) (Nat.le_of_not_lt (hle hk hi))

/-- One slot: the loop ends there, or it goes on since the map is full or there
is none. -/
theorem findSlot_succ (z : ZoneDev) (n i : ℕ) :
    (∃ block bh, z.findSlot (n + 1) i = some (i, block, bh, findFirstZero bh.data)) ∨
      z.findSlot (n + 1) i = z.findSlot n (i + 1) ∧
        ∀ m, z.zoneMap i = some m → ∀ b < 8192, m.bit b = true := by
  simp only [findSlot, zoneMap_eq_some]
  cases hz : zmap z.sb i with
  | none => exact .inr ⟨rfl, by simp⟩
  | some block =>
      dsimp only
      cases hb : z.cache block with
      | none => exact .inr ⟨rfl, by simp [hb]⟩
      | some bh =>
          by_cases hfirst : findFirstZero bh.data < 8192
          · exact .inl ⟨block, bh, if_pos hfirst⟩
          · refine .inr ⟨if_neg hfirst, ?_⟩
            rintro m ⟨block', bh', hz', hb', rfl⟩ b hlt
            cases hz'
            rw [hb] at hb'
            cases hb'
            exact bit_of_lt_findFirstZero (by omega) hlt

/-- The maps that the loop has passed over are full. -/
theorem findSlot_full {n : ℕ} (hend : ∀ r, z.findSlot n i = some r → k < r.1) (hle : i ≤ k)
    (hlt : k < i + n) {m : BlockData} (hm : z.zoneMap k = some m) : ∀ b < 8192, m.bit b = true := by
  induction n generalizing i with
  | zero => omega
  | succ n ih =>
      obtain ⟨block, bh, hslot⟩ | ⟨hnext, hfull⟩ := z.findSlot_succ n i
      · exact absurd (hend _ hslot) (Nat.not_lt.2 hle)
      · rw [hnext] at hend
        rcases Nat.eq_or_lt_of_le hle with rfl | hle
        · exact hfull m hm
        · exact ih hend hle (by omega)

/-- The bit is the first one of the map in its slot. -/
theorem findSlot_first {n : ℕ} (h : z.findSlot n i = some (k, block, bh, j)) :
    j = findFirstZero bh.data := by
  induction n generalizing i with
  | zero => cases h
  | succ n ih =>
      obtain ⟨block', bh', hslot⟩ | ⟨hnext, -⟩ := z.findSlot_succ n i
      · rw [hslot] at h
        cases h
        rfl
      · rw [hnext] at h
        exact ih h

theorem findSlot_firstClear (h : z.findSlot 8 0 = some (i, block, bh, j)) :
    z.FirstClear (j + i * 8192) := by
  obtain ⟨-, hi, hz, hb, hj, hclear⟩ := findSlot_spec h
  have hdiv : (j + i * 8192) / 8192 = i := by omega
  have hmod : (j + i * 8192) % 8192 = j := by omega
  refine ⟨by omega, ⟨bh.data, ?_, ?_⟩, fun b hlt m hm => ?_⟩
  · rw [hdiv]
    exact zoneMap_of_zmap hz hb
  · rw [hmod]
    exact hclear
  · rcases Nat.lt_or_ge (b / 8192) i with hslot | hslot
    · refine findSlot_full (i := 0) (n := 8) (fun r hr => ?_) (Nat.zero_le _) (by omega) hm _
        (Nat.mod_lt _ (by decide))
      rw [h] at hr
      cases hr
      exact hslot
    · have hbi : b / 8192 = i := by omega
      rw [hbi, zoneMap_of_zmap hz hb] at hm
      cases hm
      rw [findSlot_first h] at hlt
      exact bit_of_lt_findFirstZero (by omega) (Nat.mod_lt _ (by decide))

theorem findSlot_eq_none (h : z.findSlot 8 0 = none) : ¬z.FirstClear k := by
  rintro ⟨hlt, ⟨m, hm, hbit⟩, -⟩
  have hfull := findSlot_full (fun r hr => by rw [h] at hr; cases hr) (Nat.zero_le _)
    (by omega) hm (k % 8192) (Nat.mod_lt _ (by decide))
  rw [hfull] at hbit
  cases hbit

/-- What `new_block` does once the bit of a slot has been set. -/
theorem newBlock_of_findSlot (h : z.findSlot 8 0 = some (i, block, bh, j)) :
    z.newBlock victim stale =
      let c := z.cache.update block { bh with data := bh.data.insert j, dirt := true }
      let b := z.blockOf (j + i * 8192)
      let nr := blocknr b
      if z.sb.nzones.toNat ≤ b then pure (0, { z with cache := c })
      else if (c.getblk victim stale nr).1.count ≠ 1 then throw "new block: count is != 1"
      else
        let bh := { (c.getblk victim stale nr).1 with
          data := clearBlock, uptodate := true, dirt := true }
        pure (nr, { z with cache := (c.getblk victim stale nr).2.brelse nr bh }) := by
  obtain ⟨-, -, -, -, hj, hclear⟩ := findSlot_spec h
  have hdiv : (j + i * 8192) / 8192 = i := by omega
  have hmod : (j + i * 8192) % 8192 = j := by omega
  simp only [newBlock, h, setBit, hclear, blockOf, hdiv, hmod, Bool.false_eq_true, if_false]

/-- The maps have another content in the slot of the bit that was set, whatever
`getblk` did to the other buffers. -/
theorem zoneMap_ne {c : Buffers} {j : ℕ} (hz : zmap z.sb i = some block)
    (hb : z.cache block = some bh) (hj : j < 8192) (hclear : bh.data.bit j = false)
    (hc : c block = none ∨ c block = some { bh with data := bh.data.insert j, dirt := true }) :
    zoneMap { z with cache := c } ≠ z.zoneMap := by
  intro heq
  have hmap := congrFun heq i
  rw [zoneMap_of_zmap hz hb] at hmap
  obtain ⟨block', bh', hz', hb', hdata⟩ := zoneMap_eq_some.1 hmap
  cases hz.symm.trans hz'
  rcases hc with hnone | hsome
  · cases hnone.symm.trans hb'
  · cases hsome.symm.trans hb'
    exact insert_ne hj hclear hdata

/-- `new_block` returns 0 with the maps as they were. -/
def KeepsMaps (z : ZoneDev) (victim : Option ℕ) (stale : BlockData) : Prop :=
  ∀ z', z.newBlock victim stale = .ok (0, z') → z'.zoneMap = z.zoneMap

/-- The first clear bit stands for a block of the device.  That block is not
block 0, which is also the result of a failure; a buffer of block 0 that is in
use makes `new_block` panic. -/
def HasBlock (z : ZoneDev) (k : ℕ) : Prop :=
  z.blockOf k < z.sb.nzones.toNat ∧ (z.blockOf k = 0 → z.cache.Held 0)

/-- A failed allocation leaves the maps alone exactly if the first bit that is
clear stands for a block. -/
theorem newBlock_keepsMaps_iff (z : ZoneDev) (victim : Option ℕ) (stale : BlockData) :
    z.KeepsMaps victim stale ↔ ∀ k, z.FirstClear k → z.HasBlock k := by
  unfold KeepsMaps
  cases hslot : z.findSlot 8 0 with
  | none =>
      refine ⟨fun _ k hk => absurd hk (findSlot_eq_none hslot), fun _ z' hok => ?_⟩
      simp only [newBlock, hslot] at hok
      cases hok
      rfl
  | some slot =>
      obtain ⟨i, block, bh, j⟩ := slot
      have hfirst := findSlot_firstClear hslot
      obtain ⟨-, -, hz, hb, hj, hclear⟩ := findSlot_spec hslot
      have hiff : (∀ k, z.FirstClear k → z.HasBlock k) ↔ z.HasBlock (j + i * 8192) :=
        ⟨fun h => h _ hfirst, fun h k hk => hk.unique hfirst ▸ h⟩
      rw [newBlock_of_findSlot hslot, hiff, HasBlock]
      dsimp only
      generalize hc : z.cache.update block { bh with data := bh.data.insert j, dirt := true } = c
      have hset : c block = some { bh with data := bh.data.insert j, dirt := true } := by
        rw [← hc]
        exact Buffers.update_self
      have hne : block ≠ 0 := by
        unfold zmap at hz
        split at hz
        next => cases hz; omega
        next => cases hz
      have hheld : c.Held 0 ↔ z.cache.Held 0 := by
        rw [← hc]
        unfold Buffers.Held
        rw [Buffers.update_of_ne hne.symm]
      have hzero := z.blocknr_blockOf (k := j + i * 8192)
      generalize z.blockOf (j + i * 8192) = b at hzero
      by_cases hend : z.sb.nzones.toNat ≤ b
      · rw [if_pos hend]
        refine ⟨fun h => absurd (h _ rfl) (zoneMap_ne hz hb hj hclear (.inr hset)),
          fun h => absurd h.1 (Int.not_lt.2 hend)⟩
      · rw [if_neg hend]
        replace hend := Int.lt_of_not_ge hend
        replace hzero := hzero hend
        by_cases hcount : (c.getblk victim stale (blocknr b)).1.count ≠ 1
        · rw [if_pos hcount]
          refine ⟨fun _ => ⟨hend, fun hb₀ => hheld.1 ?_⟩, fun _ z' hok => by cases hok⟩
          have hheld' := Buffers.count_getblk_ne_one.1 hcount
          rwa [hzero.2 hb₀] at hheld'
        · rw [if_neg hcount]
          by_cases hnr : blocknr b = 0
          · rw [hnr] at hcount ⊢
            refine ⟨fun h => absurd (h _ rfl) (zoneMap_ne hz hb hj hclear ?_), fun h => ?_⟩
            · unfold Buffers.brelse
              rw [Buffers.update_of_ne hne, ← hset]
              exact (Buffers.getblk_of_ne hne).symm
            · have hheld' := hheld.2 (h.2 (hzero.1 hnr))
              exact absurd (Buffers.count_getblk_ne_one.2 hheld') hcount
          · refine ⟨fun _ => ⟨hend, fun h => absurd (hzero.2 h) hnr⟩, fun _ z' hok => ?_⟩
            injection hok with hpair
            exact absurd (congrArg Prod.fst hpair) hnr

/-- One data zone, which is in use, and a map with two bits set. -/
def fullDev : ZoneDev where
  sb := ⟨1, 1, 10, 11, SUPER_MAGIC⟩
  cache := fun b => if b = 3 then some ⟨1, true, false, fun w => if w = 0 then 3 else 0⟩ else none

/-- On the full device `new_block` finds no block and sets bit 2 all the same. -/
theorem fullDev_newBlock : ¬fullDev.KeepsMaps none clearBlock := by
  intro h
  have hbit := congrArg (fun maps => zoneBit maps 2) (h _ rfl)
  revert hbit
  decide +kernel

end ZoneDev

end MyJavaExample.Fs
