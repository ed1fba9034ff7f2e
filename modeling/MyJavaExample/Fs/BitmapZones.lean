import MyJavaExample.Fs.Bitmap

/-!
# Zones are allocated once

`new_block` sets exactly one bit of the zone map, one that was clear, and
`free_block` of the block it returned clears exactly that bit.  Both need that
the block is not a map block itself, which follows from the reference counts.
-/

namespace MyJavaExample.Fs

open Lib

/-! ## The cache -/

namespace Buffers

variable {c : Buffers} {victim : Option ℕ} {stale : BlockData} {block b : ℕ} {bh : Buf}

@[simp] theorem update_self : c.update block bh block = some bh := if_pos rfl

theorem update_of_ne (h : b ≠ block) : c.update block bh b = c b := if_neg h

theorem evict_of_count_ne_zero (hb : c b = some bh) (hcount : bh.count ≠ 0) :
    c.evict victim b = some bh := by
  simp [evict, hb, hcount]

theorem getblk_self : (c.getblk victim stale block).2 block =
    some (c.getblk victim stale block).1 := by
  unfold getblk
  cases c block <;> simp

/-- A buffer that is in use elsewhere is not the one that `getblk` gives to its
first user. -/
theorem getblk_of_count (hone : (c.getblk victim stale block).1.count = 1) (hb : c b = some bh)
    (hcount : bh.count ≠ 0) : b ≠ block ∧ (c.getblk victim stale block).2 b = some bh := by
  unfold getblk at hone ⊢
  cases hc : c block with
  | none =>
      have hne : b ≠ block := fun h => by simp [← h, hb] at hc
      refine ⟨hne, ?_⟩
      simp only [update_of_ne hne]
      exact evict_of_count_ne_zero hb hcount
  | some bh' =>
      have hzero : bh'.count = 0 := by
        simp only [hc] at hone
        simpa using hone
      have hne : b ≠ block := by
        rintro rfl
        rw [hb] at hc
        cases hc
        exact hcount hzero
      refine ⟨hne, ?_⟩
      simp only [update_of_ne hne, hb]

end Buffers

/-! ## The zone maps -/

namespace ZoneDev

variable {z z' : ZoneDev} {i k block : ℕ} {bh : Buf}

/-- The maps with one zone more. -/
def insertZone (z : ZoneDev) (k : ℕ) : ℕ → Option BlockData := fun i =>
  if i = k / 8192 then (z.zoneMap i).map (·.insert (k % 8192)) else z.zoneMap i

/-- The maps with one zone less. -/
def eraseZone (z : ZoneDev) (k : ℕ) : ℕ → Option BlockData := fun i =>
  if i = k / 8192 then (z.zoneMap i).map (·.erase (k % 8192)) else z.zoneMap i

/-- The bit of the maps with number `k`. -/
def zoneBit (maps : ℕ → Option BlockData) (k : ℕ) : Bool :=
  match maps (k / 8192) with
  | some m => m.bit (k % 8192)
  | none => false

/-- The number of the bit that stands for a zone. -/
def zoneNr (z : ZoneDev) (block : ℕ) : ℕ := block + 1 - z.sb.firstdatazone.toNat

theorem zoneNr_congr (hsb : z'.sb = z.sb) : z'.zoneNr block = z.zoneNr block := by
  unfold zoneNr
  rw [hsb]

/-- The superblock of a mounted device, its map buffers in use, and the bit that
stands for no zone. -/
structure Mounted (z : ZoneDev) : Prop where
  firstdatazone_pos : 1 ≤ z.sb.firstdatazone.toNat
  zmapBlocks_pos : 1 ≤ z.sb.zmapBlocks.toNat
  zmapBlocks_le : z.sb.zmapBlocks.toNat ≤ 8
  held : ∀ i block, zmap z.sb i = some block → ∃ bh, z.cache block = some bh ∧ bh.count ≠ 0
  first : zoneBit z.zoneMap 0 = true

theorem zmap_inj (hi : zmap z.sb i = some block) (hk : zmap z.sb k = some block) : i = k := by
  unfold zmap at hi hk
  split at hi <;> split at hk <;> simp_all
  omega

theorem zoneMap_eq_some {m : BlockData} : z.zoneMap i = some m ↔
    ∃ block bh, zmap z.sb i = some block ∧ z.cache block = some bh ∧ bh.data = m := by
  simp [zoneMap, Option.bind_eq_some_iff]

theorem zoneMap_of_zmap (hz : zmap z.sb i = some block) (hb : z.cache block = some bh) :
    z.zoneMap i = some bh.data :=
  zoneMap_eq_some.2 ⟨block, bh, hz, hb, rfl⟩

/-- The maps depend on the map buffers only. -/
theorem zoneMap_congr (hsb : z'.sb = z.sb)
    (h : ∀ i block, zmap z.sb i = some block → z'.cache block = z.cache block) :
    z'.zoneMap = z.zoneMap := by
  funext i
  unfold zoneMap
  rw [hsb]
  cases hz : zmap z.sb i with
  | none => rfl
  | some block => simp [h i block hz]

theorem zoneMap_update (hz : zmap z.sb i = some block) (bh : Buf) (k : ℕ) :
    zoneMap { z with cache := z.cache.update block bh } k =
      if k = i then some bh.data else z.zoneMap k := by
  by_cases hk : k = i
  · subst hk
    rw [if_pos rfl]
    exact zoneMap_of_zmap hz Buffers.update_self
  · rw [if_neg hk]
    unfold zoneMap
    cases hz' : zmap z.sb k with
    | none => rfl
    | some block' =>
        have hne : block' ≠ block := fun h => hk (zmap_inj (h ▸ hz') hz)
        simp [Buffers.update_of_ne hne]

theorem Mounted.update (h : z.Mounted) (hz : zmap z.sb i = some block) (hcount : bh.count ≠ 0)
    (hfirst : i = 0 → ∀ m, z.zoneMap i = some m → m.bit 0 = true → bh.data.bit 0 = true) :
    Mounted { z with cache := z.cache.update block bh } where
  firstdatazone_pos := h.firstdatazone_pos
  zmapBlocks_pos := h.zmapBlocks_pos
  zmapBlocks_le := h.zmapBlocks_le
  held := by
    intro k b hk
    by_cases hb : b = block
    · exact ⟨bh, by simp [hb], hcount⟩
    · simpa [Buffers.update_of_ne hb] using h.held k b hk
  first := by
    have h₀ := h.first
    unfold zoneBit at h₀ ⊢
    rw [zoneMap_update hz]
    by_cases hi : 0 / 8192 = i
    · subst hi
      rw [if_pos rfl]
      split at h₀
      next m hm => exact hfirst rfl m hm h₀
      next hm => cases h₀
    · rw [if_neg hi]
      exact h₀

/-- Changes of the cache away from the map buffers. -/
theorem Mounted.congr (h : z.Mounted) (hsb : z'.sb = z.sb)
    (hcache : ∀ i block, zmap z.sb i = some block → z'.cache block = z.cache block) :
    z'.Mounted where
  firstdatazone_pos := hsb ▸ h.firstdatazone_pos
  zmapBlocks_pos := hsb ▸ h.zmapBlocks_pos
  zmapBlocks_le := hsb ▸ h.zmapBlocks_le
  held := fun i block hz => by
    rw [hsb] at hz
    rw [hcache i block hz]
    exact h.held i block hz
  first := by rw [zoneMap_congr hsb hcache]; exact h.first

theorem findSlot_spec {n j : ℕ} (h : z.findSlot n i = some (k, block, bh, j)) :
    i ≤ k ∧ k < i + n ∧ zmap z.sb k = some block ∧ z.cache block = some bh ∧ j < 8192 ∧
      bh.data.bit j = false := by
  induction n generalizing i with
  | zero => cases h
  | succ n ih =>
      have hnext : z.findSlot n (i + 1) = some (k, block, bh, j) → i ≤ k ∧ k < i + (n + 1) ∧
          zmap z.sb k = some block ∧ z.cache block = some bh ∧ j < 8192 ∧
          bh.data.bit j = false := by
        intro h
        obtain ⟨hle, hlt, hrest⟩ := ih h
        exact ⟨Nat.le_of_succ_le hle, by omega, hrest⟩
      unfold findSlot at h
      cases hz : zmap z.sb i with
      | none =>
          simp only [hz] at h
          exact hnext h
      | some b =>
          simp only [hz] at h
          cases hb : z.cache b with
          | none =>
              simp only [hb] at h
              exact hnext h
          | some bh' =>
              simp only [hb] at h
              split at h
              next hlt =>
                cases h
                exact ⟨Nat.le_refl _, by omega, hz, hb, hlt, bit_findFirstZero hlt⟩
              next hlt => exact hnext h

/-- With a first data zone no bit stands for a negative block. -/
theorem Mounted.zoneBlock_eq (h : z.Mounted) (i j : ℕ) :
    zoneBlock z.sb i j = (j + i * 8192 + (z.sb.firstdatazone.toNat - 1) : ℕ) := by
  have hpos := h.firstdatazone_pos
  unfold zoneBlock
  omega

/-- What `new_block` did: the maps are as before, or one bit of them that was
clear has been set, and then the block it returned stands for that bit and has
a buffer full of zeros. -/
structure NewBlock (z z' : ZoneDev) (j k : ℕ) : Prop where
  clear : zoneBit z.zoneMap k = false
  maps : z'.zoneMap = z.insertZone k
  slot : ∃ m, z.zoneMap (k / 8192) = some m
  block : j ≠ 0 → j = k + (z.sb.firstdatazone.toNat - 1) ∧ j < z.sb.nzones.toNat ∧
    z'.cache j = some ⟨0, true, true, clearBlock⟩

/-- Setting a bit of one map. -/
theorem insertZone_of_update (hz : zmap z.sb i = some block) (hb : z.cache block = some bh)
    {j : ℕ} (hj : j < 8192) :
    zoneMap ⟨z.sb, z.cache.update block { bh with data := bh.data.insert j, dirt := true }⟩ =
      z.insertZone (j + i * 8192) := by
  funext k
  have hdiv : (j + i * 8192) / 8192 = i := by omega
  have hmod : (j + i * 8192) % 8192 = j := by omega
  rw [zoneMap_update hz]
  unfold insertZone
  rw [hdiv, hmod]
  by_cases hk : k = i
  · subst hk
    simp [zoneMap_of_zmap hz hb]
  · simp [hk]

theorem Mounted.insert_bit (h : z.Mounted) (hz : zmap z.sb i = some block)
    (hb : z.cache block = some bh) {j : ℕ} (hj : j < 8192) :
    Mounted ⟨z.sb, z.cache.update block { bh with data := bh.data.insert j, dirt := true }⟩ := by
  obtain ⟨bh', hb', hcount⟩ := h.held i block hz
  obtain rfl : bh = bh' := by simpa [hb] using hb'
  refine h.update hz hcount fun _ m hm hbit => ?_
  rw [zoneMap_of_zmap hz hb] at hm
  cases hm
  simp [Bitmap.bit_insert (n := 256) (w := 32) hj, hbit]

/-- The map buffers are in use, so a buffer with a single user is none of
them. -/
theorem Mounted.getblk_frame (h : z.Mounted) {victim : Option ℕ} {stale : BlockData} {j : ℕ}
    (hone : (z.cache.getblk victim stale j).1.count = 1) (bh : Buf) (hz : zmap z.sb i = some block) :
    (z.cache.getblk victim stale j).2.brelse j bh block = z.cache block := by
  obtain ⟨bh', hb, hcount⟩ := h.held i block hz
  obtain ⟨hne, heq⟩ := Buffers.getblk_of_count hone hb hcount
  rw [Buffers.brelse, Buffers.update_of_ne hne, heq, hb]

theorem Mounted.newBlock (h : z.Mounted) {victim : Option ℕ} {stale : BlockData} {j : ℕ}
    (hnew : z.newBlock victim stale = .ok (j, z')) :
    z'.Mounted ∧ z'.sb = z.sb ∧ ((j = 0 ∧ z' = z) ∨ ∃ k, NewBlock z z' j k) := by
  unfold ZoneDev.newBlock at hnew
  cases hslot : z.findSlot 8 0 with
  | none =>
      simp only [hslot] at hnew
      cases hnew
      exact ⟨h, rfl, .inl ⟨rfl, rfl⟩⟩
  | some slot =>
      obtain ⟨i, block, bh, nr⟩ := slot
      obtain ⟨-, -, hz, hb, hnr, hclear⟩ := findSlot_spec hslot
      simp only [hslot, setBit, hclear, Bool.false_eq_true, if_false] at hnew
      have hdiv : (nr + i * 8192) / 8192 = i := by omega
      have hmod : (nr + i * 8192) % 8192 = nr := by omega
      have hmap := zoneMap_of_zmap hz hb
      have hkclear : zoneBit z.zoneMap (nr + i * 8192) = false := by
        simp [zoneBit, hdiv, hmod, hmap, hclear]
      have hkslot : ∃ m, z.zoneMap ((nr + i * 8192) / 8192) = some m := ⟨_, hdiv ▸ hmap⟩
      have hmaps := insertZone_of_update hz hb hnr
      have hmounted := h.insert_bit hz hb hnr
      generalize z.cache.update block { bh with data := bh.data.insert nr, dirt := true } = c
        at hnew hmaps hmounted
      rw [h.zoneBlock_eq] at hnew
      split at hnew
      next hge =>
        cases hnew
        exact ⟨hmounted, rfl, .inr ⟨_, hkclear, hmaps, hkslot, fun hj => absurd rfl hj⟩⟩
      next hlt =>
        have hlt := Int.ofNat_lt.1 (Int.lt_of_not_ge hlt)
        have hnzones := z.sb.nzones.toNat_lt
        rw [blocknr_natCast (by omega)] at hnew
        split at hnew
        next => cases hnew
        next hone =>
          cases hnew
          have hone := Classical.not_not.1 hone
          have hframe := fun k b (hk : zmap z.sb k = some b) => hmounted.getblk_frame hone
            { (c.getblk victim stale (nr + i * 8192 + (z.sb.firstdatazone.toNat - 1))).1 with
              data := clearBlock, uptodate := true, dirt := true } hk
          refine ⟨hmounted.congr rfl hframe, rfl, .inr ⟨_, hkclear, ?_, hkslot, fun _ => ?_⟩⟩
          · rw [← hmaps]
            exact zoneMap_congr rfl hframe
          · refine ⟨rfl, hlt, ?_⟩
            simp only [Buffers.brelse, Buffers.update_self, hone]
            rfl

theorem eraseZone_of_update (hz : zmap z.sb (k / 8192) = some block)
    (hb : z.cache block = some bh) :
    zoneMap ⟨z.sb, z.cache.update block
      { bh with data := bh.data.erase (k % 8192), dirt := true }⟩ = z.eraseZone k := by
  funext i
  rw [zoneMap_update hz]
  unfold eraseZone
  by_cases hi : i = k / 8192
  · subst hi
    simp [zoneMap_of_zmap hz hb]
  · simp [hi]

/-- The bit of an allocated zone is not the first one, so it can be cleared. -/
theorem Mounted.freeBit (h : z.Mounted) (hle : z.sb.firstdatazone.toNat ≤ block)
    (hbit : zoneBit z.zoneMap (z.zoneNr block) = true) :
    ∃ z', z.freeBit block = .ok z' ∧ z'.Mounted ∧ z'.sb = z.sb ∧
      z'.zoneMap = z.eraseZone (z.zoneNr block) := by
  have hpos := h.firstdatazone_pos
  have hnr : z.zoneNr block ≠ 0 := by
    unfold zoneNr
    omega
  unfold zoneBit at hbit
  split at hbit
  next m hm =>
    obtain ⟨b, bh, hz, hb, rfl⟩ := zoneMap_eq_some.1 hm
    obtain ⟨bh', hb', hcount⟩ := h.held _ b hz
    obtain rfl : bh = bh' := by simpa [hb] using hb'
    refine ⟨⟨z.sb, z.cache.update b
      { bh with data := bh.data.erase (z.zoneNr block % 8192), dirt := true }⟩, ?_, ?_, rfl,
      eraseZone_of_update hz hb⟩
    · unfold ZoneDev.freeBit
      unfold zoneNr at hz hbit ⊢
      simp only [hz, hb, clearBit, hbit, Bool.not_true, Bool.false_eq_true, if_false]
      rfl
    · refine h.update hz hcount fun hi m hm' h₀ => ?_
      have hlt : z.zoneNr block % 8192 < 256 * 32 := Nat.mod_lt _ (by decide)
      rw [hm] at hm'
      cases hm'
      have hne : 0 ≠ z.zoneNr block % 8192 := by omega
      simp [Bitmap.bit_erase hlt, h₀, hne]
  next => cases hbit

theorem Mounted.freeBlock (h : z.Mounted) (hle : z.sb.firstdatazone.toNat ≤ block)
    (hlt : block < z.sb.nzones.toNat) (hbit : zoneBit z.zoneMap (z.zoneNr block) = true)
    (hfree : ∀ bh, z.cache block = some bh → bh.count = 0) :
    ∃ z', z.freeBlock block = .ok z' ∧ z'.Mounted ∧ z'.sb = z.sb ∧
      z'.zoneMap = z.eraseZone (z.zoneNr block) := by
  have hrange : ¬(block < z.sb.firstdatazone.toNat ∨ z.sb.nzones.toNat ≤ block) := by omega
  unfold ZoneDev.freeBlock
  simp only [hrange, if_false]
  cases hb : z.cache block with
  | none =>
      simp only [Buffers.getHashTable, hb, Option.map_none]
      exact h.freeBit hle hbit
  | some bh =>
      have hzero := hfree bh hb
      simp only [Buffers.getHashTable, hb, Option.map_some, hzero, UInt8.zero_add, ne_eq,
        not_true_eq_false, if_false]
      have hframe : ∀ i b, zmap z.sb i = some b →
          z.cache.brelse block ⟨1, false, false, bh.data⟩ b = z.cache b := by
        intro i b hz
        obtain ⟨bh', hb', hcount⟩ := h.held i b hz
        have hne : b ≠ block := by
          rintro rfl
          rw [hb] at hb'
          cases hb'
          exact hcount hzero
        rw [Buffers.brelse, Buffers.update_of_ne hne]
      have hmaps : zoneMap ⟨z.sb, z.cache.brelse block ⟨1, false, false, bh.data⟩⟩ = z.zoneMap :=
        zoneMap_congr rfl hframe
      have hreleased : Mounted ⟨z.sb, z.cache.brelse block ⟨1, false, false, bh.data⟩⟩ :=
        h.congr rfl hframe
      obtain ⟨z', hok, hmounted, hsb, hmap⟩ := hreleased.freeBit hle (by rw [hmaps]; exact hbit)
      refine ⟨z', hok, hmounted, hsb, hmap.trans ?_⟩
      funext i
      simp only [eraseZone, hmaps]
      rfl

/-- Two maps that agree in one bit agree at every place of the map. -/
theorem zoneBit_insertZone (hslot : ∃ m, z.zoneMap (k / 8192) = some m) :
    zoneBit (z.insertZone k) i = (decide (i = k) || zoneBit z.zoneMap i) := by
  have hlt : k % 8192 < 256 * 32 := Nat.mod_lt _ (by decide)
  unfold zoneBit insertZone
  by_cases hi : i / 8192 = k / 8192
  · obtain ⟨m, hm⟩ := hslot
    have heq : i = k ↔ i % 8192 = k % 8192 := by omega
    simp only [hi, if_true, hm, Option.map_some, Bitmap.bit_insert hlt, heq]
  · have hne : i ≠ k := fun h => hi (h ▸ rfl)
    simp [hi, hne]

theorem zoneBit_eraseZone :
    zoneBit (z.eraseZone k) i = (decide (i ≠ k) && zoneBit z.zoneMap i) := by
  have hlt : k % 8192 < 256 * 32 := Nat.mod_lt _ (by decide)
  unfold zoneBit eraseZone
  by_cases hi : i / 8192 = k / 8192
  · have heq : i = k ↔ i % 8192 = k % 8192 := by omega
    cases hm : z.zoneMap (k / 8192) with
    | none => simp [hi, hm]
    | some m => simp only [hi, if_true, hm, Option.map_some, Bitmap.bit_erase hlt, ne_eq, heq]
  · have hne : i ≠ k := fun h => hi (h ▸ rfl)
    simp [hi, hne]

/-- Clearing the bit that has just been set. -/
theorem eraseZone_insertZone (hmaps : z'.zoneMap = z.insertZone k)
    (hclear : zoneBit z.zoneMap k = false) : z'.eraseZone k = z.zoneMap := by
  have hlt : k % 8192 < 256 * 32 := Nat.mod_lt _ (by decide)
  funext i
  unfold eraseZone
  rw [hmaps]
  unfold insertZone
  by_cases hi : i = k / 8192
  · subst hi
    unfold zoneBit at hclear
    cases hm : z.zoneMap (k / 8192) with
    | none => simp
    | some m =>
        simp only [hm] at hclear
        simp [Bitmap.erase_insert hlt hclear]
  · simp [hi]

end ZoneDev

/-! ## Mounting -/

namespace Buffers

variable {c c' : Buffers} {victim : Option ℕ} {disk : ℕ → Option BlockData} {block b n : ℕ}

/-- The buffer of the block is in use. -/
def Held (c : Buffers) (block : ℕ) : Prop := ∃ bh, c block = some bh ∧ bh.count ≠ 0

/-- No buffer has as many users as its count has room for. -/
def Room (c : Buffers) (block : ℕ) : Prop := ∀ bh, c block = some bh → bh.count ≠ 255

/-- `bread` changes no other buffer than `getblk` does. -/
theorem bread_of_ne (hne : b ≠ block) (hread : c.bread victim disk block = some c') :
    c' b = (c.getblk victim clearBlock block).2 b := by
  unfold bread at hread
  dsimp only at hread
  split at hread
  next =>
    cases hread
    rfl
  next =>
    split at hread
    next =>
      cases hread
      exact update_of_ne hne
    next => cases hread

theorem Held.bread_of_ne (h : c.Held b) (hne : b ≠ block)
    (hread : c.bread victim disk block = some c') : c'.Held b := by
  obtain ⟨bh, hb, hcount⟩ := h
  have hget : (c.getblk victim clearBlock block).2 b = some bh := by
    unfold getblk
    cases c block with
    | none =>
        simp only [update_of_ne hne]
        exact evict_of_count_ne_zero hb hcount
    | some bh' => simp only [update_of_ne hne, hb]
  exact ⟨bh, (Buffers.bread_of_ne hne hread).trans hget, hcount⟩

theorem Room.bread_of_ne (h : c.Room b) (hne : b ≠ block)
    (hread : c.bread victim disk block = some c') : c'.Room b := by
  intro bh hb
  rw [Buffers.bread_of_ne hne hread] at hb
  unfold getblk at hb
  cases hc : c block with
  | none =>
      simp only [hc, update_of_ne hne, evict] at hb
      cases hcb : c b with
      | none => simp [hcb] at hb
      | some bh' =>
          simp only [hcb] at hb
          split at hb
          next => cases hb
          next =>
            cases hb
            exact h _ hcb
  | some bh' =>
      simp only [hc, update_of_ne hne] at hb
      exact h bh hb

theorem Room.getblk_count (h : c.Room block) {stale : BlockData} :
    (c.getblk victim stale block).1.count ≠ 0 := by
  unfold getblk
  cases hc : c block with
  | none =>
      have hone : (1 : UInt8) ≠ 0 := by decide
      exact hone
  | some bh =>
      intro hzero
      have hwrap : (255 : UInt8) + 1 = 0 := by decide
      exact h bh hc ((UInt8.add_left_inj 1).1 (hzero.trans hwrap.symm))

theorem Room.held_bread (h : c.Room block) (hread : c.bread victim disk block = some c') :
    c'.Held block := by
  have hcount : (c.getblk victim clearBlock block).1.count ≠ 0 := h.getblk_count
  unfold bread at hread
  dsimp only at hread
  split at hread
  next =>
    cases hread
    exact ⟨_, getblk_self, hcount⟩
  next =>
    split at hread
    next =>
      cases hread
      exact ⟨_, update_self, hcount⟩
    next => cases hread

/-- The blocks that were read are in use, and so are those that were before. -/
theorem held_breadAll {victim : ℕ → Option ℕ} (hroom : ∀ b, block ≤ b → c.Room b)
    (hread : breadAll victim disk n block c = some c') :
    (∀ b, b < block → c.Held b → c'.Held b) ∧ (∀ b, block ≤ b → b < block + n → c'.Held b) ∧
      ∀ b, block + n ≤ b → c'.Room b := by
  induction n generalizing block c with
  | zero =>
      cases hread
      exact ⟨fun b _ h => h, fun b hle hlt => absurd hlt (Nat.not_lt.2 hle), hroom⟩
  | succ n ih =>
      obtain ⟨c₁, hfirst, hrest⟩ := Option.bind_eq_some_iff.1 hread
      obtain ⟨hkeep, hnew, hroom'⟩ := ih
        (fun b hb => (hroom b (by omega)).bread_of_ne (by omega) hfirst) hrest
      refine ⟨fun b hb h => hkeep b (by omega) (h.bread_of_ne (by omega) hfirst), ?_,
        fun b hb => hroom' b (by omega)⟩
      intro b hle hlt
      by_cases hb : b = block
      · subst hb
        exact hkeep b (by omega) ((hroom b (by omega)).held_bread hfirst)
      · exact hnew b (by omega) (by omega)

theorem Held.setFirst {slot : Option ℕ} (h : c.Held b) (hset : c.setFirst slot = some c') :
    c'.Held b := by
  obtain ⟨block, -, hset⟩ := Option.bind_eq_some_iff.1 hset
  obtain ⟨bh, hbh, hset⟩ := Option.bind_eq_some_iff.1 hset
  cases hset
  by_cases hb : b = block
  · subst hb
    obtain ⟨bh', hbh', hcount⟩ := h
    obtain rfl : bh = bh' := by simpa [hbh] using hbh'
    exact ⟨_, update_self, hcount⟩
  · unfold Held
    rwa [update_of_ne hb]

end Buffers

/-- A device that `read_super` has set up is mounted, if its superblock has a
first data zone and no more map blocks than there are slots. -/
theorem ZoneDev.readSuper_mounted {sb : DSuperBlock} {victim : ℕ → Option ℕ}
    {disk : ℕ → Option BlockData} {c : Buffers} {z : ZoneDev}
    (h : readSuper sb victim disk c = some z) (hroom : ∀ b, c.Room b)
    (hpos : 1 ≤ sb.firstdatazone.toNat) (hle : sb.zmapBlocks.toNat ≤ 8) : z.Mounted := by
  obtain ⟨-, -, h⟩ := Option.bind_eq_some_iff.1 h
  obtain ⟨c₁, himap, h⟩ := Option.bind_eq_some_iff.1 h
  obtain ⟨c₂, hzmap, h⟩ := Option.bind_eq_some_iff.1 h
  obtain ⟨c₃, hset, h⟩ := Option.bind_eq_some_iff.1 h
  obtain ⟨c₄, hset', h⟩ := Option.bind_eq_some_iff.1 h
  cases h
  obtain ⟨-, -, hroom₁⟩ := Buffers.held_breadAll (fun b _ => hroom b) himap
  obtain ⟨-, hheld, -⟩ := Buffers.held_breadAll hroom₁ hzmap
  have hmaps : ∀ i block, zmap sb i = some block → c₄.Held block := by
    intro i block hz
    unfold zmap at hz
    split at hz
    next hi =>
      cases hz
      exact ((hheld _ (by omega) (by omega)).setFirst hset).setFirst hset'
    next => cases hz
  obtain ⟨block, hz, hset'⟩ := Option.bind_eq_some_iff.1 hset'
  obtain ⟨bh, hbh, hset'⟩ := Option.bind_eq_some_iff.1 hset'
  cases hset'
  refine ⟨hpos, ?_, hle, hmaps, ?_⟩
  · unfold zmap at hz
    split at hz
    next hlt => exact hlt
    next => cases hz
  · have hmap := zoneMap_of_zmap (z := ⟨sb, c₃.update block { bh with data := bh.data.insert 0 }⟩)
      hz Buffers.update_self
    have hbit : (bh.data.insert 0).bit 0 = true := by
      simp [Bitmap.bit_insert (n := 256) (w := 32) (i := 0) (by decide)]
    simp only [zoneBit, Nat.zero_div, hmap]
    exact hbit

/-! ## Whole runs -/

namespace Zones

open ZoneDev

variable {w : Zones}

/-- The allocated blocks are data zones, no two of them are equal. -/
def Disjoint (w : Zones) : Prop :=
  w.allocated.Nodup ∧ ∀ b ∈ w.allocated,
    w.dev.sb.firstdatazone.toNat ≤ b ∧ b < w.dev.sb.nzones.toNat

/-- What a call does.  A block that is returned is a data zone that was not
allocated; its buffer holds zeros, and freeing it at once gives back the maps of
before.  Freeing a block at any time changes its bit and nothing else. -/
def Meets (w : Zones) : ZoneAction → Prop
  | .newBlock victim stale => ∀ j dev, w.dev.newBlock victim stale = .ok (j, dev) → j ≠ 0 →
      (w.dev.sb.firstdatazone.toNat ≤ j ∧ j < w.dev.sb.nzones.toNat) ∧
      (j ∉ w.allocated ∧ zoneBit w.dev.zoneMap (w.dev.zoneNr j) = false) ∧
      (∃ bh, dev.cache j = some bh ∧ bh.data = clearBlock ∧ bh.uptodate = true) ∧
      ∃ dev', dev.freeBlock j = .ok dev' ∧ dev'.zoneMap = w.dev.zoneMap
  | .freeBlock block => ∃ dev, w.dev.freeBlock block = .ok dev ∧
      dev.zoneMap = w.dev.eraseZone (w.dev.zoneNr block) ∧
      zoneBit w.dev.zoneMap (w.dev.zoneNr block) = true
  | .other _ => True

/-- The bits of the allocated blocks are set. -/
structure Sound (w : Zones) : Prop where
  mounted : w.dev.Mounted
  disjoint : w.Disjoint
  bits : ∀ b ∈ w.allocated, zoneBit w.dev.zoneMap (w.dev.zoneNr b) = true

/-- A block that is returned is a data zone, since bit 0 is never clear. -/
theorem Sound.newBlock (h : w.Sound) {dev : ZoneDev} {j k : ℕ} (hnew : NewBlock w.dev dev j k)
    (hj : j ≠ 0) : w.dev.sb.firstdatazone.toNat ≤ j ∧ j < w.dev.sb.nzones.toNat ∧
      w.dev.zoneNr j = k ∧ j ∉ w.allocated := by
  obtain ⟨hjk, hlt, -⟩ := hnew.block hj
  have hpos := h.mounted.firstdatazone_pos
  have hk : k ≠ 0 := by
    rintro rfl
    have := hnew.clear
    rw [h.mounted.first] at this
    cases this
  have hnr : w.dev.zoneNr j = k := by
    unfold zoneNr
    omega
  refine ⟨by omega, hlt, hnr, fun hmem => ?_⟩
  have := h.bits j hmem
  rw [hnr, hnew.clear] at this
  cases this

theorem Sound.meets (h : w.Sound) {a : ZoneAction} (hv : w.Valid a) : w.Meets a := by
  cases a with
  | newBlock victim stale =>
      intro j dev hok hj
      obtain ⟨hmounted, hsb, ⟨rfl, -⟩ | ⟨k, hnew⟩⟩ := h.mounted.newBlock hok
      · exact absurd rfl hj
      · obtain ⟨hle, hlt, hnr, hnot⟩ := h.newBlock hnew hj
        obtain ⟨hjk, -, hcache⟩ := hnew.block hj
        refine ⟨⟨hle, hlt⟩, ⟨hnot, hnr ▸ hnew.clear⟩, ⟨_, hcache, rfl, rfl⟩, ?_⟩
        have hnr' : dev.zoneNr j = k := (zoneNr_congr hsb).trans hnr
        have hset : zoneBit dev.zoneMap (dev.zoneNr j) = true := by
          rw [hnew.maps, hnr', zoneBit_insertZone hnew.slot]
          simp
        obtain ⟨dev', hfree, -, -, hmaps⟩ := hmounted.freeBlock (hsb ▸ hle) (hsb ▸ hlt) hset
          (fun bh hb => by
            rw [hcache] at hb
            cases hb
            rfl)
        refine ⟨dev', hfree, ?_⟩
        rw [hmaps, hnr']
        exact eraseZone_insertZone hnew.maps hnew.clear
  | freeBlock block =>
      obtain ⟨hmem, hcount⟩ := hv
      obtain ⟨hle, hlt⟩ := h.disjoint.2 block hmem
      obtain ⟨dev, hok, -, -, hmaps⟩ := h.mounted.freeBlock hle hlt (h.bits block hmem) hcount
      exact ⟨dev, hok, hmaps, h.bits block hmem⟩
  | other cache => trivial

theorem Sound.step (h : w.Sound) {a : ZoneAction} (hv : w.Valid a) : (w.step a).Sound := by
  unfold Zones.step
  by_cases hp : w.panicked.isSome = true
  · rwa [if_pos hp]
  rw [if_neg hp]
  cases a with
  | newBlock victim stale =>
      dsimp only
      cases hok : w.dev.newBlock victim stale with
      | error e => exact ⟨h.mounted, h.disjoint, h.bits⟩
      | ok r =>
          obtain ⟨j, dev⟩ := r
          obtain ⟨hmounted, hsb, ⟨rfl, rfl⟩ | ⟨k, hnew⟩⟩ := h.mounted.newBlock hok
          · exact ⟨h.mounted, h.disjoint, h.bits⟩
          have hold : ∀ b ∈ w.allocated, zoneBit dev.zoneMap (dev.zoneNr b) = true := by
            intro b hb
            rw [hnew.maps, zoneNr_congr hsb, zoneBit_insertZone hnew.slot, h.bits b hb, Bool.or_true]
          by_cases hj : j = 0
          · dsimp only
            rw [if_pos hj]
            refine ⟨hmounted, ⟨h.disjoint.1, fun b hb => ?_⟩, hold⟩
            rw [hsb]
            exact h.disjoint.2 b hb
          · obtain ⟨hle, hlt, hnr, hnot⟩ := h.newBlock hnew hj
            dsimp only
            rw [if_neg hj]
            refine ⟨hmounted, ⟨List.nodup_cons.2 ⟨hnot, h.disjoint.1⟩, fun b hb => ?_⟩, fun b hb => ?_⟩
            · rw [hsb]
              rcases List.mem_cons.1 hb with rfl | hb
              · exact ⟨hle, hlt⟩
              · exact h.disjoint.2 b hb
            · rcases List.mem_cons.1 hb with rfl | hb
              · rw [hnew.maps, zoneNr_congr hsb, hnr, zoneBit_insertZone hnew.slot]
                simp
              · exact hold b hb
  | freeBlock block =>
      obtain ⟨hmem, hcount⟩ := hv
      obtain ⟨hle, hlt⟩ := h.disjoint.2 block hmem
      obtain ⟨dev, hok, hmounted, hsb, hmaps⟩ :=
        h.mounted.freeBlock hle hlt (h.bits block hmem) hcount
      simp only [hok]
      refine ⟨hmounted, ⟨h.disjoint.1.erase block, fun b hb => ?_⟩, fun b hb => ?_⟩
      · rw [hsb]
        exact h.disjoint.2 b (List.mem_of_mem_erase hb)
      · obtain ⟨hne, hb⟩ := (h.disjoint.1.mem_erase_iff).1 hb
        have hpos := h.mounted.firstdatazone_pos
        have hb' := h.disjoint.2 b hb
        have hnr : w.dev.zoneNr b ≠ w.dev.zoneNr block := by
          unfold zoneNr
          omega
        rw [hmaps, zoneNr_congr hsb, zoneBit_eraseZone, h.bits b hb]
        simp [hnr]
  | other cache =>
      have hmaps : zoneMap ⟨w.dev.sb, cache⟩ = w.dev.zoneMap := by
        funext i
        unfold zoneMap
        cases hz : zmap w.dev.sb i with
        | none => rfl
        | some block =>
            obtain ⟨bh, hb, -⟩ := h.mounted.held i block hz
            obtain ⟨bh', hb', -, hdata⟩ := hv i block bh hz hb
            simp [hb, hb', hdata]
      refine ⟨⟨h.mounted.firstdatazone_pos, h.mounted.zmapBlocks_pos, h.mounted.zmapBlocks_le,
        ?_, ?_⟩, h.disjoint, ?_⟩
      · intro i block hz
        obtain ⟨bh, hb, -⟩ := h.mounted.held i block hz
        obtain ⟨bh', hb', hcount, -⟩ := hv i block bh hz hb
        exact ⟨bh', hb', hcount⟩
      · rw [hmaps]
        exact h.mounted.first
      · intro b hb
        rw [hmaps]
        exact h.bits b hb

/-- On a mounted device a zone is never allocated twice, and freeing undoes what
allocating did. -/
theorem zones_allocated_once {z : ZoneDev} (hz : z.Mounted) (as : List ZoneAction)
    (h : EachStep step Valid ⟨z, [], none⟩ as) :
    EachStep step Meets ⟨z, [], none⟩ as ∧ Always step Disjoint ⟨z, [], none⟩ as := by
  have hsound : Sound ⟨z, [], none⟩ :=
    ⟨hz, ⟨List.nodup_nil, fun b hb => absurd hb List.not_mem_nil⟩,
      fun b hb => absurd hb List.not_mem_nil⟩
  exact ⟨h.of_invariant (fun s a hs hv => hs.meets hv) (fun s a hs hv => hs.step hv) hsound,
    h.always (fun s hs => hs.disjoint) (fun s a hs hv => hs.step hv) hsound⟩

/-- Two blocks are allocated, the first is freed and allocated again. -/
theorem zones_allocated_once_small :
    let as := [.newBlock none clearBlock, .newBlock none clearBlock, .freeBlock 10,
      .newBlock none clearBlock]
    ∃ z, readSuper ⟨1, 1, 10, 20, SUPER_MAGIC⟩ (fun _ => none) (fun _ => some clearBlock)
        (fun _ => none) = some z ∧ (as.foldl step ⟨z, [], none⟩).allocated = [10, 11] ∧
      EachStep step Meets ⟨z, [], none⟩ as ∧ Always step Disjoint ⟨z, [], none⟩ as := by
  intro as
  have hroom : ∀ b, Buffers.Room (fun _ => none) b := by
    intro b bh h
    cases h
  refine ⟨_, rfl, by decide +kernel, ?_⟩
  refine zones_allocated_once (@readSuper_mounted ⟨1, 1, 10, 20, SUPER_MAGIC⟩ (fun _ => none)
    (fun _ => some clearBlock) _ _ rfl hroom (by decide) (by decide)) as ?_
  refine ⟨trivial, trivial, ⟨by decide +kernel, ?_⟩, trivial, trivial⟩
  exact @of_decide_eq_true (∀ bh ∈ _, Buf.count bh = 0) (Option.decidableForallMem _)
    (by decide +kernel)

end Zones

end MyJavaExample.Fs
