import Mathlib.Data.List.Dedup
import MyJavaExample.Fs.BlockTree
import MyJavaExample.Fs.FileOffsets

/-!
# What is read back after `file_write`

The contents of a file are one function from positions to bytes: `byteAt`, where
a hole reads as zeros.  `file_read` reads it, and `create_block` does not change
it; `file_write` changes it where it writes.
-/

namespace MyJavaExample.Fs

open Lib

variable {inode inode' inode'' : Inode} {d d' d'' : Device} {s p : Slot} {i k n pos q x z : ℕ}

/-! ## The bytes of a file -/

/-- The byte at a position. -/
def byteAt (inode : Inode) (d : Device) (q : ℕ) : UInt8 :=
  if mapped inode d (q / BLOCK_SIZE) = 0 then 0
  else d.data (mapped inode d (q / BLOCK_SIZE)) (q % BLOCK_SIZE)

def bytesAt (inode : Inode) (d : Device) (pos n : ℕ) : List UInt8 :=
  (List.range n).map fun k => byteAt inode d (pos + k)

theorem bytesAt_add (m n : ℕ) :
    bytesAt inode d pos (m + n) = bytesAt inode d pos m ++ bytesAt inode d (pos + m) n := by
  unfold bytesAt
  rw [List.range_add, List.map_append, List.map_map]
  simp only [Function.comp_def, Nat.add_assoc]

/-- The bytes within one block. -/
theorem byteAt_block {c : ℕ} (hc : pos % BLOCK_SIZE + c ≤ BLOCK_SIZE) (hk : k < c) :
    byteAt inode d (pos + k) = if mapped inode d (pos / BLOCK_SIZE) = 0 then 0
      else d.data (mapped inode d (pos / BLOCK_SIZE)) (pos % BLOCK_SIZE + k) := by
  have hdiv : (pos + k) / BLOCK_SIZE = pos / BLOCK_SIZE := by
    unfold BLOCK_SIZE at *
    omega
  have hmod : (pos + k) % BLOCK_SIZE = pos % BLOCK_SIZE + k := by
    unfold BLOCK_SIZE at *
    omega
  rw [byteAt, hdiv, hmod]

theorem bytesAt_hole {c : ℕ} (hc : pos % BLOCK_SIZE + c ≤ BLOCK_SIZE)
    (hz : mapped inode d (pos / BLOCK_SIZE) = 0) : bytesAt inode d pos c = List.replicate c 0 := by
  refine List.eq_replicate_iff.2 ⟨by simp [bytesAt], fun b hb => ?_⟩
  obtain ⟨k, hk, rfl⟩ := List.mem_map.1 hb
  rw [byteAt_block hc (List.mem_range.1 hk), if_pos hz]

theorem bytesAt_mapped {c : ℕ} (hc : pos % BLOCK_SIZE + c ≤ BLOCK_SIZE)
    (hz : mapped inode d (pos / BLOCK_SIZE) ≠ 0) : bytesAt inode d pos c =
      (List.range c).map fun k => d.data (mapped inode d (pos / BLOCK_SIZE)) (pos % BLOCK_SIZE + k) := by
  refine List.map_congr_left fun k hk => ?_
  rw [byteAt_block hc (List.mem_range.1 hk), if_neg hz]

/-! ## `file_read` -/

/-- The round of a loop at `pos`: the block, the offset in it and the bytes. -/
theorem round_eq (pos left : ℕ) : ((pos : ℤ).tdiv BLOCK_SIZE = (pos / BLOCK_SIZE : ℕ)) ∧
    (pos : ℤ).tmod BLOCK_SIZE = (pos % BLOCK_SIZE : ℕ) ∧
    min ((BLOCK_SIZE : ℤ) - (pos % BLOCK_SIZE : ℕ)) left =
      (min (BLOCK_SIZE - pos % BLOCK_SIZE) left : ℕ) := by
  have hlt : pos % BLOCK_SIZE < BLOCK_SIZE := Nat.mod_lt _ (by decide)
  refine ⟨?_, ?_, ?_⟩
  · rw [Int.tdiv_eq_ediv_of_nonneg (Int.natCast_nonneg pos)]
    rfl
  · rw [Int.tmod_eq_emod_of_nonneg (Int.natCast_nonneg pos)]
    rfl
  · omega

/-- A round does not end behind its block. -/
theorem round_bounds (pos : ℕ) {left : ℕ} (hleft : left ≠ 0) :
    let c := min (BLOCK_SIZE - pos % BLOCK_SIZE) left
    0 < c ∧ c ≤ left ∧ pos % BLOCK_SIZE + c ≤ BLOCK_SIZE := by
  have hlt : pos % BLOCK_SIZE < BLOCK_SIZE := Nat.mod_lt _ (by decide)
  dsimp only
  omega

theorem block_lt {left : ℕ} (hleft : left ≠ 0) (hend : pos + left ≤ BLOCKS * BLOCK_SIZE) :
    pos / BLOCK_SIZE < BLOCKS := by
  rw [Nat.div_lt_iff_lt_mul (by decide)]
  omega

theorem toInt32_pos (h : pos ≤ BLOCKS * BLOCK_SIZE) : toInt32 (pos : ℤ) = pos := by
  unfold BLOCKS BLOCK_SIZE at h
  exact toInt32_of_range (by omega) (by omega)

theorem fileReadLoop_eq {left : ℕ} (hd : Ready inode d) (hn : left ≤ n)
    (hend : pos + left ≤ BLOCKS * BLOCK_SIZE) :
    fileReadLoop inode n left pos d =
      .ok ⟨0, (pos + left : ℕ), bytesAt inode d pos left, d⟩ := by
  induction n generalizing left pos with
  | zero =>
      obtain rfl : left = 0 := Nat.le_zero.1 hn
      rfl
  | succ n ih =>
      rw [fileReadLoop]
      by_cases hleft : left = 0
      · rw [if_pos (by omega), hleft]
        rfl
      have hleft' : (left : ℤ) ≠ 0 := by omega
      obtain ⟨hdiv, hmod, hmin⟩ := round_eq pos left
      obtain ⟨hpos, hle, hblock⟩ := round_bounds pos hleft
      have hk := block_lt hleft hend
      simp only [hleft', if_false, hdiv, hmod, hmin,
        bmap_eq hk (hd.room.not_full (slot_valid hk)), pure_bind]
      generalize min (BLOCK_SIZE - pos % BLOCK_SIZE) left = c at hpos hle hblock
      have hsum : pos + c + (left - c) = pos + left := by rw [Nat.add_assoc, Nat.add_sub_cancel' hle]
      have hbytes : bytesAt inode d pos left =
          bytesAt inode d pos c ++ bytesAt inode d (pos + c) (left - c) := by
        rw [← bytesAt_add, Nat.add_sub_cancel' hle]
      have hrest : fileReadLoop inode n ((left : ℤ) - c) (toInt32 ((pos : ℤ) + c)) d =
          .ok ⟨0, (pos + left : ℕ), bytesAt inode d (pos + c) (left - c), d⟩ := by
        have hcast : (left : ℤ) - c = (left - c : ℕ) := by omega
        have hnext : toInt32 ((pos : ℤ) + c) = (pos + c : ℕ) := by
          rw [← Int.natCast_add]
          exact toInt32_pos (Nat.le_trans (Nat.add_le_add_left hle pos) hend)
        have hih := @ih (pos + c) (left - c) (by omega) (hsum.symm ▸ hend)
        rw [hcast, hnext, hih, hsum]
      simp only [Int.toNat_natCast, hrest]
      rw [hbytes]
      by_cases hz : mapped inode d (pos / BLOCK_SIZE) = 0
      · rw [if_pos hz, bytesAt_hole hblock hz]
        rfl
      · have hread : d.readable (mapped inode d (pos / BLOCK_SIZE)) = true :=
          hd.readable (slot (pos / BLOCK_SIZE)) (slot_valid hk) hz
        have hroom : d.count (mapped inode d (pos / BLOCK_SIZE)) ≠ 255 :=
          hd.room (slot (pos / BLOCK_SIZE)) (slot_valid hk) hz
        rw [if_neg hz, Device.bread_readable hread, bytesAt_mapped hblock hz]
        simp only [Device.brelse_take hroom, pure_bind]
        rw [hrest]
        rfl

theorem fileRead_eq (hd : Ready inode d) (hend : pos + n ≤ BLOCKS * BLOCK_SIZE) :
    fileRead inode pos n d = .ok (n, ⟨0, (pos + n : ℕ), bytesAt inode d pos n, d⟩) := by
  unfold fileRead
  by_cases hn : n = 0
  · subst hn
    rfl
  · have hn' : ¬(n : ℤ) ≤ 0 := by omega
    have hne : (n : ℤ) ≠ 0 := by omega
    rw [if_neg hn', Int.toNat_natCast, fileReadLoop_eq hd (le_refl n) hend]
    simp only [bind, Except.bind, Int.sub_zero]
    rw [if_pos hne]
    rfl

/-- A position that no block holds cannot be read. -/
theorem fileRead_big (hbig : BLOCKS * BLOCK_SIZE ≤ q) :
    fileRead inode q 1 d = .error "_bmap: block>big" := by
  have hk : BLOCKS ≤ q / BLOCK_SIZE := (Nat.le_div_iff_mul_le (by decide)).2 hbig
  unfold fileRead
  rw [if_neg (by decide)]
  have hloop : fileReadLoop inode (1 : ℤ).toNat 1 q d = .error "_bmap: block>big" := by
    rw [show (1 : ℤ).toNat = 0 + 1 from rfl, fileReadLoop]
    rw [if_neg (by decide), (round_eq q 1).1, bmap, bmapOr_big false hk]
    rfl
  rw [hloop]
  rfl

/-! ## What leaves the bytes alone -/

/-- The zone of a block is in no slot of an indirect block. -/
theorem WellFormed.mapped_ne (h : WellFormed inode d) (hk : k < BLOCKS) (hz : mapped inode d k ≠ 0)
    (hp : p.Indirect) : p.read inode d ≠ mapped inode d k := by
  intro heq
  have hslot := h.distinct (slot k) p (slot_valid hk) hp.valid hz heq.symm
  exact slot_not_indirect k (hslot ▸ hp)

/-- The bytes are those of the blocks. -/
theorem byteAt_congr (hmapped : mapped inode' d' (q / BLOCK_SIZE) = mapped inode d (q / BLOCK_SIZE))
    (hdata : mapped inode d (q / BLOCK_SIZE) ≠ 0 →
      d'.data (mapped inode d (q / BLOCK_SIZE)) = d.data (mapped inode d (q / BLOCK_SIZE))) :
    byteAt inode' d' q = byteAt inode d q := by
  unfold byteAt
  rw [hmapped]
  split
  next => rfl
  next hz => rw [hdata hz]

theorem Created.byteAt (h : Created (slot k) z inode d inode' d') (hd : Ready inode d)
    (hk : k < BLOCKS) (hq : q / BLOCK_SIZE < BLOCKS) : byteAt inode' d' q = byteAt inode d q := by
  have hdata (hz : Fs.mapped inode d (q / BLOCK_SIZE) ≠ 0) :
      d'.data (Fs.mapped inode d (q / BLOCK_SIZE)) = d.data (Fs.mapped inode d (q / BLOCK_SIZE)) := by
    obtain ⟨hzone, hused⟩ := hd.tree.zone _ (slot_valid hq) hz
    exact h.grown.data _ hzone hused fun p hp => hd.tree.mapped_ne hq hz hp
  by_cases hqk : q / BLOCK_SIZE = k
  · subst hqk
    by_cases hz : Fs.mapped inode d (q / BLOCK_SIZE) = 0
    · -- The block is new and has no contents, or there is still none.
      have hself : Fs.mapped inode' d' (q / BLOCK_SIZE) = z := h.self
      unfold Fs.byteAt
      rw [hself, if_pos hz]
      split
      next => rfl
      next hne => rw [h.zero hz hne]; rfl
    · rcases h.grown.grows _ (slot_valid hq) with hsame | ⟨hzero, -⟩
      · exact byteAt_congr hsame hdata
      · exact absurd hzero hz
  · exact byteAt_congr (h.mapped hk hq hqk) hdata

/-! ## Writing into a block -/

/-- The slots are read from the inode and the indirect blocks. -/
theorem Slot.read_eq (hzone : inode'.zone = inode.zone) (hreadable : d'.readable = d.readable)
    (hdata : ∀ p : Slot, p.Indirect → d'.data (p.read inode d) = d.data (p.read inode d))
    (hs : s.Valid) : s.read inode' d' = s.read inode d := by
  induction s with
  | zone i => exact congrFun hzone i
  | entry p j ih =>
      rw [Slot.read, ih hs.1.valid, Slot.read, Device.child, Device.child, hreadable, hdata p hs.1]

section

variable (hd : Ready inode d) (hk : k < BLOCKS) (hz : mapped inode d k ≠ 0)
  (hzone : inode'.zone = inode.zone) (b : Block)

include hd hk hz hzone

theorem Ready.read_setData (hs : s.Valid) :
    s.read inode' (d.setData (mapped inode d k) b) = s.read inode d :=
  Slot.read_eq hzone rfl (fun _ hp => Function.update_of_ne (hd.tree.mapped_ne hk hz hp) ..) hs

theorem Ready.setData : Ready inode' (d.setData (mapped inode d k) b) := by
  have hread {s : Slot} (hs : s.Valid) := hd.read_setData hk hz hzone b hs
  refine ⟨⟨hd.mounted.firstdatazone_pos, hd.mounted.first⟩, hd.idle,
    ⟨fun s hs hne => ?_, fun s s' hs hs' hne heq => ?_⟩, fun s hs hne => ?_, fun s hs hne => ?_⟩
  · rw [hread hs] at hne ⊢
    exact hd.tree.zone s hs hne
  · rw [hread hs] at hne heq
    rw [hread hs'] at heq
    exact hd.tree.distinct s s' hs hs' hne heq
  · rw [hread hs] at hne ⊢
    exact hd.readable s hs hne
  · rw [hread hs] at hne ⊢
    exact hd.room s hs hne

theorem Ready.missing_setData {l : List Slot} (hl : ∀ p ∈ l, p.Valid) :
    missing inode' (d.setData (mapped inode d k) b) l = missing inode d l := by
  refine List.filter_congr fun p hp => ?_
  rw [hd.read_setData hk hz hzone b (hl p hp)]

/-- Only the bytes of that block change. -/
theorem Ready.byteAt_setData (hq : q / BLOCK_SIZE < BLOCKS) :
    byteAt inode' (d.setData (mapped inode d k) b) q =
      if q / BLOCK_SIZE = k then b (q % BLOCK_SIZE) else byteAt inode d q := by
  have hread : mapped inode' (d.setData (mapped inode d k) b) (q / BLOCK_SIZE) =
      mapped inode d (q / BLOCK_SIZE) := hd.read_setData hk hz hzone b (slot_valid hq)
  by_cases hqk : q / BLOCK_SIZE = k
  · rw [if_pos hqk]
    unfold byteAt
    rw [hread, hqk, if_neg hz]
    exact congrFun (Function.update_self ..) _
  · rw [if_neg hqk]
    refine byteAt_congr hread fun hne => Function.update_of_ne (fun heq => hqk ?_) ..
    exact slot_inj (hd.tree.distinct _ _ (slot_valid hq) (slot_valid hk) hne heq)

end

/-! ## `file_write` -/

/-- `c` bytes have been written at `pos`, where slots of `l` have been filled. -/
structure Wrote (f : ℕ → UInt8) (pos c : ℕ) (l : List Slot) (inode : Inode) (d : Device)
    (inode' : Inode) (d' : Device) : Prop where
  ready : Ready inode' d'
  byteAt : ∀ q, q / BLOCK_SIZE < BLOCKS → byteAt inode' d' q =
    if pos ≤ q ∧ q < pos + c then f (q - pos) else byteAt inode d q
  enough : d'.Enough (missing inode' d' l).length
  size : inode'.size = if c = 0 then inode.size else max inode.size (pos + c)

theorem Wrote.trans {f : ℕ → UInt8} {c c' : ℕ} {l : List Slot} (h : Wrote f pos c l inode d inode' d')
    (h' : Wrote (fun k => f (c + k)) (pos + c) c' l inode' d' inode'' d'') :
    Wrote f pos (c + c') l inode d inode'' d'' := by
  refine ⟨h'.ready, fun q hq => ?_, h'.enough, ?_⟩
  · rw [h'.byteAt q hq, h.byteAt q hq]
    by_cases hlast : pos + c ≤ q ∧ q < pos + c + c'
    · rw [if_pos hlast, if_pos (by omega)]
      exact congrArg f (by omega)
    · rw [if_neg hlast]
      exact if_congr (by omega) rfl rfl
  · rw [h'.size, h.size]
    by_cases hc : c = 0
    · subst hc
      simp
    · by_cases hc' : c' = 0
      · subst hc'
        simp
      · rw [if_neg hc', if_neg hc, if_neg (by omega)]
        omega

/-- A block that `create_block` has returned is written. -/
theorem Created.wrote {f : ℕ → UInt8} {c : ℕ} {l : List Slot}
    (h : Created (slot (pos / BLOCK_SIZE)) z inode d inode' d') (hd : Ready inode d) (hz : z ≠ 0)
    (hk : pos / BLOCK_SIZE < BLOCKS) (hc : 0 < c) (hblock : pos % BLOCK_SIZE + c ≤ BLOCK_SIZE)
    (hl : ∀ p ∈ l, p.Valid) (he : d'.Enough (missing inode' d' l).length)
    (hzone : inode''.zone = inode'.zone) (hsize : inode''.size = max inode.size (pos + c)) :
    Wrote f pos c l inode d inode''
      (d'.setData z ((d'.data z).write (pos % BLOCK_SIZE) c f)) := by
  have hready := h.grown.ready
  obtain rfl : Fs.mapped inode' d' (pos / BLOCK_SIZE) = z := h.self
  refine ⟨hready.setData hk hz hzone _, fun q hq => ?_, ?_, by rw [hsize, if_neg (by omega)]⟩
  · rw [hready.byteAt_setData hk hz hzone _ hq, ← h.byteAt hd hk hq]
    by_cases hqk : q / BLOCK_SIZE = pos / BLOCK_SIZE
    · have hwithin : pos % BLOCK_SIZE ≤ q % BLOCK_SIZE ∧ q % BLOCK_SIZE < pos % BLOCK_SIZE + c ↔
          pos ≤ q ∧ q < pos + c := by
        unfold BLOCK_SIZE at *
        omega
      have hold : Fs.byteAt inode' d' q =
          d'.data (Fs.mapped inode' d' (pos / BLOCK_SIZE)) (q % BLOCK_SIZE) := by
        rw [Fs.byteAt, hqk, if_neg hz]
      rw [if_pos hqk, hold, Block.write]
      by_cases hin : pos ≤ q ∧ q < pos + c
      · rw [if_pos (hwithin.2 hin), if_pos hin]
        have hoff : q % BLOCK_SIZE - pos % BLOCK_SIZE = q - pos := by
          unfold BLOCK_SIZE at *
          omega
        rw [hoff]
      · rw [if_neg (mt hwithin.1 hin), if_neg hin]
    · have hout : ¬(pos ≤ q ∧ q < pos + c) := by
        unfold BLOCK_SIZE at *
        omega
      rw [if_neg hqk, if_neg hout]
  · rw [hready.missing_setData hk hz hzone _ hl]
    exact he

theorem Device.brelse_setData {b : ℕ} (hb : d.count b ≠ 255) (x : Block) :
    ((d.take b).setData b x).brelse b = .ok (d.setData b x) :=
  Device.brelse_of_count rfl hb

/-- The size after a round of `file_write` that ends at `pos`. -/
theorem size_of_grown (hpos : pos ≤ BLOCKS * BLOCK_SIZE)
    (h : (if ((pos : ℤ) % 2 ^ 32).toNat > inode.size then
      { inode with size := ((pos : ℤ) % 2 ^ 32).toNat, dirt := true } else inode) = inode') :
    inode'.zone = inode.zone ∧ inode'.size = max inode.size pos := by
  have hcast : ((pos : ℤ) % 2 ^ 32).toNat = pos := by
    unfold BLOCKS BLOCK_SIZE at hpos
    omega
  rw [hcast] at h
  subst h
  split
  next hlt => exact ⟨rfl, by dsimp only; omega⟩
  next hle => exact ⟨rfl, by omega⟩

theorem fileWriteLoop_wrote (buf : ℕ → UInt8) {m : ℕ} {l : List Slot} (hd : Ready inode d)
    (hnodup : l.Nodup) (hl : ∀ p ∈ l, p.Valid)
    (hpath : ∀ q, pos ≤ q → q < pos + m → (slot (q / BLOCK_SIZE)).path ⊆ l)
    (he : d.Enough (missing inode d l).length) (hn : m ≤ n) (hend : pos + m ≤ BLOCKS * BLOCK_SIZE) :
    ∃ inode' d', fileWriteLoop buf (i + m : ℕ) n i pos inode d =
        .ok ⟨(i + m : ℕ), (pos + m : ℕ), inode', d'⟩ ∧
      Wrote (fun k => buf (i + k)) pos m l inode d inode' d' := by
  induction n generalizing i m pos inode d with
  | zero =>
      obtain rfl : m = 0 := Nat.le_zero.1 hn
      refine ⟨inode, d, rfl, hd, fun q _ => ?_, he, rfl⟩
      rw [if_neg (by omega)]
  | succ n ih =>
      rw [fileWriteLoop]
      by_cases hm : m = 0
      · subst hm
        rw [if_pos (show ((i + 0 : ℕ) : ℤ) ≤ i by omega)]
        refine ⟨inode, d, rfl, hd, fun q _ => ?_, he, rfl⟩
        rw [if_neg (by omega)]
      have hlt : ¬((i + m : ℕ) : ℤ) ≤ i := by omega
      obtain ⟨hdiv, hmod, hmin⟩ := round_eq pos m
      obtain ⟨hpos, hle, hblock⟩ := round_bounds pos hm
      have hk := block_lt hm hend
      obtain ⟨z, inode₁, d₁, heq, hcreated⟩ := createBlock_created hd hk
      have hfirst : (slot (pos / BLOCK_SIZE)).path ⊆ l := hpath pos (le_refl _) (by omega)
      obtain ⟨hz, he₁⟩ := hcreated.enough l hnodup hl hfirst he
      have hread : d₁.readable z = true := by
        have hself := hcreated.self
        subst hself
        exact hcreated.grown.ready.readable _ (slot_valid hk) hz
      have hroom : d₁.count z ≠ 255 := by
        have hself := hcreated.self
        subst hself
        exact hcreated.grown.ready.room _ (slot_valid hk) hz
      have hleft : ((i + m : ℕ) : ℤ) - i = m := by omega
      rw [if_neg hlt, hdiv, heq]
      simp only [bind, Except.bind, hz, if_false, Device.bread_readable hread, hmod, hleft, hmin,
        Int.toNat_natCast]
      generalize min (BLOCK_SIZE - pos % BLOCK_SIZE) m = c at hpos hle hblock
      have hsum : pos + c + (m - c) = pos + m := by rw [Nat.add_assoc, Nat.add_sub_cancel' hle]
      have hfuel : m - c ≤ n :=
        Nat.le_of_lt_succ (Nat.lt_of_lt_of_le (Nat.sub_lt (Nat.pos_of_ne_zero hm) hpos) hn)
      have hnext : toInt32 ((pos : ℤ) + c) = (pos + c : ℕ) := by
        rw [← Int.natCast_add]
        exact toInt32_pos (Nat.le_trans (Nat.add_le_add_left hle pos) hend)
      have hdata : (d₁.take z).data z = d₁.data z := rfl
      simp only [hnext, hdata, Device.brelse_setData hroom]
      generalize hgrow : (if (((pos + c : ℕ) : ℤ) % 2 ^ 32).toNat > inode₁.size then
        { inode₁ with size := (((pos + c : ℕ) : ℤ) % 2 ^ 32).toNat, dirt := true } else inode₁) =
          inode₂
      obtain ⟨hzone, hsize⟩ := size_of_grown (Nat.le_trans (Nat.add_le_add_left hle pos) hend) hgrow
      rw [hcreated.grown.size] at hsize
      have hwrote := hcreated.wrote (f := fun k => buf (i + k)) hd hz hk hpos hblock hl he₁ hzone hsize
      have hrest := @ih inode₂ _ (i + c) (pos + c) (m - c) hwrote.ready
        (fun q hq hq' => hpath q (Nat.le_trans (Nat.le_add_right pos c) hq) (hsum ▸ hq'))
        hwrote.enough hfuel (hsum.symm ▸ hend)
      obtain ⟨inode', d', heq', hwrote'⟩ := hrest
      have hcount : i + c + (m - c) = i + m := by rw [Nat.add_assoc, Nat.add_sub_cancel' hle]
      refine ⟨inode', d', ?_, ?_⟩
      · rw [hcount, hsum] at heq'
        rw [← Int.natCast_add]
        exact heq'
      · simp only [Nat.add_assoc] at hwrote'
        have hboth := hwrote.trans hwrote'
        rwa [Nat.add_sub_cancel' hle] at hboth

/-! ## Reading back -/

/-- The slots on the ways to the blocks of `n` bytes at `pos`. -/
def touched (pos n : ℕ) : List Slot :=
  ((List.range n).flatMap fun k => (slot ((pos + k) / BLOCK_SIZE)).path).dedup

theorem touched_valid (hend : pos + n ≤ BLOCKS * BLOCK_SIZE) : ∀ p ∈ touched pos n, p.Valid := by
  intro p hp
  obtain ⟨k, hk, hp⟩ := List.mem_flatMap.1 (List.mem_dedup.1 hp)
  have hlt : pos + k < BLOCKS * BLOCK_SIZE :=
    Nat.lt_of_lt_of_le (Nat.add_lt_add_left (List.mem_range.1 hk) pos) hend
  exact Slot.valid_of_mem_path (slot_valid ((Nat.div_lt_iff_lt_mul (by decide)).2 hlt)) hp

theorem path_subset_touched (hle : pos ≤ q) (hlt : q < pos + n) :
    (slot (q / BLOCK_SIZE)).path ⊆ touched pos n := by
  intro p hp
  refine List.mem_dedup.2 (List.mem_flatMap.2 ⟨q - pos, List.mem_range.2 (by omega), ?_⟩)
  rwa [Nat.add_sub_cancel' hle]

/-- What `file_read` of one byte reads. -/
def readByte (inode : Inode) (d : Device) (q : ℕ) : Except String (List UInt8) :=
  (fileRead inode q 1 d).map fun r => r.2.bytes

theorem readByte_eq (hd : Ready inode d) (hq : q / BLOCK_SIZE < BLOCKS) :
    readByte inode d q = .ok [byteAt inode d q] := by
  have hlt : q + 1 ≤ BLOCKS * BLOCK_SIZE := (Nat.div_lt_iff_lt_mul (by decide)).1 hq
  unfold readByte
  rw [show (1 : ℤ) = (1 : ℕ) from rfl, fileRead_eq hd hlt]
  rfl

theorem readByte_big (hq : ¬q / BLOCK_SIZE < BLOCKS) :
    readByte inode d q = .error "_bmap: block>big" := by
  have hbig : BLOCKS * BLOCK_SIZE ≤ q := (Nat.le_div_iff_mul_le (by decide)).1 (Nat.not_lt.1 hq)
  unfold readByte
  rw [fileRead_big hbig]
  rfl

/-- Where `file_write` starts. -/
def writeStart (append : Bool) (inode : Inode) (fPos : ℕ) : ℕ := if append then inode.size else fPos

theorem fileWrite_eq (buf : ℕ → UInt8) {append : Bool} {fPos : ℕ} (hd : Ready inode d)
    (hend : writeStart append inode fPos + n ≤ BLOCKS * BLOCK_SIZE)
    (he : d.Enough (missing inode d (touched (writeStart append inode fPos) n)).length) :
    ∃ r, fileWrite buf append fPos n inode d =
        .ok (if n = 0 then -1 else n, if append then fPos else (fPos + n : ℕ), r) ∧
      Wrote buf (writeStart append inode fPos) n (touched (writeStart append inode fPos) n)
        inode d r.inode r.dev := by
  have hstart : (if append then toInt32 inode.size else (fPos : ℤ)) = writeStart append inode fPos := by
    have hle := Nat.le_trans (Nat.le_add_right _ n) hend
    unfold writeStart at hle ⊢
    cases append with
    | false => rfl
    | true =>
        simp only [if_true] at hle ⊢
        exact toInt32_pos hle
  obtain ⟨inode', d', heq, hwrote⟩ := fileWriteLoop_wrote buf (i := 0) hd (List.nodup_dedup _)
    (touched_valid hend) (fun q => path_subset_touched) he (le_refl n) hend
  simp only [Nat.zero_add] at heq hwrote
  refine ⟨⟨n, (writeStart append inode fPos + n : ℕ), inode', d'⟩, ?_, hwrote⟩
  have hloop : fileWriteLoop buf n n 0 (writeStart append inode fPos) inode d =
      .ok ⟨n, (writeStart append inode fPos + n : ℕ), inode', d'⟩ := heq
  have hret : (if (n : ℤ) ≠ 0 then (n : ℤ) else -1) = if n = 0 then -1 else (n : ℤ) := by
    by_cases hn : n = 0
    · rw [if_pos hn, hn]
      rfl
    · rw [if_neg hn, if_pos (by omega)]
  have hfPos : (if append then (fPos : ℤ) else (writeStart append inode fPos + n : ℕ)) =
      if append then (fPos : ℤ) else (fPos + n : ℕ) := by
    cases append <;> rfl
  unfold fileWrite
  simp only [hstart, Int.toNat_natCast, hloop, bind, Except.bind, hret, hfPos]
  rfl

/-- What is written is read back, and everything else reads as before. -/
theorem file_write_read (inode : Inode) (d : Device) (buf : ℕ → UInt8) (append : Bool) (fPos n : ℕ)
    (hd : Ready inode d) (hend : writeStart append inode fPos + n ≤ BLOCKS * BLOCK_SIZE)
    (hzero : ∀ q, inode.size ≤ q → q / BLOCK_SIZE < BLOCKS → byteAt inode d q = 0)
    (he : d.Enough (missing inode d (touched (writeStart append inode fPos) n)).length) :
    let pos := writeStart append inode fPos
    ∃ r rr, fileWrite buf append fPos n inode d =
        .ok (if n = 0 then -1 else n, if append then fPos else (fPos + n : ℕ), r) ∧
      r.inode.size = (if n = 0 then inode.size else max inode.size (pos + n)) ∧
      fileRead r.inode pos n r.dev = .ok (n, rr) ∧ rr.bytes = (List.range n).map buf ∧
      (∀ q < inode.size, q < pos ∨ pos + n ≤ q →
        readByte r.inode r.dev q = readByte inode d q) ∧
      ∀ q, inode.size ≤ q → q < pos → readByte r.inode r.dev q = .ok [0] := by
  intro pos
  obtain ⟨r, heq, hwrote⟩ := fileWrite_eq buf hd hend he
  have hread := hwrote.ready
  have hout {q : ℕ} (hq : q < pos ∨ pos + n ≤ q) : ¬(pos ≤ q ∧ q < pos + n) := by omega
  refine ⟨r, _, heq, hwrote.size, fileRead_eq hread hend, ?_, fun q hq hnot => ?_, fun q hle hlt => ?_⟩
  · refine List.map_congr_left fun k hk => ?_
    have hk := List.mem_range.1 hk
    have hblock : (pos + k) / BLOCK_SIZE < BLOCKS := by
      refine (Nat.div_lt_iff_lt_mul (by decide)).2 ?_
      exact Nat.lt_of_lt_of_le (Nat.add_lt_add_left hk pos) hend
    rw [hwrote.byteAt _ hblock, if_pos ⟨Nat.le_add_right pos k, Nat.add_lt_add_left hk pos⟩,
      Nat.add_sub_cancel_left]
  · by_cases hblock : q / BLOCK_SIZE < BLOCKS
    · rw [readByte_eq hread hblock, readByte_eq hd hblock, hwrote.byteAt q hblock,
        if_neg (hout hnot)]
    · rw [readByte_big hblock, readByte_big hblock]
  · have hblock : q / BLOCK_SIZE < BLOCKS := by
      refine (Nat.div_lt_iff_lt_mul (by decide)).2 ?_
      exact Nat.lt_of_lt_of_le hlt (Nat.le_trans (Nat.le_add_right pos n) hend)
    rw [readByte_eq hread hblock, hwrote.byteAt q hblock, if_neg (hout (.inl hlt)),
      hzero q hle hblock]

/-- Two bytes over the end of a block, of which the second one gets a new block. -/
theorem file_write_read_two : ∃ r rr,
    fileWrite (fun _ => 65) false (1023 : ℕ) (2 : ℕ) oneInode (oneDevice fun _ => 0) = .ok (2, 1025, r) ∧
      r.inode.size = 1025 ∧ fileRead r.inode (1023 : ℕ) (2 : ℕ) r.dev = .ok (2, rr) ∧
      rr.bytes = [65, 65] := by
  have hfree : (oneDevice fun _ => 0).Free 11 :=
    ⟨⟨by decide, by decide⟩, show (oneDevice fun _ => 0).bits 2 = some false from rfl⟩
  have hmissing : (missing oneInode (oneDevice fun _ => 0) (touched 1023 2)).length ≤ 1 := by decide
  have he : (oneDevice fun _ => 0).Enough
      (missing oneInode (oneDevice fun _ => 0) (touched 1023 2)).length :=
    ⟨[11], List.nodup_singleton 11, fun x hx => List.mem_singleton.1 hx ▸ hfree, hmissing⟩
  have hzero (q : ℕ) : byteAt oneInode (oneDevice fun _ => 0) q = 0 := by
    unfold byteAt
    split <;> rfl
  obtain ⟨r, rr, hwrite, hsize, hread, hbytes, -⟩ := file_write_read oneInode (oneDevice fun _ => 0)
    (fun _ => 65) false 1023 2 one_ready (by decide) (fun q _ _ => hzero q) he
  exact ⟨r, rr, hwrite, hsize, hread, hbytes⟩

/-- Nothing is written, and the size stays below the position. -/
theorem empty_write_keeps_size : Ready oneInode (oneDevice fun _ => 0) ∧
    ∃ r, fileWrite (fun _ => 65) false (5 : ℕ) (0 : ℕ) oneInode (oneDevice fun _ => 0) = .ok (-1, 5, r) ∧
      r.inode.size ≠ max oneInode.size (5 + 0) :=
  ⟨one_ready, _, rfl, by decide⟩

end MyJavaExample.Fs
