import MyJavaExample.Fs.BitmapFull
import MyJavaExample.Fs.BlockMap

/-!
# The zones of a device

What `new_block` and `free_block` do to the zone bits of a mounted device, said
of one function from bit numbers to bits.
-/

namespace MyJavaExample.Fs

open Lib

namespace Device

variable {d d' : Device} {m m' : BlockData} {b i j k z x : ℕ}

/-- The bits of the zone maps, where there is a map. -/
def bits (d : Device) (k : ℕ) : Option Bool := (d.zmap (k / 8192)).map (·.bit (k % 8192))

/-- The number of the bit that stands for a zone. -/
def nr (d : Device) (z : ℕ) : ℕ := z + 1 - d.sb.firstdatazone.toNat

def DataZone (d : Device) (z : ℕ) : Prop :=
  d.sb.firstdatazone.toNat ≤ z ∧ z < d.sb.nzones.toNat

/-- The zone is marked used. -/
def Used (d : Device) (z : ℕ) : Prop := d.bits (d.nr z) = some true

/-- A data zone that is marked free. -/
def Free (d : Device) (z : ℕ) : Prop := d.DataZone z ∧ d.bits (d.nr z) = some false

/-- The device has been mounted: `read_super` has set the bit that stands for no
zone. -/
structure Mounted (d : Device) : Prop where
  firstdatazone_pos : 1 ≤ d.sb.firstdatazone.toNat
  first : d.bits 0 = some true

theorem Mounted.firstSet (h : d.Mounted) : d.First := by
  intro m hm
  have hbit : d.bits 0 = some (m.bit 0) := by simp [bits, hm]
  exact Option.some.inj (hbit.symm.trans h.first)

theorem DataZone.nr_inj (hx : d.DataZone x) (hz : d.DataZone z) (heq : d.nr x = d.nr z) :
    x = z := by
  unfold nr at heq
  unfold DataZone at hx hz
  omega

theorem DataZone.lt (h : d.DataZone z) : z < 65536 :=
  Nat.lt_trans h.2 d.sb.nzones.toNat_lt

theorem Mounted.ne_zero (h : d.Mounted) (hz : d.DataZone z) : z ≠ 0 := by
  have hpos := h.firstdatazone_pos
  unfold DataZone at hz
  omega

theorem Free.not_used (h : d.Free z) : ¬d.Used z := by
  intro hused
  have hbits := h.2.symm.trans hused
  cases hbits

@[simp] theorem sb_setMap (i : ℕ) (m : BlockData) : (d.setMap i m).sb = d.sb := rfl

@[simp] theorem count_setMap (i : ℕ) (m : BlockData) : (d.setMap i m).count = d.count := rfl

/-- One bit of a map is changed. -/
theorem bits_setMap {v : Bool} (m' : BlockData) (hm : d.zmap (k / 8192) = some m)
    (h : ∀ j, m'.bit j = if j = k % 8192 then v else m.bit j) :
    (d.setMap (k / 8192) m').bits = Function.update d.bits k (some v) := by
  funext i
  unfold bits setMap
  dsimp only
  by_cases hslot : i / 8192 = k / 8192
  · have heq : i % 8192 = k % 8192 ↔ i = k := by omega
    rw [hslot, Function.update_self, Option.map_some, h, Function.update_apply]
    simp only [heq, hslot, hm, Option.map_some]
    split <;> rfl
  · have hne : i ≠ k := fun h => hslot (h ▸ rfl)
    rw [Function.update_of_ne hslot, Function.update_of_ne hne]

theorem bits_insert (hm : d.zmap i = some m) (hj : j < 8192) :
    (d.setMap i (m.insert j)).bits = Function.update d.bits (i * 8192 + j) (some true) := by
  have hk : (i * 8192 + j) / 8192 = i := by omega
  have hmod : (i * 8192 + j) % 8192 = j := by omega
  have hset := bits_setMap (d := d) (k := i * 8192 + j) (v := true) (m.insert j)
    (hk.symm ▸ hm) fun b => by
      rw [Bitmap.bit_insert (show j < 256 * 32 from hj), hmod]
      by_cases hb : b = j <;> simp [hb]
  rwa [hk] at hset

/-! ## `free_block` -/

/-- `free_block` clears the bit of a zone in use whose buffer nobody holds. -/
theorem freeBlock_eq (hz : d.DataZone z) (hused : d.Used z) (hcount : d.count z = 0) :
    ∃ zmap, d.freeBlock z = .ok { d with zmap := zmap } ∧
      bits { d with zmap := zmap } = Function.update d.bits (d.nr z) (some false) := by
  unfold Used bits at hused
  obtain ⟨m, hm, hbit⟩ := Option.map_eq_some_iff.1 hused
  have hlt : d.nr z % 8192 < 256 * 32 := Nat.mod_lt _ (by decide)
  have hout : ¬(z < d.sb.firstdatazone.toNat ∨ d.sb.nzones.toNat ≤ z) := by
    unfold DataZone at hz
    omega
  refine ⟨_, ?_, bits_setMap (m.erase (d.nr z % 8192)) hm fun j => ?_⟩
  · unfold freeBlock
    have hone : ¬d.count z + 1 ≠ 1 := by simp [hcount]
    rw [if_neg hout, if_neg hone]
    unfold freeBit
    unfold nr at hm hbit
    simp only [hm, clearBit, hbit]
    rfl
  · rw [Bitmap.bit_erase hlt]
    by_cases hj : j = d.nr z % 8192
    · simp [hj]
    · simp [hj]

/-! ## `new_block` -/

/-- One slot: the loop ends there, or it goes on since no bit in it is clear. -/
theorem findSlot_succ (d : Device) (n i : ℕ) :
    (∃ m, d.zmap i = some m ∧ findFirstZero m < 8192 ∧
      d.findSlot (n + 1) i = some (i, m, findFirstZero m)) ∨
    d.findSlot (n + 1) i = d.findSlot n (i + 1) ∧ ∀ b, b / 8192 = i → d.bits b ≠ some false := by
  rw [findSlot]
  cases hmap : d.zmap i with
  | none =>
      refine .inr ⟨rfl, fun b hb => ?_⟩
      rw [bits, hb, hmap]
      simp
  | some m =>
      by_cases hlt : findFirstZero m < 8192
      · exact .inl ⟨m, rfl, hlt, if_pos hlt⟩
      · refine .inr ⟨if_neg hlt, fun b hb => ?_⟩
        have hmod : b % 8192 < 8192 := Nat.mod_lt _ (by decide)
        have hset := bit_of_lt_findFirstZero (Nat.lt_of_lt_of_le hmod (Nat.not_lt.1 hlt)) hmod
        rw [bits, hb, hmap, Option.map_some, hset]
        simp

/-- What the loop of `new_block` finds is the first bit that is clear. -/
theorem findSlot_some {n : ℕ} (h : d.findSlot n i = some (k, m, j)) :
    d.zmap k = some m ∧ j < 8192 ∧ m.bit j = false ∧
      ∀ b, i * 8192 ≤ b → b < k * 8192 + j → d.bits b ≠ some false := by
  induction n generalizing i with
  | zero => cases h
  | succ n ih =>
      obtain ⟨m', hm, hlt, hslot⟩ | ⟨hnext, hset⟩ := d.findSlot_succ n i
      · rw [hslot] at h
        cases h
        refine ⟨hm, hlt, bit_findFirstZero hlt, fun b hle hb => ?_⟩
        have hdiv : b / 8192 = k := by omega
        have hbit := bit_of_lt_findFirstZero (show b % 8192 < findFirstZero m by omega)
          (Nat.mod_lt _ (by decide))
        rw [bits, hdiv, hm, Option.map_some, hbit]
        simp
      · rw [hnext] at h
        obtain ⟨hm, hj, hbit, hrest⟩ := ih h
        refine ⟨hm, hj, hbit, fun b hle hb => ?_⟩
        rcases Nat.lt_or_ge b ((i + 1) * 8192) with hslot | hslot
        · exact hset b (Nat.div_eq_of_lt_le hle hslot)
        · exact hrest b hslot hb

theorem findSlot_none {n : ℕ} (h : d.findSlot n i = none) (hle : i * 8192 ≤ b)
    (hb : b < (i + n) * 8192) : d.bits b ≠ some false := by
  induction n generalizing i with
  | zero => omega
  | succ n ih =>
      obtain ⟨m, -, -, hslot⟩ | ⟨hnext, hset⟩ := d.findSlot_succ n i
      · rw [hslot] at h
        cases h
      · rw [hnext] at h
        rcases Nat.lt_or_ge b ((i + 1) * 8192) with hlt | hge
        · exact hset b (Nat.div_eq_of_lt_le hle hlt)
        · refine ih h hge ?_
          rwa [Nat.add_assoc, Nat.add_comm 1]

/-- What `new_block` has done when it returns `z`. -/
structure Allocated (d : Device) (z : ℕ) (d' : Device) : Prop where
  sb : d'.sb = d.sb
  count : d'.count = d.count
  mounted : d'.Mounted
  bits : ∀ x, d.DataZone x → d'.bits (d.nr x) = if x = z then some true else d.bits (d.nr x)
  data : ∀ x, x ≠ z → d'.data x = d.data x
  readable : ∀ x, x ≠ z → d'.readable x = d.readable x
  fresh : z ≠ 0 → d.Free z ∧ d'.data z = .zero ∧ d'.readable z = true
  full : z = 0 → ∀ x, ¬d.Free x

theorem Allocated.lt (h : d.Allocated z d') : z < 65536 := by
  rcases Nat.eq_zero_or_pos z with rfl | hpos
  · decide
  · exact (h.fresh (Nat.ne_of_gt hpos)).1.1.lt

/-- The buffers of the free zones are not in use. -/
def FreeIdle (d : Device) : Prop := ∀ z, d.Free z → d.count z = 0

theorem newBlock_eq (hm : d.Mounted) (hidle : d.FreeIdle) :
    ∃ z d', d.newBlock = .ok (z, d') ∧ d.Allocated z d' := by
  have hpos := hm.firstdatazone_pos
  have hzero {x : ℕ} (hx : d.DataZone x) : x ≠ 0 := hm.ne_zero hx
  unfold newBlock
  cases hslot : d.findSlot 8 0 with
  | none =>
      refine ⟨0, d, rfl, rfl, rfl, hm, fun x hx => ?_, fun _ _ => rfl, fun _ _ => rfl, absurd rfl,
        fun _ x hx => ?_⟩
      · rw [if_neg (hzero hx)]
      · have hlt := hx.1.lt
        exact findSlot_none hslot (Nat.zero_le _) (by unfold nr; omega) hx.2
  | some r =>
      obtain ⟨i, m, j⟩ := r
      obtain ⟨hmap, hj, hbit, hset⟩ := findSlot_some hslot
      have hk : (i * 8192 + j) / 8192 = i := by omega
      have hmod : (i * 8192 + j) % 8192 = j := by omega
      have hclear : d.bits (i * 8192 + j) = some false := by
        rw [bits, hk, hmod, hmap, Option.map_some, hbit]
      have hk0 : i * 8192 + j ≠ 0 := by
        intro h0
        rw [h0, hm.first] at hclear
        cases hclear
      -- The zone that the bit stands for.
      obtain ⟨z, hz, hzk⟩ := zoneBlock_natCast hm.firstSet hmap hbit
      have hbits := bits_insert hmap hj
      have hfirst : (d.setMap i (m.insert j)).bits 0 = some true := by
        rw [hbits, Function.update_of_ne hk0.symm]
        exact hm.first
      have hres : setBit j m = (false, m.insert j) := by rw [setBit, hbit]
      simp only [hres, Bool.false_eq_true, if_false, sb_setMap, count_setMap, hz, Int.ofNat_le]
      obtain ⟨k, hbit'⟩ : ∃ k, i * 8192 + j = k := ⟨_, rfl⟩
      rw [hbit'] at hset hclear hk0 hbits hzk
      have hle {x : ℕ} (hx : d.Free x) : z ≤ x := by
        have hnr := hset (d.nr x) (by omega)
        have hnot : ¬d.nr x < k := fun hlt => hnr hlt hx.2
        have hx := hx.1.1
        unfold nr at hnot
        omega
      by_cases hend : d.sb.nzones.toNat ≤ z
      · rw [if_pos hend]
        refine ⟨0, _, rfl, rfl, rfl, ⟨hpos, hfirst⟩, fun x hx => ?_, fun _ _ => rfl, fun _ _ => rfl,
          absurd rfl, fun _ x hx => ?_⟩
        · have hne : d.nr x ≠ k := by
            have hx := hx
            unfold DataZone at hx
            unfold nr
            omega
          rw [hbits, Function.update_of_ne hne, if_neg (hzero hx)]
        · exact absurd (Nat.lt_of_le_of_lt (hle hx) hx.1.2) (Nat.not_lt.2 hend)
      · rw [if_neg hend]
        have hdata : d.DataZone z := ⟨by omega, Nat.not_le.1 hend⟩
        have hnr : d.nr z = k := by
          unfold nr
          omega
        have hfree : d.Free z := ⟨hdata, by rw [hnr]; exact hclear⟩
        have hcount : ¬d.count z + 1 ≠ 1 := by
          rw [hidle z hfree]
          simp
        rw [ZoneDev.blocknr_natCast (Nat.lt_trans hdata.lt (by decide)), if_neg hcount]
        refine ⟨z, _, rfl, rfl, rfl, ⟨hpos, hfirst⟩, fun x hx => ?_, fun x hx => ?_, fun x hx => ?_,
          fun _ => ⟨hfree, ?_, ?_⟩, fun h => absurd h (hzero hdata)⟩
        · refine (congrFun hbits _).trans ?_
          rw [Function.update_apply, ← hnr]
          exact if_congr ⟨hx.nr_inj hdata, fun h => h ▸ rfl⟩ rfl rfl
        · exact Function.update_of_ne hx ..
        · exact Function.update_of_ne hx ..
        · exact Function.update_self ..
        · exact Function.update_self ..

end Device

end MyJavaExample.Fs
