import MyJavaExample.Fs.BlockTree
import MyJavaExample.Fs.InodeTable
import MyJavaExample.Fs.Mkdir
import MyJavaExample.Fs.ScanBalance

/-!
# Where an entry is

`find_entry` and `add_entry` walk over the blocks of a directory, as in
`DirectoryScan`.  Where the blocks do not matter a directory is the list of its
entries.  `Volume` searches the list at once, `Names` and `InodeTable` block by
block, since another task may run while a block is read; `FileSystem` writes into
the list of a volume, but calls `create_block` for it.  Here it is shown that they
all get to the same entry.
-/

namespace MyJavaExample.Fs

open Lib

variable {l : List DirEntry} {name : List UInt8} {i k n : ℕ}

/-! ## Block by block -/

theorem range_blocks (n : ℕ) :
    (List.range n).flatMap blockEntries = List.range (DIR_ENTRIES_PER_BLOCK * n) := by
  induction n with
  | zero => rfl
  | succ n ih =>
      rw [List.range_succ, List.flatMap_append, ih, List.flatMap_singleton, blockEntries,
        Nat.mul_succ, List.range_eq_range', List.range_eq_range']
      have happend := @List.range'_append_1 0 (DIR_ENTRIES_PER_BLOCK * n) DIR_ENTRIES_PER_BLOCK
      rwa [Nat.zero_add] at happend

/-- The blocks up to the last one hold all entries. -/
theorem findPlace_blocks (hn : l.length ≤ DIR_ENTRIES_PER_BLOCK * n) :
    (List.range n).findSome? (InodeTable.findPlace l name l.length) = l.findIdx? (·.matches name) := by
  have hblocks := @List.find?_flatMap _ _ (List.range n) blockEntries
    fun k => k < l.length && l[k]?.any (·.matches name)
  rw [range_blocks] at hblocks
  refine hblocks.symm.trans ?_
  cases hfind : l.findIdx? (·.matches name) with
  | none =>
      rw [List.findIdx?_eq_none_iff] at hfind
      refine List.find?_range_eq_none.2 fun k _ => ?_
      by_cases hk : k < l.length
      · simp [hk, hfind]
      · simp [hk]
  | some k =>
      obtain ⟨hk, hmatch, hbefore⟩ := List.findIdx?_eq_some_iff_getElem.1 hfind
      refine List.find?_range_eq_some.2 ⟨by simp [hk, hmatch], ?_, fun j hj => ?_⟩
      · exact List.mem_range.2 (Nat.lt_of_lt_of_le hk hn)
      · have hjl : j < l.length := Nat.lt_trans hj hk
        simpa [hjl] using hbefore j hj

/-- `Names` takes the entry itself. -/
theorem findInBlock_eq (entries block : ℕ) : findInBlock l name entries block =
    (InodeTable.findPlace l name entries block).bind fun k => l[k]? := by
  unfold findInBlock InodeTable.findPlace
  induction blockEntries block with
  | nil => rfl
  | cons k ks ih =>
      rw [List.findSome?_cons, List.find?_cons]
      by_cases hk : k < entries
      · cases hget : l[k]? with
        | none => simpa [hk, hget] using ih
        | some de =>
            cases hmatch : de.matches name with
            | true => simp [hk, hget, hmatch, Option.filter]
            | false => simpa [hk, hget, hmatch, Option.filter] using ih
      · simpa [hk] using ih

/-- `add_entry` takes the first free entry, or the place after the last one. -/
theorem freeInBlock_blocks (hn : l.length < DIR_ENTRIES_PER_BLOCK * n) :
    (List.range n).findSome? (freeInBlock l) =
      some ((l.findIdx? (·.inode = 0)).getD l.length) := by
  have hblocks := @List.find?_flatMap _ _ (List.range n) blockEntries
    fun k => l[k]?.all fun de => de.inode = 0
  rw [range_blocks] at hblocks
  refine hblocks.symm.trans ?_
  cases hfind : l.findIdx? (·.inode = 0) with
  | none =>
      rw [List.findIdx?_eq_none_iff] at hfind
      refine List.find?_range_eq_some.2 ⟨by simp, List.mem_range.2 hn, fun j hj => ?_⟩
      have hjl : j < l.length := hj
      simpa [hjl] using hfind l[j] (List.getElem_mem hjl)
  | some k =>
      obtain ⟨hk, hfree, hbefore⟩ := List.findIdx?_eq_some_iff_getElem.1 hfind
      refine List.find?_range_eq_some.2 ⟨?_, List.mem_range.2 (Nat.lt_trans hk hn), fun j hj => ?_⟩
      · simpa [hk] using hfree
      · have hjl : j < l.length := Nat.lt_trans hj hk
        simpa [hjl] using hbefore j hj

/-! ## In the blocks of the device -/

/-- A directory without holes, whose blocks can be read and taken. -/
structure Solid (inode : Inode) (d : Device) : Prop where
  readable : TreeReadable inode d
  room : TreeRoom inode d
  aligned : inode.size % SIZEOF_DIR_ENTRY = 0
  pos : 0 < inode.size / SIZEOF_DIR_ENTRY
  block : ∀ k, DIR_ENTRIES_PER_BLOCK * k < inode.size / SIZEOF_DIR_ENTRY →
    k < BLOCKS ∧ mapped inode d k ≠ 0

/-- The block of the entry `i`, and the number of the entry in it. -/
def place (inode : Inode) (d : Device) (i : ℕ) : ℕ × ℕ :=
  (mapped inode d (i / DIR_ENTRIES_PER_BLOCK), i % DIR_ENTRIES_PER_BLOCK)

def entryAt (inode : Inode) (d : Device) (i : ℕ) : DirEntry :=
  (d.data (place inode d i).1).dirEntry (place inode d i).2

def entryList (inode : Inode) (d : Device) : List DirEntry :=
  (List.range (inode.size / SIZEOF_DIR_ENTRY)).map (entryAt inode d)

/-- A scan at the entry `i`, with the block `k` in hand. -/
def ScanAt (inode : Inode) (i k de : ℕ) : Prop :=
  i = DIR_ENTRIES_PER_BLOCK * k + de ∧ de ≤ DIR_ENTRIES_PER_BLOCK ∧
    DIR_ENTRIES_PER_BLOCK * k < inode.size / SIZEOF_DIR_ENTRY

variable {inode : Inode} {d : Device} {de : ℕ}

/-- The entry is in the block in hand, or it is the first one of the next block. -/
theorem ScanAt.place (hat : ScanAt inode i k de) :
    de < DIR_ENTRIES_PER_BLOCK ∧ place inode d i = (mapped inode d k, de) ∨
      de = DIR_ENTRIES_PER_BLOCK ∧ i / DIR_ENTRIES_PER_BLOCK = k + 1 ∧
        place inode d i = (mapped inode d (k + 1), 0) := by
  obtain ⟨hi, hde, -⟩ := hat
  obtain rfl | hlt := Nat.eq_or_lt_of_le hde
  · have hdiv := blockIndex_end hi
    have hmod : i % DIR_ENTRIES_PER_BLOCK = 0 := by
      rw [hi, ← Nat.mul_succ]
      exact Nat.mul_mod_right ..
    exact .inr ⟨rfl, hdiv, by rw [Fs.place, hdiv, hmod]⟩
  · have hdiv : i / DIR_ENTRIES_PER_BLOCK = k := by
      rw [hi, Nat.mul_add_div (by decide), Nat.div_eq_of_lt hlt, Nat.add_zero]
    have hmod : i % DIR_ENTRIES_PER_BLOCK = de := by
      rw [hi, Nat.mul_add_mod, Nat.mod_eq_of_lt hlt]
    exact .inl ⟨hlt, by rw [Fs.place, hdiv, hmod]⟩

theorem ScanAt.next (hlt : i < inode.size / SIZEOF_DIR_ENTRY) :
    ScanAt inode (i + 1) (i / DIR_ENTRIES_PER_BLOCK) (i % DIR_ENTRIES_PER_BLOCK + 1) := by
  have hmod : i % DIR_ENTRIES_PER_BLOCK < DIR_ENTRIES_PER_BLOCK := Nat.mod_lt _ (by decide)
  have hsum := Nat.div_add_mod i DIR_ENTRIES_PER_BLOCK
  exact ⟨by omega, hmod, by omega⟩

theorem ScanAt.next_lt (hat : ScanAt inode i k DIR_ENTRIES_PER_BLOCK)
    (hlt : i < inode.size / SIZEOF_DIR_ENTRY) :
    DIR_ENTRIES_PER_BLOCK * (k + 1) < inode.size / SIZEOF_DIR_ENTRY := by
  rw [Nat.mul_succ, ← hat.1]
  exact hlt

/-- The scans start with the first block in hand. -/
theorem scanAt_zero (hpos : 0 < inode.size / SIZEOF_DIR_ENTRY) : ScanAt inode 0 0 0 :=
  ⟨rfl, Nat.zero_le _, hpos⟩

@[simp] theorem length_entryList :
    (entryList inode d).length = inode.size / SIZEOF_DIR_ENTRY := by simp [entryList]

/-- The first entry of which `p` holds, if there is one. -/
theorem findIdx?_entryList (inode : Inode) (d : Device) (p : DirEntry → Bool) :
    (∃ i, (entryList inode d).findIdx? p = some i ∧ i < inode.size / SIZEOF_DIR_ENTRY ∧
      p (entryAt inode d i) = true ∧ ∀ j < i, p (entryAt inode d j) = false) ∨
    (entryList inode d).findIdx? p = none ∧
      ∀ j < inode.size / SIZEOF_DIR_ENTRY, p (entryAt inode d j) = false := by
  cases hfind : (entryList inode d).findIdx? p with
  | none =>
      rw [List.findIdx?_eq_none_iff] at hfind
      exact .inr ⟨rfl, fun j hj => hfind _ (List.mem_map_of_mem (List.mem_range.2 hj))⟩
  | some i =>
      obtain ⟨hi, hp, hbefore⟩ := List.findIdx?_eq_some_iff_getElem.1 hfind
      refine .inl ⟨i, rfl, length_entryList (d := d) ▸ hi, ?_, fun j hj => ?_⟩
      · simpa [entryList] using hp
      · simpa [entryList] using hbefore j hj

namespace Solid

variable (h : Solid inode d)
include h

theorem count_ne (hk : DIR_ENTRIES_PER_BLOCK * k < inode.size / SIZEOF_DIR_ENTRY) :
    d.count (mapped inode d k) ≠ 255 :=
  h.room (slot k) (slot_valid (h.block k hk).1) (h.block k hk).2

theorem bread (hk : DIR_ENTRIES_PER_BLOCK * k < inode.size / SIZEOF_DIR_ENTRY) :
    d.bread (mapped inode d k) = some (d.take (mapped inode d k)) :=
  Device.bread_readable (h.readable (slot k) (slot_valid (h.block k hk).1) (h.block k hk).2)

/-! ### `find_entry` -/

theorem findLoop_look (hat : ScanAt inode i k de) (hlt : i < inode.size / SIZEOF_DIR_ENTRY) :
    findLoop inode name (inode.size / SIZEOF_DIR_ENTRY) (n + 1) i (some (mapped inode d k)) de
        (d.take (mapped inode d k)) =
      if (entryAt inode d i).matches name then
        pure (some (place inode d i), d.take (place inode d i).1)
      else findLoop inode name (inode.size / SIZEOF_DIR_ENTRY) n (i + 1)
        (some (place inode d i).1) ((place inode d i).2 + 1) (d.take (place inode d i).1) := by
  rw [findLoop, if_pos hlt]
  rcases hat.place (d := d) with ⟨hde, hplace⟩ | ⟨rfl, hdiv, hplace⟩
  · simp only [Nat.not_le.2 hde, if_false, entryAt, hplace]
    rfl
  · have hk := hat.next_lt hlt
    obtain ⟨hblocks, hne⟩ := h.block _ hk
    simp only [le_refl, if_true]
    rw [Device.brelse_take (h.count_ne hat.2.2), hdiv, pure_bind,
      bmap_eq hblocks (h.room.not_full (slot_valid hblocks))]
    simp only [pure_bind]
    rw [if_neg hne, h.bread hk, entryAt, hplace]
    rfl

/-- The entries that do not match are passed. -/
theorem findLoop_pass {m : ℕ} (hat : ScanAt inode i k de)
    (hpass : ∀ j, i ≤ j → j < i + m → (entryAt inode d j).matches name = false)
    (hle : i + m ≤ inode.size / SIZEOF_DIR_ENTRY) :
    ∃ k' de', ScanAt inode (i + m) k' de' ∧
      findLoop inode name (inode.size / SIZEOF_DIR_ENTRY) (n + m) i (some (mapped inode d k)) de
          (d.take (mapped inode d k)) =
        findLoop inode name (inode.size / SIZEOF_DIR_ENTRY) n (i + m) (some (mapped inode d k'))
          de' (d.take (mapped inode d k')) := by
  induction m generalizing i k de with
  | zero => exact ⟨k, de, hat, rfl⟩
  | succ m ih =>
      have hlt : i < inode.size / SIZEOF_DIR_ENTRY := by omega
      obtain ⟨k', de', hat', heq⟩ := ih (ScanAt.next hlt)
        (fun j hj hjm => hpass j (by omega) (by omega)) (by omega)
      have hsum : i + 1 + m = i + (m + 1) := by omega
      rw [hsum] at hat' heq
      refine ⟨k', de', hat', ?_⟩
      rw [← heq, show n + (m + 1) = n + m + 1 from rfl, h.findLoop_look hat hlt,
        hpass i (le_refl i) (by omega)]
      rfl

theorem findIn_eq : findIn name (inode.size / SIZEOF_DIR_ENTRY) inode d =
    pure (match (entryList inode d).findIdx? (·.matches name) with
      | some i => (some (place inode d i), d.take (place inode d i).1)
      | none => (none, d)) := by
  have hzero : mapped inode d 0 = inode.zone 0 := rfl
  have hpos : DIR_ENTRIES_PER_BLOCK * 0 < inode.size / SIZEOF_DIR_ENTRY := h.pos
  have hne := (h.block 0 hpos).2
  have hread := h.bread hpos
  rw [hzero] at hne hread
  rw [findIn, if_neg hne, hread]
  dsimp only
  rcases findIdx?_entryList inode d (·.matches name) with
    ⟨i, hfind, hi, hmatch, hbefore⟩ | ⟨hfind, hnone⟩
  · obtain ⟨k, de, hat, heq⟩ := h.findLoop_pass (n := inode.size / SIZEOF_DIR_ENTRY - i + 1)
      (m := i) (scanAt_zero h.pos) (fun j _ hj => hbefore j (by omega)) (by omega)
    rw [Nat.zero_add] at hat heq
    rw [hfind, show inode.size / SIZEOF_DIR_ENTRY + 1 = inode.size / SIZEOF_DIR_ENTRY - i + 1 + i by omega]
    refine heq.trans ?_
    rw [h.findLoop_look hat hi, if_pos hmatch]
  · obtain ⟨k, de, hat, heq⟩ := h.findLoop_pass (n := 1) (scanAt_zero h.pos)
      (fun j _ hj => hnone j (by omega)) (Nat.zero_add _).le
    rw [Nat.zero_add] at hat heq
    rw [hfind, Nat.add_comm]
    refine heq.trans ?_
    rw [findLoop, if_neg (Nat.lt_irrefl _)]
    dsimp only
    rw [Device.brelse_take (h.count_ne hat.2.2)]
    rfl

/-- `find_entry` gets to the entry that is found in the list, in a directory that is not
the root of another device. -/
theorem findEntry_volume {v : Volume} {e : Env} {dir : ℕ}
    (hentries : v.entries dir = entryList inode d) (hread : e.readable dir = true) :
    findEntry (dir = e.root) none name inode d = pure (match v.findEntry e dir name with
      | some (i, _) => (some (place inode d i), inode, d.take (place inode d i).1)
      | none => (none, inode, d)) := by
  unfold findEntry Volume.findEntry
  by_cases hnil : name.take NAME_LEN = []
  · simp only [hnil, if_true, true_or]
  have hstart : dotDotStart (decide (dir = e.root)) none (name.take NAME_LEN) inode d =
      (if name.take NAME_LEN = dotDot ∧ dir = e.root then dot else name.take NAME_LEN, inode, d) := by
    unfold dotDotStart
    by_cases hdots : name.take NAME_LEN = dotDot <;> by_cases hroot : dir = e.root <;>
      simp [hdots, hroot]
  simp only [hnil, hread, Bool.true_eq_false, or_self, if_false, hstart, hentries]
  generalize (if name.take NAME_LEN = dotDot ∧ dir = e.root then dot else name.take NAME_LEN) = name'
  rw [h.findIn_eq]
  simp only [pure_bind]
  rcases findIdx?_entryList inode d (·.matches name') with
    ⟨i, hfind, hi, -, -⟩ | ⟨hfind, -⟩
  · have hget : (entryList inode d)[i]? = some (entryAt inode d i) := by simp [entryList, hi]
    simp only [hfind, Option.bind_some, hget, Option.map_some]
  · simp only [hfind, Option.bind_none]

end Solid

/-! ### `add_entry` -/

/-- The name is written into the entry at `p`. -/
def writeName (name : List UInt8) (p : ℕ × ℕ) (d : Device) : Device :=
  d.setData p.1 ((d.data p.1).write (16 * p.2 + 2) NAME_LEN fun k => (padName name).getD k 0)

/-- The entry at `p` is free. -/
def freeEntry (p : ℕ × ℕ) (d : Device) : Device :=
  d.setData p.1 ((d.data p.1).setShort (8 * p.2) 0)

theorem dirEntry_freeEntry (p : ℕ × ℕ) (d : Device) :
    (((freeEntry p d).data p.1).dirEntry p.2).inode = 0 := by
  have hdata : (freeEntry p d).data p.1 = (d.data p.1).setShort (8 * p.2) 0 := Function.update_self ..
  rw [hdata]
  exact (Block.short_setShort _ _ (by decide)).trans (if_pos rfl)

theorem padName_take (name : List UInt8) : padName (name.take NAME_LEN) = padName name := by
  refine List.map_congr_left fun k hk => ?_
  have hlt := List.mem_range.1 hk
  simp [List.getD_eq_getElem?_getD, hlt]

theorem dirEntry_writeName (name : List UInt8) (p : ℕ × ℕ) (d : Device)
    (hfree : ((d.data p.1).dirEntry p.2).inode = 0) :
    ((writeName name p d).data p.1).dirEntry p.2 = ⟨0, padName name⟩ := by
  have hdata : (writeName name p d).data p.1 = (d.data p.1).write (16 * p.2 + 2) NAME_LEN
      fun k => (padName name).getD k 0 := Function.update_self ..
  have hbefore (k : ℕ) (hk : k < 16 * p.2 + 2) : ((d.data p.1).write (16 * p.2 + 2) NAME_LEN
      fun k => (padName name).getD k 0) k = d.data p.1 k := if_neg fun h => by omega
  rw [hdata, Block.dirEntry, DirEntry.mk.injEq]
  constructor
  · refine Eq.trans ?_ hfree
    unfold Block.dirEntry Block.short
    rw [hbefore _ (by omega), hbefore _ (by omega)]
  · refine List.map_congr_left fun k hk => ?_
    have hlt := List.mem_range.1 hk
    rw [Block.write, if_pos (by omega), Nat.add_sub_cancel_left]
    simp [padName, hlt]

/-- An entry within the directory that is free. -/
theorem addLook_take {b : ℕ} {next : Inode → Device → Except String (Option (ℕ × ℕ) × Inode × Device)}
    (hsize : i * SIZEOF_DIR_ENTRY < inode.size) (hfree : ((d.data b).dirEntry de).inode = 0) :
    addLook name i b de inode d next = pure (some (b, de), inode, writeName name (b, de) d) := by
  unfold addLook
  simp only [Nat.not_le.2 hsize, if_false]
  rw [if_pos hfree]
  rfl

/-- The entry after the last one. -/
theorem addLook_end {b : ℕ} {next : Inode → Device → Except String (Option (ℕ × ℕ) × Inode × Device)}
    (hsize : inode.size ≤ i * SIZEOF_DIR_ENTRY) : addLook name i b de inode d next =
      pure (some (b, de), { inode with size := (i + 1) * SIZEOF_DIR_ENTRY, dirt := true },
        writeName name (b, de) (freeEntry (b, de) d)) := by
  unfold addLook
  simp only [hsize, if_true]
  exact if_pos (dirEntry_freeEntry (b, de) d)

theorem follow_size {create : Bool} {s : Slot} :
    Ends (fun r => r.2.1.size = inode.size) (fun _ => True) (follow create inode d s) := by
  induction s with
  | zone j =>
      refine .ite (fun _ => ?_) fun _ => .pure rfl
      cases d.newBlock with
      | error e => trivial
      | ok r =>
          change Inode.size (if r.1 % 65536 = 0 then inode else _) = _
          split <;> rfl
  | entry s j ih =>
      refine ih.bind fun r hr => .ite (fun _ => .pure hr) fun _ => ?_
      cases indirect create r.1 j r.2.2 with
      | error e => trivial
      | ok r' => exact hr

theorem createBlock_size {z : ℕ} {inode' : Inode} {d' : Device}
    (h : createBlock inode k d = .ok (z, inode', d')) : inode'.size = inode.size := by
  by_cases hk : k < BLOCKS
  · have hends : Ends _ _ (follow true inode d (slot k)) := follow_size
    rw [← bmapOr_eq true hk, show bmapOr true inode k d = createBlock inode k d from rfl, h] at hends
    exact hends
  · unfold createBlock at h
    rw [bmapOr_big true (Nat.not_lt.1 hk)] at h
    cases h

namespace Solid

variable (h : Solid inode d)
include h

theorem size_eq : inode.size / SIZEOF_DIR_ENTRY * SIZEOF_DIR_ENTRY = inode.size :=
  Nat.div_mul_cancel (Nat.dvd_of_mod_eq_zero h.aligned)

theorem lt_size (hlt : i < inode.size / SIZEOF_DIR_ENTRY) : i * SIZEOF_DIR_ENTRY < inode.size := by
  rw [← h.size_eq]
  exact Nat.mul_lt_mul_of_pos_right hlt (by decide)

theorem addLoop_look (hat : ScanAt inode i k de) (hlt : i < inode.size / SIZEOF_DIR_ENTRY) :
    addLoop name (n + 1) i (some (mapped inode d k)) de inode (d.take (mapped inode d k)) =
      addLook name i (place inode d i).1 (place inode d i).2 inode (d.take (place inode d i).1)
        fun inode' d' => addLoop name n (i + 1) (some (place inode d i).1)
          ((place inode d i).2 + 1) inode' d' := by
  rw [addLoop]
  rcases hat.place (d := d) with ⟨hde, hplace⟩ | ⟨rfl, hdiv, hplace⟩
  · simp only [Nat.not_le.2 hde, if_false, hplace]
  · have hk := hat.next_lt hlt
    obtain ⟨hblocks, hne⟩ := h.block _ hk
    simp only [le_refl, if_true]
    rw [Device.brelse_take (h.count_ne hat.2.2), hdiv, pure_bind,
      createBlock_eq hblocks (h.room.not_full (slot_valid hblocks)) hne]
    simp only [pure_bind]
    rw [if_neg hne, h.bread hk, hplace]

theorem addLoop_pass {m : ℕ} (hat : ScanAt inode i k de)
    (hpass : ∀ j, i ≤ j → j < i + m → (entryAt inode d j).inode ≠ 0)
    (hle : i + m ≤ inode.size / SIZEOF_DIR_ENTRY) :
    ∃ k' de', ScanAt inode (i + m) k' de' ∧
      addLoop name (n + m) i (some (mapped inode d k)) de inode (d.take (mapped inode d k)) =
        addLoop name n (i + m) (some (mapped inode d k')) de' inode (d.take (mapped inode d k')) := by
  induction m generalizing i k de with
  | zero => exact ⟨k, de, hat, rfl⟩
  | succ m ih =>
      have hlt : i < inode.size / SIZEOF_DIR_ENTRY := by omega
      have huse : InUse inode i ((d.data (place inode d i).1).dirEntry (place inode d i).2) :=
        ⟨h.lt_size hlt, hpass i (le_refl i) (by omega)⟩
      obtain ⟨k', de', hat', heq⟩ := ih (ScanAt.next hlt)
        (fun j hj hjm => hpass j (by omega) (by omega)) (by omega)
      have hsum : i + 1 + m = i + (m + 1) := by omega
      rw [hsum] at hat' heq
      refine ⟨k', de', hat', ?_⟩
      rw [← heq, show n + (m + 1) = n + m + 1 from rfl, h.addLoop_look hat hlt,
        addLook_inUse (d := d.take (place inode d i).1) huse]
      rfl

/-- `add_entry` gets to the first free entry, or to the end. -/
theorem addEntry_pass (hname : name.take NAME_LEN ≠ [])
    (hpass : ∀ j < i, (entryAt inode d j).inode ≠ 0) (hle : i ≤ inode.size / SIZEOF_DIR_ENTRY) :
    ∃ n k de, ScanAt inode i k de ∧ addEntry name inode d =
      addLoop (name.take NAME_LEN) (n + 1) i (some (mapped inode d k)) de inode
        (d.take (mapped inode d k)) := by
  have hzero : mapped inode d 0 = inode.zone 0 := rfl
  have hpos : DIR_ENTRIES_PER_BLOCK * 0 < inode.size / SIZEOF_DIR_ENTRY := h.pos
  have hne := (h.block 0 hpos).2
  have hread := h.bread hpos
  rw [hzero] at hne hread
  obtain ⟨k, de, hat, heq⟩ := h.addLoop_pass (n := inode.size / SIZEOF_DIR_ENTRY - i + 2 + 1)
    (m := i) (scanAt_zero h.pos) (fun j _ hj => hpass j (by omega)) (by omega)
  rw [Nat.zero_add] at hat heq
  refine ⟨_, k, de, hat, Eq.trans ?_ heq⟩
  have hfuel : inode.size / SIZEOF_DIR_ENTRY - i + 2 + 1 + i = inode.size / SIZEOF_DIR_ENTRY + 3 := by
    omega
  unfold addEntry
  rw [hfuel]
  simp only [hname, hne, if_false, hread]
  rfl

theorem addEntry_free (hname : name.take NAME_LEN ≠ [])
    (hpass : ∀ j < i, (entryAt inode d j).inode ≠ 0) (hlt : i < inode.size / SIZEOF_DIR_ENTRY)
    (hfree : (entryAt inode d i).inode = 0) : addEntry name inode d =
      pure (some (place inode d i), inode,
        writeName (name.take NAME_LEN) (place inode d i) (d.take (place inode d i).1)) := by
  obtain ⟨n, k, de, hat, heq⟩ := h.addEntry_pass hname hpass (Nat.le_of_lt hlt)
  rw [heq, h.addLoop_look hat hlt]
  exact addLook_take (h.lt_size hlt) hfree

/-- Without a free entry the one after the last is taken, in the last block if it is not
full, and otherwise in the next one, which has to be there or to be created. -/
theorem addEntry_end (hname : name.take NAME_LEN ≠ [])
    (hpass : ∀ j < inode.size / SIZEOF_DIR_ENTRY, (entryAt inode d j).inode ≠ 0)
    {z : ℕ} {inode' : Inode} {d' : Device}
    (hcreate : createBlock inode (inode.size / SIZEOF_DIR_ENTRY / DIR_ENTRIES_PER_BLOCK : ℕ) d =
      .ok (z, inode', d')) (hread : z ≠ 0 → d'.readable z = true) :
    (inode.size / SIZEOF_DIR_ENTRY % DIR_ENTRIES_PER_BLOCK = 0 ∧ z = 0 ∧
      addEntry name inode d = pure (none, inode', d')) ∨
    ∃ p inode'' d'', p.2 = inode.size / SIZEOF_DIR_ENTRY % DIR_ENTRIES_PER_BLOCK ∧
      (inode.size / SIZEOF_DIR_ENTRY % DIR_ENTRIES_PER_BLOCK = 0 → z ≠ 0) ∧
      addEntry name inode d = pure (some p, inode'',
        writeName (name.take NAME_LEN) p (freeEntry p d'')) := by
  obtain ⟨n, k, de, hat, heq⟩ := h.addEntry_pass hname hpass (le_refl _)
  rw [heq]
  have hsize := h.size_eq.ge
  rcases hat.place (d := d) with ⟨hde, hplace⟩ | ⟨rfl, hdiv, hplace⟩
  · have hmod := congrArg Prod.snd hplace
    refine .inr ⟨(mapped inode d k, de), { inode with
      size := (inode.size / SIZEOF_DIR_ENTRY + 1) * SIZEOF_DIR_ENTRY, dirt := true },
      d.take (mapped inode d k), hmod.symm, fun hzero => ?_, ?_⟩
    · obtain ⟨hi, -, hk⟩ := hat
      have hde' : de = 0 := hmod.symm.trans hzero
      omega
    · rw [addLoop]
      simp only [Nat.not_le.2 hde, if_false]
      rw [addLook_end hsize]
  · have hmod := congrArg Prod.snd hplace
    have hrelease := Device.brelse_take (h.count_ne hat.2.2)
    rw [addLoop]
    simp only [le_refl, if_true]
    rw [hrelease, pure_bind, hcreate]
    by_cases hz : z = 0
    · exact .inl ⟨hmod, hz, by subst hz; rfl⟩
    · refine .inr ⟨(z, 0), { inode' with
        size := (inode.size / SIZEOF_DIR_ENTRY + 1) * SIZEOF_DIR_ENTRY, dirt := true },
        d'.take z, hmod.symm, fun _ => hz, ?_⟩
      change (if z = 0 then _ else _) = _
      rw [if_neg hz, Device.bread_readable (hread hz)]
      exact addLook_end ((createBlock_size hcreate).trans_le hsize)

/-- `add_entry` writes the name where the list gets the entry. -/
theorem addEntry_volume {v : Volume} {e : Env} {dir m : ℕ}
    (hentries : v.entries dir = entryList inode d) (hread : e.readable dir = true)
    {z : ℕ} {inode' : Inode} {d' : Device}
    (hcreate : createBlock inode (inode.size / SIZEOF_DIR_ENTRY / DIR_ENTRIES_PER_BLOCK : ℕ) d =
      .ok (z, inode', d')) (hblock : z ≠ 0 → d'.readable z = true) (hspace : e.space = decide (z ≠ 0)) :
    ∃ r inode'' d'', addEntry name inode d = .ok (r, inode'', d'') ∧
      match v.addEntry e dir name m with
      | none => r = none
      | some v' => ∃ i p, v' = v.writeEntry dir i ⟨m, padName name⟩ ∧ r = some p ∧
          p.2 = i % DIR_ENTRIES_PER_BLOCK ∧
          (i < inode.size / SIZEOF_DIR_ENTRY → p = place inode d i) ∧
          (d''.data p.1).dirEntry p.2 = ⟨0, padName name⟩ := by
  unfold Volume.addEntry
  by_cases hnil : name.take NAME_LEN = []
  · refine ⟨none, inode, d, ?_, ?_⟩
    · unfold addEntry
      simp only [hnil, if_true]
      rfl
    · simp only [hnil, true_or, if_true]
  simp only [hnil, hread, Bool.true_eq_false, or_self, if_false, hentries, length_entryList]
  rcases findIdx?_entryList inode d (·.inode = 0) with
    ⟨i, hfind, hi, hfree, hbefore⟩ | ⟨hfind, hnone⟩
  · have hzero : (entryAt inode d i).inode = 0 := of_decide_eq_true hfree
    refine ⟨_, _, _, h.addEntry_free hnil (fun j hj => of_decide_eq_false (hbefore j hj)) hi hzero, ?_⟩
    rw [hfind]
    refine ⟨i, place inode d i, rfl, rfl, rfl, fun _ => rfl, ?_⟩
    rw [dirEntry_writeName _ _ (d.take (place inode d i).1) hzero, padName_take]
  · rw [hfind]
    rcases h.addEntry_end hnil (fun j hj => of_decide_eq_false (hnone j hj)) hcreate hblock with
      ⟨hfull, hz, hadd⟩ | ⟨p, inode'', d'', hp, hne, hadd⟩
    · refine ⟨none, inode', d', hadd, ?_⟩
      simp only [hfull, hspace, hz, ne_eq, not_true_eq_false, decide_false, and_self, if_true]
    · refine ⟨some p, inode'', _, hadd, ?_⟩
      have hroom : ¬(inode.size / SIZEOF_DIR_ENTRY % DIR_ENTRIES_PER_BLOCK = 0 ∧ e.space = false) := by
        rintro ⟨hfull, hno⟩
        rw [hspace, decide_eq_true (hne hfull)] at hno
        cases hno
      simp only [hroom, if_false]
      refine ⟨inode.size / SIZEOF_DIR_ENTRY, p, rfl, rfl, hp, fun hlt => absurd hlt (Nat.lt_irrefl _), ?_⟩
      rw [dirEntry_writeName _ _ _ (dirEntry_freeEntry p d''), padName_take]

end Solid

/-! ## With the zones of the device -/

/-- `create_block` decides whether there is space. -/
theorem FileSystem.addEntry_volume {s s' : FileSystem} {e : Env} {dir m : ℕ} {added : Bool}
    (h : s.addEntry e dir name m = .ok (added, s')) : ∃ space,
      s.volume.addEntry { e with space := space } dir name m =
        if added then some s'.volume else none := by
  unfold FileSystem.addEntry at h
  unfold Volume.addEntry
  by_cases hnot : name.take NAME_LEN = [] ∨ e.readable dir = false
  · rw [if_pos hnot] at h
    cases h
    exact ⟨true, if_pos hnot⟩
  rw [if_neg hnot] at h
  simp only [hnot, if_false]
  cases hfind : (s.volume.entries dir).findIdx? (·.inode = 0) with
  | some k =>
      rw [hfind] at h
      cases h
      exact ⟨true, rfl⟩
  | none =>
      rw [hfind] at h
      dsimp only at h ⊢
      by_cases hfull : (s.volume.entries dir).length % DIR_ENTRIES_PER_BLOCK = 0
      · rw [if_neg (not_not.2 hfull)] at h
        obtain ⟨⟨z, i, device⟩, -, h⟩ := bind_eq_ok h
        dsimp only at h
        by_cases hz : z = 0
        · rw [if_pos hz] at h
          cases h
          exact ⟨false, if_pos ⟨hfull, rfl⟩⟩
        · rw [if_neg hz] at h
          cases h
          exact ⟨true, if_neg fun hno => by cases hno.2⟩
      · rw [if_pos hfull] at h
        cases h
        exact ⟨true, if_neg fun hno => hfull hno.1⟩

end MyJavaExample.Fs
