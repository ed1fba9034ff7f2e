import MyJavaExample.Fs.DirectoryScan

/-!
# Which scans balance their references

A scan that goes on at every entry before a block is bound to reach it.  So where
a scan loses count depends on the first such block: `Reaches`.

A buffer that is held 255 times already cannot be counted once more.  So a scan loses
count there as well, in a block of the directory or in an indirect one.
-/

namespace MyJavaExample.Fs

open Lib

variable {inode : Inode} {d : Device} {p : ℕ → DirEntry → Prop} {B : ℕ → Prop}
  {name : List UInt8} {entries i k de b z : ℕ}

/-! ## What a scan passes -/

/-- The block `k` of the directory, if there is one that can be read. -/
def heldBlock (inode : Inode) (d : Device) (k : ℕ) : Option ℕ :=
  if mapped inode d k ≠ 0 ∧ d.readable (mapped inode d k) then some (mapped inode d k) else none

/-- The entries of block `k` from `de` on are passed, where `p` says of an entry and
its number that the scan goes on. -/
def PassesBlock (d : Device) (p : ℕ → DirEntry → Prop) (k de b : ℕ) : Prop :=
  ∀ e, de ≤ e → e < DIR_ENTRIES_PER_BLOCK →
    p (DIR_ENTRIES_PER_BLOCK * k + e) ((d.data b).dirEntry e)

/-- All entries of the blocks from `k` to `k'` are passed. -/
def PassesBlocks (inode : Inode) (d : Device) (p : ℕ → DirEntry → Prop) (k k' : ℕ) : Prop :=
  ∀ j, k ≤ j → j < k' → ∃ b, heldBlock inode d j = some b ∧ PassesBlock d p j 0 b

/-- From entry `de` of block `k` a scan gets to a block of which `B` holds. -/
def Reaches (inode : Inode) (d : Device) (p : ℕ → DirEntry → Prop) (B : ℕ → Prop)
    (k de b : ℕ) : Prop :=
  ∃ k' > k, B k' ∧ PassesBlock d p k de b ∧ PassesBlocks inode d p (k + 1) k'

/-- A buffer pointer that is not valid, or a release of a buffer nobody holds. -/
def Misuse (e : String) : Prop := e = "null pointer" ∨ e = "Trying to free free buffer"

instance (e : String) : Decidable (Misuse e) := inferInstanceAs (Decidable (_ ∨ _))

/-- The references are those of `d` and one to `bh`. -/
def Counted (d : Device) (bh : Option ℕ) (d' : Device) : Prop :=
  ∀ b, (d'.count b).toNat = (d.count b).toNat + if bh = some b then 1 else 0

/-- A panic of another kind is no return. -/
def Balanced {α : Type} (d : Device) (bh : α → Option ℕ) (dev : α → Device)
    (r : Except String α) : Prop :=
  Ends (fun a => Counted d (bh a) (dev a)) (fun e => ¬Misuse e) r

/-- To get block `k` into hand a buffer is counted that has 255 references. -/
def WrapsAt (create : Bool) (inode : Inode) (d : Device) (k : ℕ) : Prop :=
  k < BLOCKS ∧ ((slot k).Full create inode d ∨ d.Full (mapped inode d k))

/-- A block that is missing, although there are entries after it. -/
def MissingBefore (inode : Inode) (d : Device) (entries k : ℕ) : Prop :=
  k < BLOCKS ∧ heldBlock inode d k = none ∧ DIR_ENTRIES_PER_BLOCK * (k + 1) < entries

/-- Where `find_entry` loses count. -/
def FindLoses (inode : Inode) (d : Device) (entries k : ℕ) : Prop :=
  MissingBefore inode d entries k ∨
    WrapsAt false inode d k ∧ DIR_ENTRIES_PER_BLOCK * k < entries

theorem FindLoses.lt (h : FindLoses inode d entries k) :
    k < BLOCKS ∧ DIR_ENTRIES_PER_BLOCK * k < entries := by
  rcases h with ⟨hk, -, hend⟩ | ⟨hwraps, hend⟩
  · exact ⟨hk, Nat.lt_of_le_of_lt (Nat.mul_le_mul_left _ (Nat.le_succ k)) hend⟩
  · exact ⟨hwraps.1, hend⟩

/-- The block of the entry after the end of a block. -/
theorem blockIndex_end (hi : i = DIR_ENTRIES_PER_BLOCK * k + DIR_ENTRIES_PER_BLOCK) :
    i / DIR_ENTRIES_PER_BLOCK = k + 1 := by
  rw [hi, ← Nat.mul_succ]
  exact Nat.mul_div_cancel_left _ (by decide)

/-- The first block may be at its limit already. -/
def StartsAt (inode : Inode) (d : Device) (Q : ℕ → Prop) : Prop :=
  ∃ b, heldBlock inode d 0 = some b ∧ (d.count b = 255 ∨ Q b)

/-- A block that is there but cannot be read. -/
def Unreadable (inode : Inode) (d : Device) (k : ℕ) : Prop :=
  k < BLOCKS ∧ mapped inode d k ≠ 0 ∧ d.readable (mapped inode d k) = false

/-- The entry is in use. -/
def InUse (inode : Inode) (i : ℕ) (de : DirEntry) : Prop :=
  i * SIZEOF_DIR_ENTRY < inode.size ∧ de.inode ≠ 0

theorem addLook_inUse {next : Inode → Device → Except String (Option (ℕ × ℕ) × Inode × Device)}
    (h : InUse inode i ((d.data b).dirEntry de)) : addLook name i b de inode d next = next inode d := by
  unfold addLook
  simp only [Nat.not_le.2 h.1, if_false]
  rw [if_neg h.2]

/-- Where `add_entry` loses count. -/
def AddLoses (inode : Inode) (d : Device) (k : ℕ) : Prop :=
  Unreadable inode d k ∨ WrapsAt true inode d k

theorem AddLoses.lt (h : AddLoses inode d k) : k < BLOCKS :=
  h.elim And.left And.left

/-- What `add_entry` gets wrong: a block that cannot be read, or a buffer that is held
255 times, before it has found a free entry. -/
def AddFails (name : List UInt8) (inode : Inode) (d : Device) : Prop :=
  name ≠ [] ∧ StartsAt inode d fun b => Reaches inode d (InUse inode) (AddLoses inode d) 0 0 b

abbrev EmptyBalanced (d : Device) (r : Except String (Bool × Device)) : Prop :=
  Balanced d (fun _ => none) Prod.snd r

/-- A block that is missing. -/
def Missing (inode : Inode) (d : Device) (entries k : ℕ) : Prop :=
  k < BLOCKS ∧ mapped inode d k = 0 ∧ DIR_ENTRIES_PER_BLOCK * k < entries

/-- Where `empty_dir` loses count. -/
def EmptyLoses (inode : Inode) (d : Device) (entries k : ℕ) : Prop :=
  Missing inode d entries k ∨ WrapsAt false inode d k ∧ DIR_ENTRIES_PER_BLOCK * k < entries

theorem EmptyLoses.lt (h : EmptyLoses inode d entries k) :
    k < BLOCKS ∧ DIR_ENTRIES_PER_BLOCK * k < entries := by
  rcases h with ⟨hk, -, hend⟩ | ⟨hwraps, hend⟩
  · exact ⟨hk, hend⟩
  · exact ⟨hwraps.1, hend⟩

/-- A scan that has lost count does not get to the end of what `_bmap` can map, or nobody
else holds a buffer that it releases. -/
def Sure (entries : ℕ) (d : Device) : Prop :=
  entries ≤ DIR_ENTRIES_PER_BLOCK * BLOCKS ∨ ∀ b, d.count b = 0 ∨ d.count b = 255

/-- `r` balances the references exactly if not `bad`, as far as that is sure. -/
def Decides (entries : ℕ) (d : Device) (bad : Prop) (r : Except String (Bool × Device)) : Prop :=
  (¬bad → EmptyBalanced d r) ∧ (bad → Sure entries d → ¬EmptyBalanced d r)

theorem Decides.congr {bad bad' : Prop} {r : Except String (Bool × Device)}
    (h : Decides entries d bad r) (hbad : bad' ↔ bad) : Decides entries d bad' r := by
  rwa [propext hbad]

/-- The same buffers are held 255 times. -/
def SameFull (d : Device) (c : ℕ → UInt8) : Prop := ∀ b, c b = 255 ↔ d.count b = 255

variable {c : ℕ → UInt8}

theorem SameFull.full (h : SameFull d c) : Device.Full { d with count := c } b ↔ d.Full b :=
  and_congr_right fun _ => and_congr_right fun _ => h b

section

variable (isRoot : Bool) (covered : Option (Inode × Device)) (name : List UInt8)

end

end MyJavaExample.Fs
