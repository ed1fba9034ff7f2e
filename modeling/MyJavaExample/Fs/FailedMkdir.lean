import MyJavaExample.Fs.LinkRuns
import MyJavaExample.Fs.Mkdir
import MyJavaExample.Fs.ZoneBits

/-!
# A failed `sys_mkdir`

Every exit but one gives back what the call has taken.  When `add_entry` fails, the
block of the new directory is freed, and `iput` truncates the inode and frees it again.
-/

namespace MyJavaExample.Fs

open Lib

/-! ## The block of the new directory -/

namespace Device

variable {d d' : Device} {z : ℕ}

/-- A bit that is clear stands for a data zone. -/
def Padded (d : Device) : Prop := ∀ k, d.bits k = some false → ∃ z, d.DataZone z ∧ d.nr z = k

/-- `new_block` finds nothing and changes nothing, or it sets the bit of the zone. -/
theorem newBlock_padded (hm : d.Mounted) (hidle : d.FreeIdle) (hpad : d.Padded) :
    ∃ z d', d.newBlock = .ok (z, d') ∧ d.Allocated z d' ∧ (z = 0 → d' = d) ∧
      (z ≠ 0 → d'.bits = Function.update d.bits (d.nr z) (some true)) := by
  obtain ⟨z, d', heq, hnew⟩ := newBlock_eq hm hidle
  refine ⟨z, d', heq, hnew, ?_⟩
  unfold newBlock at heq
  cases hslot : d.findSlot 8 0 with
  | none =>
      rw [hslot] at heq
      cases heq
      exact ⟨fun _ => rfl, fun hz => absurd rfl hz⟩
  | some r =>
      obtain ⟨i, m, j⟩ := r
      rw [hslot] at heq
      obtain ⟨hmap, hj, hbit, -⟩ := findSlot_some hslot
      have hk : (i * 8192 + j) / 8192 = i := by omega
      have hmod : (i * 8192 + j) % 8192 = j := by omega
      have hclear : d.bits (i * 8192 + j) = some false := by
        rw [bits, hk, hmod, hmap, Option.map_some, hbit]
      obtain ⟨x, hx, hnr⟩ := hpad _ hclear
      have hzone : ZoneDev.zoneBlock d.sb i j = x := by
        unfold DataZone at hx
        unfold nr at hnr
        unfold ZoneDev.zoneBlock
        omega
      have hres : setBit j m = (false, m.insert j) := by rw [setBit, hbit]
      have hin : ¬d.sb.nzones.toNat ≤ x := Nat.not_le.2 hx.2
      simp only [hres, Bool.false_eq_true, if_false, sb_setMap, count_setMap, hzone, Int.ofNat_le, hin,
        ZoneDev.blocknr_natCast (Nat.lt_trans hx.lt (by decide))] at heq
      split at heq
      next => cases heq
      next =>
        cases heq
        refine ⟨fun hz => absurd hz (hm.ne_zero hx), fun _ => ?_⟩
        rw [hnr]
        exact bits_insert hmap hj

/-- Freeing the zone that `new_block` has found. -/
theorem freeBlock_newBlock (hnew : d.Allocated z d') (hz : z ≠ 0)
    (hbits : d'.bits = Function.update d.bits (d.nr z) (some true)) (hcount : d.count z = 0) :
    ∃ d'', d'.freeBlock z = .ok d'' ∧ d''.bits = d.bits ∧ d''.count = d.count := by
  have hnr : d'.nr z = d.nr z := by rw [nr, nr, hnew.sb]
  obtain ⟨⟨hdata, hclear⟩, -, -⟩ := hnew.fresh hz
  have hdata' : d'.DataZone z := by rwa [DataZone, hnew.sb]
  have hused : d'.Used z := by rw [Used, hnr, hbits, Function.update_self]
  obtain ⟨zmap, heq, hfreed⟩ := freeBlock_eq hdata' hused (hnew.count ▸ hcount)
  refine ⟨_, heq, ?_, hnew.count⟩
  rw [hfreed, hnr, hbits, Function.update_idem, ← hclear, Function.update_eq_self]

/-- A block is not freed twice. -/
theorem freeBlock_twice (hcount : d.count z = 0) (h : d.freeBlock z = .ok d') :
    d'.freeBlock z = .error "free_block: bit already cleared" := by
  unfold freeBlock at h
  split at h
  next => cases h
  next hin =>
    have hone : ¬d.count z + 1 ≠ 1 := by simp [hcount]
    rw [if_neg hone] at h
    unfold freeBit at h
    dsimp only at h
    split at h
    next => cases h
    next m hm =>
      split at h
      next => cases h
      next =>
        cases h
        have hlt : (z + 1 - d.sb.firstdatazone.toNat) % 8192 < 256 * 32 := Nat.mod_lt _ (by decide)
        unfold freeBlock
        rw [sb_setMap, if_neg hin, count_setMap, if_neg hone]
        unfold freeBit
        simp only [setMap, Function.update_self, clearBit, Bitmap.bit_erase hlt]
        rw [if_pos (by simp)]
        rfl

end Device

/-- A `create_block` that finds nothing keeps no reference. -/
theorem createBlock_none {inode inode' : Inode} {d d' : Device} {k : ℕ} (hfirst : d.First)
    (h : createBlock inode k d = .ok (0, inode', d')) : d'.count = d.count := by
  by_cases hk : k < BLOCKS
  · by_cases hfull : (slot k).Full true inode d
    · rw [createBlock_full hk hfull] at h
      cases h
    by_cases hmapped : mapped inode d k = 0
    · have hnew := createBlock_new hfirst hk hfull hmapped
      rw [h] at hnew
      exact hnew.count
    · rw [createBlock_eq hk hfull hmapped] at h
      injection h with h
      injection h with h₀ h
      exact absurd h₀ hmapped
  · unfold createBlock at h
    rw [bmapOr_big true (Nat.not_lt.1 hk)] at h
    cases h

namespace FileSystem

theorem dirMode_isDir (mode umask : UInt16) : dirMode mode umask &&& S_IFMT = S_IFDIR := by
  have hbit : ∀ i < 16, ∀ a b : Bool,
      (((0o040000#16).getLsbD i || a && (0o777#16).getLsbD i && !b) &&
        (0o170000#16).getLsbD i) = (0o040000#16).getLsbD i := by
    decide
  refine UInt16.toBitVec_inj.1 (BitVec.eq_of_getLsbD_eq fun i hi => ?_)
  refine Eq.trans ?_ (hbit i hi (mode.toBitVec.getLsbD i) (umask.toBitVec.getLsbD i))
  simp [dirMode, S_IFMT, S_IFDIR, hi]

variable {s s' : FileSystem} {e : Env} {d n : ℕ} {name : List UInt8}

/-! ## References -/

theorem iput_held {v : Volume} (hv : s.volume = v.hold d) (hlive : v.nlinks d ≠ 0) :
    s.iput d = .ok (s.setVolume v) := by
  have hlinks : ¬(s.volume.count d = 1 ∧ s.volume.nlinks d = 0) := by
    rw [hv]
    exact fun hlast => hlive hlast.2
  unfold iput
  rw [if_neg hlinks, hv, Volume.iput_hold (.inl hlive)]
  rfl

/-- The last release of a new inode that has no mode: there is nothing to truncate. -/
theorem iput_new {v : Volume}
    (hv : s.volume = ((v.setInode n ⟨false, 1⟩).setCount n 1).setLinks n 0)
    (hmode : (s.inode n).mode = 0) (hn : v.inode n = none) (hempty : v.entries n = [])
    (hcount : v.count n = 0) : s.iput n = .ok ((s.setInode n noInode).setVolume v) := by
  have hone : s.volume.count n = 1 := by
    rw [hv]
    exact Function.update_self ..
  have hzero : s.volume.nlinks n = 0 := by rw [hv, Volume.nlinks_setLinks, if_pos rfl]
  have hnone : truncate (s.inode n) s.device = .ok (s.inode n, s.device) := by
    unfold truncate
    rw [hmode]
    rfl
  unfold iput
  rw [if_pos ⟨hone, hzero⟩, hnone, hv]
  change (Volume.iput _ n >>= _) = _
  rw [Volume.iput_newInode hn hempty hcount]
  rfl

/-! ## `add_entry` -/

/-- `add_entry` finds no room in `d`, with the zones of `device`: the first block cannot be
read, or there is no free entry, the last block is full, and there is no block after it. -/
def NoRoom (s : FileSystem) (e : Env) (d : ℕ) (device : Device) : Prop :=
  e.readable d = false ∨
    (s.volume.entries d).findIdx? (·.inode = 0) = none ∧
      (s.volume.entries d).length % DIR_ENTRIES_PER_BLOCK = 0 ∧
      ∀ z i device', createBlock (s.inode d)
        ((s.volume.entries d).length / DIR_ENTRIES_PER_BLOCK : ℕ) device = .ok (z, i, device') →
          z = 0

theorem addEntry_room (hroom : ¬s.NoRoom e d s.device) (hname : name.take NAME_LEN ≠ []) :
    ∃ s', s.addEntry e d name n = .ok (true, s') := by
  simp only [NoRoom, not_or, not_and, not_forall] at hroom
  obtain ⟨hread, hroom⟩ := hroom
  unfold addEntry
  rw [if_neg (not_or.2 ⟨hname, hread⟩)]
  split
  next => exact ⟨_, rfl⟩
  next hfree =>
    by_cases hlast : (s.volume.entries d).length % DIR_ENTRIES_PER_BLOCK = 0
    · obtain ⟨z, i, device', hcreate, hz⟩ := hroom hfree hlast
      dsimp only
      rw [if_neg (not_not.2 hlast), hcreate]
      refine ⟨_, if_neg hz⟩
    · exact ⟨_, if_pos hlast⟩

/-- It leaves what it has been given, as far as the new directory is concerned. -/
theorem addEntry_noRoom (hfirst : s.device.First) (hroom : s.NoRoom e d s.device) :
    (∃ msg, s.addEntry e d name n = .error msg) ∨
      ∃ i device, s.addEntry e d name n = .ok (false, (s.setDevice device).setInode d i) ∧
        device.count = s.device.count := by
  have hsame : (s.setDevice s.device).setInode d (s.inode d) = s := by simp [setInode, setDevice]
  by_cases hread : name.take NAME_LEN = [] ∨ e.readable d = false
  · refine .inr ⟨s.inode d, s.device, ?_, rfl⟩
    unfold addEntry
    rw [if_pos hread, hsame]
    rfl
  obtain ⟨hfree, hlast, hcreate⟩ := hroom.resolve_left fun h => hread (.inr h)
  unfold addEntry
  rw [if_neg hread, hfree]
  dsimp only
  rw [if_neg (not_not.2 hlast)]
  cases hres : createBlock (s.inode d)
      ((s.volume.entries d).length / DIR_ENTRIES_PER_BLOCK : ℕ) s.device with
  | error msg => exact .inl ⟨msg, rfl⟩
  | ok r =>
      obtain ⟨z, i, device⟩ := r
      obtain rfl := hcreate z i device hres
      exact .inr ⟨i, device, rfl, createBlock_none hfirst hres⟩

/-! ## The exits -/

/-- A consistent file system with the zones of its device. -/
structure Consistent (s : FileSystem) : Prop where
  volume : s.volume.Consistent
  free : ∀ n, s.volume.inode n = none → s.volume.count n = 0
  mounted : s.device.Mounted
  idle : s.device.FreeIdle
  padded : s.device.Padded

/-- The inodes with their links, the entries, the references and the bits of the zones
are what they were. -/
structure Restored (s s' : FileSystem) : Prop where
  volume : s'.volume = s.volume
  inode : ∀ m, s.volume.inode m ≠ none → s'.inode m = s.inode m
  bits : s'.device.bits = s.device.bits
  count : s'.device.count = s.device.count

theorem Restored.refl (s : FileSystem) : s.Restored s := ⟨rfl, fun _ _ => rfl, rfl, rfl⟩

/-- The call gets to `add_entry`, which is to write an entry for the directory `n` with
the block `z`, and finds no room. -/
structure AddFails (s : FileSystem) (e : Env) (pathname : List UInt8) (d n z : ℕ)
    (name : List UInt8) (v v' : Volume) (device : Device) : Prop where
  suser : e.suser = true
  found : s.volume.dirNamei e pathname = .ok (some (d, name), v)
  named : name ≠ []
  write : v.permission d e.mayWrite = true
  fresh : v.findEntry e d name = none
  inode : v.newInode = some (n, v')
  block : s.device.newBlock = .ok (z, device)
  block_ne : z ≠ 0
  readable : e.blockReadable = true
  noRoom : s.NoRoom e d device

/-- `add_entry` fails in the call. -/
def MkdirAddFails (s : FileSystem) (e : Env) (pathname : List UInt8) : Prop :=
  ∃ d n z name v v' device, s.AddFails e pathname d n z name v v' device

/-- The state in which `add_entry` is called, where the volume is `v`. -/
def atAdd (s : FileSystem) (v : Volume) (d n z : ℕ) (device : Device) (mode umask : UInt16) :
    FileSystem :=
  let s := ((s.setVolume v).setInode n { noInode with size := 32, dirt := true }).setDevice device
  let s := s.setInode n ((s.inode n).setZone 0 z)
  let s := s.setVolume ((s.volume.setInode n ⟨true, 2⟩).setEntries n
    [⟨n, padName dot⟩, ⟨d, padName dotDot⟩])
  s.setInode n { s.inode n with mode := dirMode mode umask }

/-- What `sys_mkdir` does with the result of `add_entry`. -/
def afterAdd (d n z : ℕ) (r : Bool × FileSystem) :
    Except String ((ℤ ⊕ ℕ × ℕ) × FileSystem) :=
  if r.1 = false then do
    let s ← r.2.iput d
    let device ← s.device.freeBlock z
    let s ← ((s.setDevice device).setLinks n 0).iput n
    pure (.inl (-ENOSPC), s)
  else pure (.inr (d, n), r.2)

/-- The block of a new directory is freed twice. -/
theorem afterAdd_panics {S : FileSystem} {v : Volume} {z : ℕ} (hv : S.volume = v.hold d)
    (hlive : v.nlinks d ≠ 0) (hlast : v.count n = 1) (hmode : (S.inode n).mode &&& S_IFMT = S_IFDIR)
    (hzone : (S.inode n).zone 0 = z) (hz : z ≠ 0) (hcount : S.device.count z = 0) :
    ∃ msg, afterAdd d n z (false, S) = .error msg := by
  have hrelease : S.iput d = .ok (S.setVolume v) := iput_held hv hlive
  unfold afterAdd
  rw [if_pos rfl]
  dsimp only
  rw [hrelease]
  change ∃ msg, (S.device.freeBlock z >>= fun device =>
    (((S.setVolume v).setDevice device).setLinks n 0).iput n >>= fun s => pure _) = .error msg
  cases hfree : S.device.freeBlock z with
  | error msg => exact ⟨msg, rfl⟩
  | ok device =>
      have htwice := Device.freeBlock_twice hcount hfree
      have hnone : (((S.setVolume v).setDevice device).setLinks n 0).volume.nlinks n = 0 := by
        refine (Volume.nlinks_setLinks).trans (if_pos rfl)
      have hone : (((S.setVolume v).setDevice device).setLinks n 0).volume.count n = 1 := hlast
      have htruncate : truncate (S.inode n) device = .error "free_block: bit already cleared" := by
        unfold truncate
        rw [if_neg (by simp [hmode]), freeDirect, hzone, if_neg hz, htwice]
        rfl
      refine ⟨"free_block: bit already cleared", ?_⟩
      change ((((S.setVolume v).setDevice device).setLinks n 0).iput n >>= fun s => pure _) = _
      rw [iput, if_pos ⟨hone, hnone⟩]
      change ((truncate (S.inode n) device >>= _) >>= _) = _
      rw [htruncate]
      rfl

section Exits

variable (h : s.Consistent)
include h

/-- The parent is released. -/
theorem Consistent.release {S : FileSystem} (hn : s.volume.inode n = none)
    (hd : s.volume.isDir d = true)
    (hv : S.volume = ((s.volume.hold d).setInode n ⟨false, 1⟩).setCount n 1) :
    S.iput d = .ok (S.setVolume ((s.volume.setInode n ⟨false, 1⟩).setCount n 1)) := by
  have hnd : d ≠ n := by
    rintro rfl
    exact Volume.inode_of_isDir hd hn
  have hlive : ((s.volume.setInode n ⟨false, 1⟩).setCount n 1).nlinks d ≠ 0 := by
    simpa [Volume.setCount, Volume.setInode, Volume.nlinks, hnd] using h.volume.nlinks_dir hd
  exact iput_held (hv.trans (Volume.hold_newInode hnd)) hlive

/-- The new inode is released, while it has no mode. -/
theorem Consistent.drop {S : FileSystem} {E : String → Prop} (hn : s.volume.inode n = none)
    (hv : S.volume = (s.volume.setInode n ⟨false, 1⟩).setCount n 1) (hmode : (S.inode n).mode = 0)
    (hinode : ∀ m, m ≠ n → S.inode m = s.inode m) (hbits : S.device.bits = s.device.bits)
    (hcount : S.device.count = s.device.count) :
    Ends s.Restored E ((S.setLinks n (S.volume.nlinks n - 1)).iput n) := by
  have hone : S.volume.nlinks n - 1 = 0 := by
    rw [hv]
    simp [Volume.setCount, Volume.setInode, Volume.nlinks]
  have hempty : s.volume.entries n = [] := h.volume.noEntries n (by simp [Volume.isDir, hn])
  have hlinks : (S.setLinks n (S.volume.nlinks n - 1)).volume =
      ((s.volume.setInode n ⟨false, 1⟩).setCount n 1).setLinks n 0 := by
    rw [hone, ← hv]
    rfl
  rw [iput_new hlinks hmode hn hempty (h.free n hn)]
  refine .pure ⟨rfl, fun m hm => ?_, hbits, hcount⟩
  have hmn : m ≠ n := by
    rintro rfl
    exact hm hn
  exact (Function.update_of_ne hmn ..).trans (hinode m hmn)

omit h in
theorem noRoom_atAdd {z : ℕ} {v : Volume} {device : Device} {mode umask : UInt16} (hnd : d ≠ n)
    (hv : v.entries = s.volume.entries) :
    (s.atAdd v d n z device mode umask).NoRoom e d device ↔ s.NoRoom e d device := by
  have hentries : (s.atAdd v d n z device mode umask).volume.entries d = s.volume.entries d :=
    (Function.update_of_ne hnd ..).trans (congrFun hv d)
  have hinode : (s.atAdd v d n z device mode umask).inode d = s.inode d := by
    simp [atAdd, setInode, setVolume, setDevice, hnd]
  rw [NoRoom, NoRoom, hentries, hinode]

theorem Consistent.noRoom_panics {z : ℕ} {device : Device} {mode umask : UInt16}
    (hn : s.volume.inode n = none) (hd : s.volume.isDir d = true) (hz : z ≠ 0)
    (hfirst : device.First) (hcount : device.count z = 0) (hroom : s.NoRoom e d device) :
    ∃ msg, ((s.atAdd (((s.volume.hold d).setInode n ⟨false, 1⟩).setCount n 1) d n z device mode
      umask).addEntry e d name n >>= afterAdd d n z) = .error msg := by
  have hnd : d ≠ n := by
    rintro rfl
    exact Volume.inode_of_isDir hd hn
  have hentries : (((s.volume.hold d).setInode n ⟨false, 1⟩).setCount n 1).entries =
      s.volume.entries := rfl
  have hroom' : (s.atAdd (((s.volume.hold d).setInode n ⟨false, 1⟩).setCount n 1) d n z device mode
      umask).NoRoom e d device := (noRoom_atAdd hnd hentries).2 hroom
  obtain ⟨msg, hadd⟩ | ⟨i, device', hadd, hcount'⟩ := @addEntry_noRoom _ e d n name hfirst hroom'
  · rw [hadd]
    exact ⟨msg, rfl⟩
  rw [hadd]
  have hlive : ((((s.volume.setInode n ⟨false, 1⟩).setCount n 1).setInode n ⟨true, 2⟩).setEntries n
      [⟨n, padName dot⟩, ⟨d, padName dotDot⟩]).nlinks d ≠ 0 := by
    simpa [Volume.setCount, Volume.setInode, Volume.setEntries, Volume.nlinks, hnd] using
      h.volume.nlinks_dir hd
  refine afterAdd_panics (v := (((s.volume.setInode n ⟨false, 1⟩).setCount n 1).setInode n
    ⟨true, 2⟩).setEntries n [⟨n, padName dot⟩, ⟨d, padName dotDot⟩]) ?_ hlive ?_ ?_ ?_ hz ?_
  · change ((Volume.setCount _ n 1).setInode n _).setEntries n _ = _
    rw [Volume.hold_newInode hnd]
    rfl
  · exact Function.update_self ..
  · simp [atAdd, setInode, setVolume, setDevice, Ne.symm hnd, dirMode_isDir]
  · simp [atAdd, setInode, setVolume, setDevice, Ne.symm hnd, Inode.setZone]
  · exact (congrFun hcount' z).trans hcount

theorem Consistent.mkdirEntry (hroot : s.volume.count e.root ≠ 0) (hpwd : s.volume.count e.pwd ≠ 0)
    (pathname : List UInt8) (mode umask : UInt16) :
    Ends (fun r => (∃ errno, r.1 = .inl errno ∧ s.Restored r.2) ∨ ∃ made, r.1 = .inr made)
      (fun _ => s.MkdirAddFails e pathname) (s.mkdirEntry e pathname mode umask) := by
  unfold FileSystem.mkdirEntry
  refine Ends.ite (fun _ => .pure (.inl ⟨_, rfl, .refl s⟩)) fun hsuser => ?_
  have hlookup := h.volume.dirNamei_ends (e := e) pathname
  cases hfound : s.volume.dirNamei e pathname with
  | error msg =>
      rw [hfound] at hlookup
      exact (hlookup.elim hroot hpwd).elim
  | ok r =>
      rw [hfound] at hlookup
      rcases hlookup with rfl | ⟨d, name, rfl, hd⟩
      · exact .pure (.inl ⟨_, rfl, .refl s⟩)
      have hdir := h.volume.nlinks_dir hd
      have hrefuse : ∀ errno : ℤ, Ends (fun r : (ℤ ⊕ ℕ × ℕ) × FileSystem =>
          (∃ errno, r.1 = .inl errno ∧ s.Restored r.2) ∨ ∃ made, r.1 = .inr made)
          (fun _ => s.MkdirAddFails e pathname)
          ((s.setVolume (s.volume.hold d)).iput d >>= fun s => pure (.inl (-errno), s)) := by
        intro errno
        rw [iput_held rfl hdir]
        exact .pure (.inl ⟨_, rfl, .refl s⟩)
      change Ends _ _ (ite _ _ _)
      refine Ends.ite (fun _ => hrefuse _) fun hname => .ite (fun _ => hrefuse _) fun hwrite => ?_
      split
      next => exact hrefuse _
      next hfresh =>
        split
        next => exact hrefuse _
        next n v hnew =>
          obtain ⟨hn, hpos, hle, rfl⟩ := h.volume.hold.newInode_some hnew
          obtain ⟨z, device, hblock, halloc, hfull, hbits⟩ :=
            Device.newBlock_padded h.mounted h.idle h.padded
          refine Ends.bind (P := fun r => r = (z, device)) ?_ fun r hr => ?_
          · change Ends _ _ s.device.newBlock
            rw [hblock]
            exact .pure rfl
          subst hr
          refine Ends.ite (fun hz => ?_) fun hz => ?_
          · rw [h.release hn hd rfl]
            have hsame : device = s.device := hfull hz
            refine (h.drop hn rfl ?_ (fun m hm => ?_) ?_ ?_).bind fun T hT =>
              .pure (.inl ⟨_, rfl, hT⟩)
            · simp [setVolume, setDevice, setInode, noInode]
            · exact Function.update_of_ne hm ..
            · rw [← hsame]
              rfl
            · rw [← hsame]
              rfl
          · refine Ends.ite (fun _ => ?_) fun hreadable => ?_
            · rw [h.release hn hd rfl]
              have hcount := h.idle z (halloc.fresh hz).1
              obtain ⟨device', hfree, hbits', hcount'⟩ :=
                Device.freeBlock_newBlock halloc hz (hbits hz) hcount
              refine Ends.bind (P := fun r => r = device') ?_ fun r hr => ?_
              · change Ends _ _ (device.freeBlock z)
                rw [hfree]
                exact .pure rfl
              subst hr
              refine (h.drop hn rfl ?_ (fun m hm => ?_) hbits' hcount').bind fun T hT =>
                .pure (.inl ⟨_, rfl, hT⟩)
              · simp [setVolume, setDevice, setInode, noInode, Inode.setZone]
              · simp [setVolume, setDevice, setInode, hm]
            · have hnd : d ≠ n := by
                rintro rfl
                exact Volume.inode_of_isDir hd hn
              change Ends _ _ ((s.atAdd _ d n z device mode umask).addEntry e d name n >>=
                afterAdd d n z)
              by_cases hroom : s.NoRoom e d device
              · have hcount : device.count z = 0 := by
                  rw [halloc.count]
                  exact h.idle z (halloc.fresh hz).1
                obtain ⟨msg, hpanic⟩ :=
                  @noRoom_panics s e d n name h z device mode umask hn hd hz halloc.mounted.firstSet
                    hcount hroom
                rw [hpanic]
                exact ⟨d, n, z, name, _, _, device, by simpa using hsuser, hfound, hname,
                  Bool.eq_true_of_not_eq_false hwrite, hfresh, hnew, hblock, hz,
                  by simpa using hreadable, hroom⟩
              · have hentries : (((s.volume.hold d).setInode n ⟨false, 1⟩).setCount n 1).entries =
                    s.volume.entries := rfl
                have hroom' : ¬(s.atAdd (((s.volume.hold d).setInode n ⟨false, 1⟩).setCount n 1)
                    d n z device mode umask).NoRoom e d device :=
                  mt (noRoom_atAdd hnd hentries).1 hroom
                have hname' : name.take NAME_LEN ≠ [] := by
                  simpa [NAME_LEN] using hname
                obtain ⟨s', hadd⟩ := @addEntry_room _ e d n name hroom' hname'
                rw [hadd]
                exact .pure (.inr ⟨_, rfl⟩)

/-- Whatever `sys_mkdir` returns as an error, it has left everything as it was. -/
theorem Consistent.sysMkdir (hroot : s.volume.count e.root ≠ 0) (hpwd : s.volume.count e.pwd ≠ 0)
    {pathname : List UInt8} {mode umask : UInt16} {r : ℤ}
    (hrun : s.sysMkdir e pathname mode umask = .ok (r, s')) (hr : r ≠ 0) : s.Restored s' := by
  have hends := h.mkdirEntry hroot hpwd pathname mode umask
  unfold FileSystem.sysMkdir at hrun
  cases hentry : s.mkdirEntry e pathname mode umask with
  | error msg =>
      rw [hentry] at hrun
      cases hrun
  | ok res =>
      obtain ⟨res, t⟩ := res
      rw [hentry] at hends hrun
      rcases hends with ⟨errno, rfl, ht⟩ | ⟨made, rfl⟩
      · cases hrun
        exact ht
      · obtain ⟨d, n⟩ := made
        change ((t.setLinks d (t.volume.nlinks d + 1)).iput d >>= fun s => s.iput n >>= fun s =>
          pure (0, s)) = _ at hrun
        cases hput : (t.setLinks d (t.volume.nlinks d + 1)).iput d with
        | error msg =>
            rw [hput] at hrun
            cases hrun
        | ok u =>
            rw [hput] at hrun
            change (u.iput n >>= fun s => pure (0, s)) = _ at hrun
            cases hput' : u.iput n with
            | error msg =>
                rw [hput'] at hrun
                cases hrun
            | ok u' =>
                rw [hput'] at hrun
                cases hrun
                exact absurd rfl hr

end Exits

end FileSystem

end MyJavaExample.Fs
