import MyJavaExample.Vfs.Contiguous

/-!
# Calls that name an unreadable disk file

`addDiskFile` returns where it catches an `IOException`, but by then the chunks
before the bad byte have been appended to `myvfs`.  `updateDiskFile` prints the
exception and goes on with an array of zeros, of the length that the disk file
still has: 0 if it is missing.  What then keeps the state as it was is that the
stored bytes are those zeros already, or that an array index is out of bounds
before anything is written (`Fits`).

The state is any state here, contiguous or not.
-/

namespace MyJavaExample.Vfs

open Java Lib

/-! ## Unreadable files -/

namespace DiskFile

/-- The disk file is missing, cannot be opened, or fails while it is read. -/
def Fails : DiskFile → Prop
  | missing => True
  | unopenable _ => True
  | damaged content bad => bad < content.length
  | readable _ => False

/-- The disk file fails before the first chunk has been read. -/
def FailsAtOnce : DiskFile → Prop
  | missing => True
  | unopenable _ => True
  | damaged _ bad => bad < 1024
  | readable _ => False

/-- A read of the whole length delivers that many bytes. -/
theorem readAt_length {file : DiskFile} {n : ℕ} {bs : List UInt8} (hn : n ≤ file.length)
    (h : file.readAt 0 n = some bs) : bs.length = n := by
  cases file with
  | missing => cases h
  | unopenable length => cases h
  | damaged content bad =>
      rw [readAt] at h
      split at h
      · cases h
      · cases h
        rw [List.drop_zero, List.length_take_of_le hn]
  | readable content =>
      cases h
      rw [List.drop_zero, List.length_take_of_le hn]

end DiskFile

/-! ## `addDiskFile` -/

section Add

variable {content : List UInt8} {bad : ℕ}

theorem appendLoop_step {file : DiskFile} {fuel pos : ℕ} {bs : List UInt8}
    (h : file.readAt pos 1024 = some bs) (hbs : bs ≠ []) (myvfs : List UInt8) :
    appendLoop (fuel + 1) file pos myvfs = appendLoop fuel file (pos + bs.length) (myvfs ++ bs) := by
  rw [appendLoop, h]
  cases bs with
  | nil => exact absurd rfl hbs
  | cons b bs => rfl

/-- The chunks before the one with the bad byte are appended. -/
theorem appendLoop_damaged (hbad : bad < content.length) {fuel k : ℕ} (hk : k * 1024 ≤ bad)
    (hfuel : content.length < fuel + k * 1024) (myvfs : List UInt8) :
    appendLoop fuel (.damaged content bad) (k * 1024) myvfs =
      (false, myvfs ++ (content.drop (k * 1024)).take ((bad / 1024 - k) * 1024)) := by
  induction fuel generalizing k myvfs with
  | zero => omega
  | succ fuel ih =>
      by_cases hchunk : bad < (k + 1) * 1024
      · have hzero : (bad / 1024 - k) * 1024 = 0 := by omega
        have hread : (DiskFile.damaged content bad).readAt (k * 1024) 1024 = none :=
          if_pos ⟨hk, by rw [List.length_take, List.length_drop]; omega⟩
        rw [appendLoop, hread, hzero, List.take_zero, List.append_nil]
      · clear hk
        have hsplit : (bad / 1024 - k) * 1024 = 1024 + (bad / 1024 - (k + 1)) * 1024 := by omega
        have hrest := @ih (k + 1) (by omega) (by omega)
        have hfull : ((content.drop (k * 1024)).take 1024).length = 1024 := by
          rw [List.length_take, List.length_drop]
          omega
        have hread : (DiskFile.damaged content bad).readAt (k * 1024) 1024 =
            some ((content.drop (k * 1024)).take 1024) :=
          if_neg (by rw [hfull]; omega)
        have hbs : (content.drop (k * 1024)).take 1024 ≠ [] :=
          List.ne_nil_of_length_pos (by rw [hfull]; exact Nat.zero_lt_succ 1023)
        have hnext : k * 1024 + 1024 = (k + 1) * 1024 := (Nat.succ_mul k 1024).symm
        rw [appendLoop_step hread hbs, hfull, hnext, hrest, hsplit, List.take_add, List.drop_drop,
          hnext, List.append_assoc]

theorem addDiskFile_damaged (filename : Name) (s : VFS) (hbad : bad < content.length) :
    addDiskFile filename (.damaged content bad) s =
      (.ok (), { s with myvfs := s.myvfs ++ content.take (bad / 1024 * 1024) }) := by
  have hloop := @appendLoop_damaged content bad hbad (content.length + 1) 0 (by omega) (by omega)
    s.myvfs
  rw [Nat.zero_mul, List.drop_zero, Nat.sub_zero] at hloop
  unfold addDiskFile
  simp only [DiskFile.length, hloop]

theorem addDiskFile_unchanged_iff {filename : Name} {file : DiskFile} {s : VFS}
    (hfails : file.Fails) : (addDiskFile filename file s).2 = s ↔ file.FailsAtOnce := by
  cases file with
  | missing => exact iff_of_true rfl trivial
  | unopenable length => exact iff_of_true rfl trivial
  | damaged content bad =>
      have hbad : bad < content.length := hfails
      rw [addDiskFile_damaged filename s hbad, DiskFile.FailsAtOnce]
      constructor
      · intro h
        have hlen := congrArg (fun s => s.myvfs.length) h
        simp only [List.length_append, List.length_take] at hlen
        omega
      · intro h
        have hzero : bad / 1024 * 1024 = 0 := by omega
        rw [hzero, List.take_zero, List.append_nil]
  | readable content => exact hfails.elim

end Add

/-! ## The loops of `updateDiskFile` -/

section Loops

variable {fuel : ℕ} {src : List UInt8} {j stop : ℤ} {dst dst' : List UInt8 × ℕ}

/-- A loop that ends has stayed inside its arrays. -/
theorem copyLoop_bounds (h : copyLoop fuel src j stop dst = .ok dst')
    (hfuel : (stop - j).toNat = fuel) :
    dst'.2 = dst.2 + fuel ∧
      (0 < fuel → 0 ≤ j ∧ stop ≤ src.length ∧ dst.2 + fuel ≤ dst.1.length) := by
  induction fuel generalizing j dst with
  | zero =>
      cases h
      exact ⟨rfl, fun h => absurd h (Nat.lt_irrefl 0)⟩
  | succ fuel ih =>
      obtain ⟨data3, i⟩ := dst
      rw [copyLoop, if_pos (by omega)] at h
      split at h
      next hin =>
        obtain ⟨hend, hrest⟩ := ih h (by omega)
        simp only [List.length_set] at hend hrest
        refine ⟨by simp only; omega, fun _ => ⟨hin.1, ?_, ?_⟩⟩
        · by_cases hfuel : 0 < fuel
          · exact (hrest hfuel).2.1
          · omega
        · by_cases hfuel : 0 < fuel
          · have := (hrest hfuel).2.2
            simp only
            omega
          · simp only
            omega
      next => cases h

/-- A loop inside its arrays ends. -/
theorem copyLoop_ok (hfuel : (stop - j).toNat = fuel)
    (hin : 0 < fuel → 0 ≤ j ∧ stop ≤ src.length ∧ dst.2 + fuel ≤ dst.1.length) :
    ∃ dst', copyLoop fuel src j stop dst = .ok dst' := by
  induction fuel generalizing j dst with
  | zero => exact ⟨dst, rfl⟩
  | succ fuel ih =>
      obtain ⟨data3, i⟩ := dst
      obtain ⟨hj, hstop, hdst⟩ := hin (Nat.succ_pos fuel)
      simp only at hdst
      rw [copyLoop, if_pos (by omega), if_pos ⟨hj, by omega, by omega⟩]
      refine ih (by omega) fun _ => ⟨by omega, hstop, ?_⟩
      simp only [List.length_set]
      omega

end Loops

/-- The arrays of `updateDiskFile` can be allocated and its three loops stay
inside them.  `len2` and `len` are the lengths of `myvfs` and of the disk file,
and `off` and `mlen` are the fields of the model. -/
structure Fits (len2 len off mlen : ℤ) : Prop where
  old : 0 ≤ len2
  data : 0 ≤ len
  new : 0 ≤ toInt32 (len2 - mlen + len)
  before : 0 < off → off ≤ len2 ∧ off ≤ toInt32 (len2 - mlen + len)
  middle : 0 < len → off.toNat + len ≤ toInt32 (len2 - mlen + len)
  after : toInt32 (off + mlen) < len2 → 0 ≤ toInt32 (off + mlen) ∧
    off.toNat + len + (len2 - toInt32 (off + mlen)) ≤ toInt32 (len2 - mlen + len)

theorem spliceLoops_ok_iff {data2 data : List UInt8} {off mlen len len2 : ℤ}
    (hold : 0 ≤ len2) (hlen : 0 ≤ len) (hnew : 0 ≤ toInt32 (len2 - mlen + len))
    (hdata2 : data2.length = len2) (hdata : data.length = len) :
    (∃ bs, spliceLoops data2 data off mlen len len2 (toInt32 (len2 - mlen + len)) = .ok bs) ↔
      Fits len2 len off mlen := by
  constructor
  · rintro ⟨bs, h⟩
    obtain ⟨dst₁, h₁, h⟩ := bind_eq_ok h
    obtain ⟨dst₂, h₂, h⟩ := bind_eq_ok h
    obtain ⟨dst₃, h₃, -⟩ := bind_eq_ok h
    obtain ⟨hend₁, hin₁⟩ := copyLoop_bounds h₁ (by omega)
    obtain ⟨hend₂, hin₂⟩ := copyLoop_bounds h₂ (by omega)
    obtain ⟨-, hin₃⟩ := copyLoop_bounds h₃ rfl
    have hlen₁ := copyLoop_length h₁
    have hlen₂ := copyLoop_length h₂
    simp only [List.length_replicate] at hlen₁ hin₁ hend₁
    refine ⟨hold, hlen, hnew, fun hoff => ?_, fun hpos => ?_, fun hstart => ?_⟩
    · have := hin₁ (by omega)
      omega
    · have := hin₂ (by omega)
      omega
    · have := hin₃ (by omega)
      omega
  · intro h
    obtain ⟨dst₁, h₁⟩ := @copyLoop_ok off.toNat data2 0 off
      (List.replicate (toInt32 (len2 - mlen + len)).toNat 0, 0) (by omega) (by
        intro hpos
        have := h.before (by omega)
        simp only [List.length_replicate]
        omega)
    have hend₁ := (copyLoop_bounds h₁ (by omega)).1
    have hlen₁ := copyLoop_length h₁
    simp only [List.length_replicate] at hlen₁ hend₁
    obtain ⟨dst₂, h₂⟩ := @copyLoop_ok len.toNat data 0 len dst₁ (by omega) (by
        intro hpos
        have := h.middle (by omega)
        omega)
    have hend₂ := (copyLoop_bounds h₂ (by omega)).1
    have hlen₂ := copyLoop_length h₂
    obtain ⟨dst₃, h₃⟩ := @copyLoop_ok (len2 - toInt32 (off + mlen)).toNat data2
      (toInt32 (off + mlen)) len2 dst₂ rfl (by
        intro hpos
        have := h.after (by omega)
        omega)
    refine ⟨dst₃.1, ?_⟩
    unfold spliceLoops
    rw [h₁, ok_bind, h₂, ok_bind]
    simp only [h₃, ok_bind]
    rfl

/-- A length is not smaller than its value as an `int`. -/
theorem toInt32_toNat_le (n : ℕ) : (toInt32 n).toNat ≤ n := by
  unfold toInt32
  omega

/-- A read that is not longer than the file is not short. -/
theorem readAt_any_length {file : DiskFile} {n : ℕ} (hn : n ≤ file.length) :
    ((file.readAt 0 n).map List.length).any (· ≠ n) = false := by
  cases hbs : file.readAt 0 n with
  | none => rfl
  | some bs => simp [DiskFile.readAt_length hn hbs]

/-- The array after a read of `n` bytes whose `IOException` is caught. -/
def DiskFile.data (file : DiskFile) (n : ℕ) : List UInt8 :=
  (file.readAt 0 n).getD (List.replicate n 0)

theorem DiskFile.data_length {file : DiskFile} {n : ℕ} (hn : n ≤ file.length) :
    (file.data n).length = n := by
  unfold data
  cases hbs : file.readAt 0 n with
  | none => exact List.length_replicate
  | some bs => exact readAt_length hn hbs

theorem DiskFile.pad_readAt {file : DiskFile} {n : ℕ} (hn : n ≤ file.length) :
    pad n ((file.readAt 0 n).getD []) = file.data n := by
  unfold data
  cases hbs : file.readAt 0 n with
  | none => simp [pad]
  | some bs => exact pad_eq (readAt_length hn hbs)

/-- What `updateBytes` computes when the arrays can be allocated. -/
theorem updateBytes_loops {myvfs : List UInt8} {off mlen : ℤ} {file : DiskFile}
    (hold : 0 ≤ toInt32 myvfs.length) (hdata : 0 ≤ toInt32 file.length)
    (hnew : 0 ≤ toInt32 (toInt32 myvfs.length - mlen + toInt32 file.length)) :
    updateBytes myvfs off mlen file =
      (spliceLoops (myvfs.take (toInt32 myvfs.length).toNat)
        (file.data (toInt32 file.length).toNat) off mlen (toInt32 file.length) (toInt32 myvfs.length)
        (toInt32 (toInt32 myvfs.length - mlen + toInt32 file.length))).map some := by
  have htake : (myvfs.take (toInt32 myvfs.length).toNat).length =
      (toInt32 myvfs.length).toNat := List.length_take_of_le (toInt32_toNat_le _)
  simp only [updateBytes, readAt_any_length (toInt32_toNat_le file.length)]
  rw [if_neg (Int.not_lt.2 hdata), if_neg Bool.false_ne_true, if_neg (Int.not_lt.2 hold),
    if_neg (not_not_intro htake), if_neg (Int.not_lt.2 hnew), DiskFile.data]

theorem updateBytes_sizes {myvfs bs : List UInt8} {off mlen : ℤ} {file : DiskFile}
    (h : updateBytes myvfs off mlen file = .ok (some bs)) :
    0 ≤ toInt32 myvfs.length ∧ 0 ≤ toInt32 file.length ∧
      0 ≤ toInt32 (toInt32 myvfs.length - mlen + toInt32 file.length) := by
  simp only [updateBytes] at h
  split_ifs at h with h₁ h₂ h₃ h₄ h₅
  · cases h
  · cases h
  · exact ⟨Int.not_lt.1 h₃, Int.not_lt.1 h₁, Int.not_lt.1 h₅⟩

/-- The new bytes are written if and only if everything fits. -/
theorem updateBytes_ok_iff {myvfs : List UInt8} {off mlen : ℤ} {file : DiskFile} :
    (∃ bs, updateBytes myvfs off mlen file = .ok (some bs)) ↔
      Fits (toInt32 myvfs.length) (toInt32 file.length) off mlen := by
  have htake : (myvfs.take (toInt32 myvfs.length).toNat).length = (toInt32 myvfs.length).toNat :=
    List.length_take_of_le (toInt32_toNat_le _)
  have hdata := DiskFile.data_length (toInt32_toNat_le file.length)
  constructor
  · rintro ⟨bs, h⟩
    obtain ⟨hold, hlen, hnew⟩ := updateBytes_sizes h
    rw [updateBytes_loops hold hlen hnew] at h
    obtain ⟨bs', hloops, -⟩ := bind_eq_ok (f := fun bs => .ok (some bs)) h
    exact (spliceLoops_ok_iff hold hlen hnew (by omega) (by omega)).1 ⟨bs', hloops⟩
  · intro h
    obtain ⟨bs, hloops⟩ :=
      (spliceLoops_ok_iff h.old h.data h.new (by rw [htake]; exact Int.toNat_of_nonneg h.old)
        (by rw [hdata]; exact Int.toNat_of_nonneg h.data)).2 h
    exact ⟨bs, by rw [updateBytes_loops h.old h.data h.new, hloops]; rfl⟩

/-! ## `updateDiskFile` -/

/-- `updateDiskFile` writes `myvfs` again: the model is there, the disk file does
not compare equal, and the arrays and loops fit. -/
def Rewrites (filename : Name) (file : DiskFile) (s : VFS) : Prop :=
  ∃ m, s.ml.findModel filename = some m ∧ compareDiskFile filename file s = .ok false ∧
    Fits (toInt32 s.myvfs.length) (toInt32 file.length) (s.ml.heap m).off (s.ml.heap m).len

section Update

variable {filename : Name} {file : DiskFile} {s : VFS} {m : ℕ} {bs : List UInt8}

theorem shiftOff_len (fuel : ℕ) (heap : ℕ → Model) (p : Option ℕ) (d : ℤ) (a : ℕ) :
    (shiftOff fuel heap p d a).len = (heap a).len := by
  induction fuel generalizing heap p with
  | zero => cases p <;> rfl
  | succ fuel ih =>
      cases p with
      | none => rfl
      | some p =>
          rw [shiftOff, ih]
          by_cases ha : a = p
          · subst ha
            simp
          · simp [ha]

theorem updateModel_len (hm : s.ml.findModel filename = some m) (off len : ℤ) :
    ((s.ml.updateModel filename off len).heap m).len = len := by
  rw [ModelList.updateModel, ← ModelList.findModel, hm]
  simp only [shiftOff_len, Function.update_self]

/-- Of a disk file as long as the stored one, `compareDiskFile` compares the
bytes. -/
theorem compareDiskFile_same_length (hm : s.ml.findModel filename = some m)
    (hlen : toInt32 file.length = (s.ml.heap m).len) (hpos : 0 ≤ toInt32 file.length) :
    compareDiskFile filename file s = .ok (file.data (toInt32 file.length).toNat ==
      pad (toInt32 file.length).toNat (if (s.ml.heap m).off < 0 then []
        else (s.myvfs.drop (s.ml.heap m).off.toNat).take (toInt32 file.length).toNat)) := by
  have hpad := DiskFile.pad_readAt (toInt32_toNat_le file.length)
  simp only [compareDiskFile, hm]
  rw [if_neg (not_not_intro hlen), if_neg (Int.not_lt.2 hpos), hpad]

/-- With the same length everything fits only inside `myvfs`. -/
theorem Fits.inside {len2 len off : ℤ} (h : Fits len2 len off len) (hlen2 : len2 < 2 ^ 31)
    (hpos : 0 < len) (hoff : -2 ^ 31 ≤ off) : 0 ≤ off ∧ off + len ≤ len2 := by
  have hnew : toInt32 (len2 - len + len) = len2 := by
    rw [Int.sub_add_cancel]
    exact toInt32_of_range (by have := h.old; omega) hlen2
  obtain ⟨hold, -, -, -, hmiddle, hafter⟩ := h
  rw [hnew] at hmiddle hafter
  have hin := hmiddle hpos
  refine ⟨Int.not_lt.1 fun hneg => ?_, ?_⟩
  · have hstart : toInt32 (off + len) = off + len := toInt32_of_range (by omega) (by omega)
    have := hafter (by omega)
    omega
  · omega

theorem splice_slice {v bs : List UInt8} {off len : ℕ} (h : off + len ≤ v.length)
    (hbs : bs.length = len) : ((splice v off len bs).drop off).take len = bs := by
  have hoff : (v.take off).length = off := List.length_take_of_le (by omega)
  rw [splice, List.append_assoc, List.drop_append_of_le_length hoff.ge,
    List.drop_of_length_le hoff.le, List.nil_append, ← hbs, List.take_left]

/-- The bytes that are written in the place of as many others. -/
theorem updateBytes_same_length {v bs : List UInt8} {off n : ℕ} (hsmall : v.length < 2 ^ 31)
    (hn : toInt32 file.length = n) (hin : off + n ≤ v.length)
    (h : updateBytes v off n file = .ok (some bs)) : bs = splice v off n (file.data n) := by
  have hdata : (file.data n).length = n := by
    have hle := toInt32_toNat_le file.length
    rw [hn, Int.toNat_natCast] at hle
    exact DiskFile.data_length hle
  have hloops := @spliceLoops_eq v (file.data n) off n hsmall hin
  obtain ⟨hold, hlen, hnew⟩ := updateBytes_sizes h
  rw [updateBytes_loops hold hlen hnew, hn, toInt32_length hsmall, Int.sub_add_cancel,
    toInt32_length hsmall] at h
  rw [hdata, Nat.sub_add_cancel (by omega)] at hloops
  simp only [Int.toNat_natCast, List.take_length, hloops] at h
  cases h
  rfl

/-- What is written differs from what was there. -/
theorem updateBytes_ne (hm : s.ml.findModel filename = some m)
    (hint : toInt32 (s.ml.heap m).off = (s.ml.heap m).off)
    (hlen : toInt32 file.length = (s.ml.heap m).len)
    (hcompare : compareDiskFile filename file s = .ok false)
    (hbytes : updateBytes s.myvfs (s.ml.heap m).off (s.ml.heap m).len file = .ok (some bs)) :
    bs ≠ s.myvfs := by
  rintro rfl
  have hfits := updateBytes_ok_iff.1 ⟨_, hbytes⟩
  have hsmall := updateBytes_length hbytes
  obtain ⟨n, hn⟩ := Int.eq_ofNat_of_zero_le hfits.data
  have hlower := toInt32_lower (s.ml.heap m).off
  rw [compareDiskFile_same_length hm hlen hfits.data, hn, Int.toNat_natCast] at hcompare
  rw [← hlen, hn] at hfits hbytes
  rw [toInt32_length hsmall] at hfits
  have hle : n ≤ file.length := by
    have hle := toInt32_toNat_le file.length
    rwa [hn, Int.toNat_natCast] at hle
  have hdata := DiskFile.data_length hle
  rcases Nat.eq_zero_or_pos n with rfl | hpos
  · rw [List.length_eq_zero_iff.1 hdata] at hcompare
    split at hcompare <;> simp [pad] at hcompare
  · obtain ⟨hoff, hin⟩ := hfits.inside (by omega) (by omega) (by omega)
    obtain ⟨off, hoff'⟩ := Int.eq_ofNat_of_zero_le hoff
    rw [hoff'] at hcompare hbytes hin
    have hslice : (s.myvfs.drop off).take n = file.data n := by
      rw [updateBytes_same_length hsmall hn (by omega) hbytes]
      exact splice_slice (by omega) hdata
    rw [if_neg (by omega), Int.toNat_natCast, hslice, pad_eq hdata, beq_self_eq_true] at hcompare
    cases hcompare

/-- `updateDiskFile` leaves the state as it was if and only if it does not write
`myvfs` again. -/
theorem updateDiskFile_unchanged_iff (filename : Name) (file : DiskFile)
    (hint : ∀ m, s.ml.findModel filename = some m →
      toInt32 (s.ml.heap m).off = (s.ml.heap m).off) :
    (updateDiskFile filename file s).2 = s ↔ ¬Rewrites filename file s := by
  constructor
  · rintro h ⟨m, hm, hcompare, hfits⟩
    obtain ⟨bs, hbytes⟩ := updateBytes_ok_iff.2 hfits
    rw [updateDiskFile_ok hm hcompare hbytes] at h
    have hlen : toInt32 file.length = (s.ml.heap m).len := by
      have hml := congrArg (fun s => (s.ml.heap m).len) h
      simp only [updateModel_len hm] at hml
      exact hml
    exact updateBytes_ne hm (hint m hm) hlen hcompare hbytes (congrArg VFS.myvfs h)
  · intro h
    refine updateDiskFile_unchanged fun m bs hm hcompare hbytes => h ⟨m, hm, hcompare, ?_⟩
    exact updateBytes_ok_iff.1 ⟨bs, hbytes⟩

end Update

/-- A call that names an unreadable disk file leaves the state as it was if and
only if the file fails before anything is appended, and the update does not
write `myvfs` again.  The offset of a model is an `int`. -/
theorem failed_unchanged_iff {filename : Name} {file : DiskFile} {s : VFS} (hfails : file.Fails)
    (hint : ∀ m, s.ml.findModel filename = some m →
      toInt32 (s.ml.heap m).off = (s.ml.heap m).off) :
    ((addDiskFile filename file s).2 = s ↔ file.FailsAtOnce) ∧
      ((updateDiskFile filename file s).2 = s ↔ ¬Rewrites filename file s) :=
  ⟨addDiskFile_unchanged_iff hfails, updateDiskFile_unchanged_iff filename file hint⟩

theorem unopenable_unchanged :
    ((addDiskFile ['a'] (.unopenable 1) (oneFile [0])).2 = oneFile [0] ↔
        (DiskFile.unopenable 1).FailsAtOnce) ∧
      ((updateDiskFile ['a'] (.unopenable 1) (oneFile [0])).2 = oneFile [0] ↔
        ¬Rewrites ['a'] (.unopenable 1) (oneFile [0])) := by
  refine failed_unchanged_iff trivial fun m hm => ?_
  have hsmall : ([0] : List UInt8).length < 2 ^ 31 := by decide
  obtain ⟨m', hm', hoff, -⟩ := (oneFile_found hsmall).find_some (oneFile_stored hsmall).wf
  obtain rfl : m = m' := Option.some.inj (hm.symm.trans hm')
  rw [hoff]
  rfl

/-- An update with a missing disk file empties the stored one. -/
theorem missing_empties :
    DiskFile.missing.Fails ∧ (oneFile [1]).myvfs = [1] ∧
      (updateDiskFile ['a'] .missing (oneFile [1])).2.myvfs = [] :=
  ⟨trivial, by decide, by decide⟩

end MyJavaExample.Vfs
