import MyJavaExample.Lib.Outcome
import MyJavaExample.Vfs.MyVFS

/-!
# The byte loops

What the loops of `MyVFS` do to the bytes of `myvfs`, for files below `2 ^ 31`
bytes.  The loops of `deleteDiskFile` count in steps of 1024 in an `int`: for a
file of more than `2 ^ 31 - 1024` bytes the counter overflows before the loop
ends, and the next `read` throws (`deleteBytes_overflow`).
-/

namespace MyJavaExample.Vfs

open Java Lib

/-! ## Appending -/

theorem appendLoop_readable {content : List UInt8} {fuel pos : ℕ} (h : content.length < fuel + pos)
    (myvfs : List UInt8) :
    appendLoop fuel (.readable content) pos myvfs = (true, myvfs ++ content.drop pos) := by
  induction fuel generalizing pos myvfs with
  | zero =>
      rw [Nat.zero_add] at h
      rw [List.drop_of_length_le h.le, List.append_nil, appendLoop]
  | succ fuel ih =>
      rw [appendLoop, DiskFile.readAt]
      cases hbs : (content.drop pos).take 1024 with
      | nil =>
          have hnil : content.drop pos = [] := by simpa using hbs
          simp [hnil]
      | cons b bs =>
          have hpre := List.prefix_iff_eq_append.1 (List.take_prefix 1024 (content.drop pos))
          rw [hbs, List.drop_drop] at hpre
          simp only
          rw [ih (by rw [List.length_cons]; omega), List.append_assoc, hpre]

/-- The entry that `addDiskFile` makes for a readable file. -/
def newEntry (s : VFS) (filename : Name) (content : List UInt8) : Entry :=
  ⟨filename, toInt32 (((s.myvfs ++ content).length : ℤ) - content.length), toInt32 content.length⟩

theorem addDiskFile_readable {s : VFS} {filename : Name} {content : List UInt8} {ml : ModelList}
    (h : s.ml.addModel filename (newEntry s filename content).off (newEntry s filename content).len =
      .ok ml) :
    addDiskFile filename (.readable content) s =
      (.ok (), { myvfs := s.myvfs ++ content
                 record := s.record ++ (newEntry s filename content).line
                 ml := ml }) := by
  have hloop := appendLoop_readable (show content.length < content.length + 1 + 0 by omega) s.myvfs
  rw [List.drop_zero] at hloop
  simp only [newEntry] at h ⊢
  simp only [addDiskFile, DiskFile.length, hloop, h]

/-! ## Deleting -/

theorem toInt32_next {n : ℕ} (h : n + 1024 < 2 ^ 31) :
    toInt32 ((n : ℤ) + 1024) = ((n + 1024 : ℕ) : ℤ) := by
  rw [toInt32_of_range (by omega) (by omega)]
  omega

/-- The bytes a turn asks for when nothing overflows. -/
theorem chunk_eq {len n : ℕ} (hn : n < len) (hlen : len < 2 ^ 31) :
    chunk len n = (min 1024 (len - n) : ℕ) := by
  have hrange : toInt32 ((len : ℤ) - n) = (len : ℤ) - n := toInt32_of_range (by omega) (by omega)
  rw [chunk, hrange]
  split <;> omega

theorem overwrite_append (x y bs : List UInt8) :
    overwrite (x ++ y) x.length bs = x ++ bs ++ y.drop bs.length := by
  rw [overwrite, List.take_left, List.drop_append, List.drop_of_length_le (Nat.le_add_right _ _),
    Nat.add_sub_cancel_left]
  rfl

/-- The turn of a loop that starts at `n` is within the data. -/
theorem chunk_inside {len n : ℕ} (hn : n < len) (hlen : len < 2 ^ 31) :
    ¬((n : ℤ) < 0 ∨ chunk len n < 0 ∨ chunk len n > (len : ℤ) - n) := by
  rw [chunk_eq hn hlen]
  omega

/-- The data after the first `n` bytes of `v` were read. -/
def readUpTo (v : List UInt8) (n : ℕ) : List UInt8 := v.take n ++ List.replicate (v.length - n) 0

theorem readUpTo_length (v : List UInt8) (n : ℕ) : (readUpTo v n).length = v.length := by
  simp [readUpTo]
  omega

theorem readUpTo_step {v : List UInt8} {n : ℕ} (hn : n < v.length) :
    overwrite (readUpTo v n) n ((v.drop n).take (min 1024 (v.length - n))) =
      readUpTo v (n + 1024) := by
  have hx : (v.take n).length = n := List.length_take_of_le hn.le
  have hbs : ((v.drop n).take (min 1024 (v.length - n))).length = min 1024 (v.length - n) := by
    rw [List.length_take, List.length_drop]
    omega
  have hover := overwrite_append (v.take n) (List.replicate (v.length - n) 0)
    ((v.drop n).take (min 1024 (v.length - n)))
  rw [hx, hbs, ← List.take_add, List.drop_replicate] at hover
  have hlen : v.length - n - min 1024 (v.length - n) = v.length - (n + 1024) := by omega
  have htake : v.take (n + min 1024 (v.length - n)) = v.take (n + 1024) :=
    List.take_eq_take_iff.2 (by omega)
  rw [readUpTo, hover, hlen, htake, readUpTo]

/-- The reading loop fills the data when its counter does not overflow. -/
theorem readLoop_eq {v : List UInt8} (hv : v.length ≤ 2 ^ 31 - 1024) {fuel n : ℕ}
    (hfuel : v.length ≤ n + fuel * 1024) :
    readLoop fuel (readUpTo v n) (v.drop n) n v.length = .ok v := by
  have hdone : ∀ {n}, v.length ≤ n → readUpTo v n = v := by
    intro n hn
    rw [readUpTo, List.take_of_length_le hn, Nat.sub_eq_zero_of_le hn, List.replicate_zero,
      List.append_nil]
  induction fuel generalizing n with
  | zero => rw [readLoop, hdone (by omega)]
  | succ fuel ih =>
      rw [readLoop]
      rcases Nat.lt_or_ge n v.length with hn | hn
      · have hdrop : (v.drop n).drop (min 1024 (v.length - n)) = v.drop (n + 1024) := by
          rw [List.drop_drop]
          rcases Nat.le_total 1024 (v.length - n) with h | h
          · rw [Nat.min_eq_left h]
          · have hend : v.length ≤ n + 1024 := by omega
            rw [List.drop_of_length_le hend, Nat.min_eq_right h, Nat.add_sub_cancel' hn.le,
              List.drop_length]
        have hlen : v.length < 2 ^ 31 := by omega
        have hnext : n + 1024 < 2 ^ 31 := by omega
        rw [if_pos (Int.ofNat_lt.2 hn), readUpTo_length, if_neg (chunk_inside hn hlen),
          chunk_eq hn hlen, Int.toNat_natCast, Int.toNat_natCast, readUpTo_step hn, hdrop,
          toInt32_next hnext]
        exact ih (n := n + 1024) (by omega)
      · rw [if_neg (by omega), hdone hn]

theorem overwrite_length {data bs : List UInt8} {i : ℕ} (h : i + bs.length ≤ data.length) :
    (overwrite data i bs).length = data.length := by
  simp only [overwrite, List.length_append, List.length_take, List.length_drop]
  omega

/-- The reading loop throws when its counter overflows: at the turn `j` turns
before `2 ^ 31` the file has not been read to its end. -/
theorem readLoop_overflow {len : ℕ} (hlow : 2 ^ 31 - 1024 < len) (hlen : len < 2 ^ 31) {fuel j n : ℕ}
    (hn : n + (j + 1) * 1024 = 2 ^ 31) (hfuel : j + 2 ≤ fuel) {data : List UInt8}
    (hdata : data.length = len) (rest : List UInt8) :
    readLoop fuel data rest n len = .error .indexOutOfBounds := by
  induction j generalizing fuel n data rest with
  | zero =>
      obtain ⟨fuel, rfl⟩ := Nat.exists_eq_add_of_le' hfuel
      have hwrap : toInt32 ((n : ℤ) + 1024) = -2 ^ 31 := by
        unfold toInt32
        omega
      rw [readLoop, if_pos (by omega), hdata, if_neg (chunk_inside (by omega) hlen), hwrap, readLoop,
        if_pos (by omega), if_pos (.inl (by omega))]
  | succ j ih =>
      obtain ⟨fuel, rfl⟩ : ∃ k, fuel = k + 1 := ⟨fuel - 1, by omega⟩
      have hlt : n < len := by omega
      have hnext : n + 1024 < 2 ^ 31 := by omega
      have hn' : n + 1024 + (j + 1) * 1024 = 2 ^ 31 := by omega
      rw [readLoop, if_pos (Int.ofNat_lt.2 hlt), hdata, if_neg (chunk_inside hlt hlen),
        toInt32_next hnext, chunk_eq hlt hlen]
      refine ih hn' (Nat.le_of_succ_le_succ hfuel) ?_ _
      rw [Int.toNat_natCast, Int.toNat_natCast, overwrite_length, hdata]
      rw [List.length_take, hdata]
      omega

/-- The bytes `v` without those from `off` to `off + len`. -/
def cut (v : List UInt8) (off len : ℕ) : List UInt8 := v.take off ++ v.drop (off + len)

theorem cut_length {v : List UInt8} {off len : ℕ} (h : off + len ≤ v.length) :
    (cut v off len).length = v.length - len := by
  simp only [cut, List.length_append, List.length_take, List.length_drop]
  omega

theorem cut_getElem? {v : List UInt8} {off len i : ℕ} (h : off + len ≤ v.length) (hoff : off ≤ i) :
    (cut v off len)[i]? = v[i + len]? := by
  have htake : (v.take off).length = off := List.length_take_of_le (by omega)
  rw [cut, List.getElem?_append_right (by omega), htake, List.getElem?_drop]
  congr 1
  omega

/-- The data after the moving loop has come to `i`. -/
def movedUpTo (v : List UInt8) (off len i : ℕ) : List UInt8 := (cut v off len).take i ++ v.drop i

theorem movedUpTo_length {v : List UInt8} {off len i : ℕ} (h : off + len ≤ v.length)
    (hi : i + len ≤ v.length) : (movedUpTo v off len i).length = v.length := by
  rw [movedUpTo, List.length_append, List.length_take_of_le (by rw [cut_length h]; omega),
    List.length_drop]
  omega

theorem movedUpTo_step {v : List UInt8} {off len i : ℕ} (h : off + len ≤ v.length) (hoff : off ≤ i)
    (hi : i + len < v.length) :
    (movedUpTo v off len i).set i ((movedUpTo v off len i).getD (i + len) 0) =
      movedUpTo v off len (i + 1) := by
  have htake : ((cut v off len).take i).length = i :=
    List.length_take_of_le (by rw [cut_length h]; omega)
  have hget : (movedUpTo v off len i)[i + len]? = v[i + len]? := by
    rw [movedUpTo, List.getElem?_append_right (by omega), htake, List.getElem?_drop]
    congr 1
    omega
  have hcut : (cut v off len)[i]? = some v[i + len] := by
    rw [cut_getElem? h hoff, List.getElem?_eq_getElem hi]
  rw [List.getD_eq_getElem?_getD, hget, List.getElem?_eq_getElem hi, Option.getD_some, movedUpTo,
    List.set_append_right _ _ (by omega), htake, Nat.sub_self, movedUpTo, List.take_add_one, hcut,
    List.drop_eq_getElem_cons (show i < v.length by omega), List.set_cons_zero]
  simp

/-- The moving loop closes the gap. -/
theorem moveLoop_eq {v : List UInt8} (hv : v.length < 2 ^ 31) {off len : ℕ}
    (h : off + len ≤ v.length) {fuel i : ℕ} (hoff : off ≤ i) (hi : i + len ≤ v.length)
    (hfuel : v.length = i + len + fuel) :
    moveLoop fuel (movedUpTo v off len i) i len (v.length - len) =
      .ok (movedUpTo v off len (v.length - len)) := by
  induction fuel generalizing i with
  | zero =>
      obtain rfl : i = v.length - len := by omega
      rfl
  | succ fuel ih =>
      have hj : toInt32 ((i : ℤ) + len) = (i + len : ℕ) := by
        rw [toInt32_of_range (by omega) (by omega)]
        omega
      have hnext : toInt32 ((i : ℤ) + 1) = (i + 1 : ℕ) := by
        rw [toInt32_of_range (by omega) (by omega)]
        omega
      rw [moveLoop, if_pos (by omega)]
      simp only [hj, hnext, movedUpTo_length h hi, Int.toNat_natCast]
      rw [if_pos (by omega), movedUpTo_step h hoff (by omega)]
      exact ih (by omega) (by omega) (by omega)

/-- The writing loop writes the first `len` bytes when its counter does not
overflow. -/
theorem writeLoop_eq {data : List UInt8} {len : ℕ} (hlen : len ≤ 2 ^ 31 - 1024)
    (hdata : len ≤ data.length) {fuel n : ℕ} (hfuel : len ≤ n + fuel * 1024) :
    writeLoop fuel data n len (data.take (min n len)) = (.ok (), data.take len) := by
  induction fuel generalizing n with
  | zero => rw [writeLoop, Nat.min_eq_right (by omega)]
  | succ fuel ih =>
      rw [writeLoop]
      rcases Nat.lt_or_ge n len with hn | hn
      · have hnext := toInt32_next (show n + 1024 < 2 ^ 31 by omega)
        have hinside : ¬((n : ℤ) < 0 ∨ chunk len n < 0 ∨ chunk len n > (data.length : ℤ) - n) := by
          have := chunk_inside hn (by omega)
          omega
        have hout : data.take (min n len) ++ (data.drop n).take (min 1024 (len - n)) =
            data.take (min (n + 1024) len) := by
          have hmin : n + min 1024 (len - n) = min (n + 1024) len := by omega
          rw [Nat.min_eq_left hn.le, ← List.take_add, hmin]
        rw [if_pos (by omega), if_neg hinside, chunk_eq hn (by omega), Int.toNat_natCast,
          Int.toNat_natCast, hout, hnext]
        exact ih (n := n + 1024) (by omega)
      · rw [if_neg (by omega), Nat.min_eq_right hn]

theorem toInt32_length {n : ℕ} (h : n < 2 ^ 31) : toInt32 (n : ℤ) = n :=
  toInt32_of_range (by omega) (by omega)

theorem le_turns (n : ℕ) : n ≤ 0 + turns (n : ℤ) * 1024 := by
  unfold turns
  omega

/-- The bytes of a model are cut out. -/
theorem deleteBytes_eq {v : List UInt8} (hv : v.length ≤ 2 ^ 31 - 1024) {off len : ℕ}
    (h : off + len ≤ v.length) : deleteBytes v off len = (.ok (), cut v off len) := by
  have hlt : v.length < 2 ^ 31 := by omega
  have hread : readLoop (turns v.length) (List.replicate v.length 0) v 0 v.length = .ok v := by
    simpa [readUpTo] using readLoop_eq hv (le_turns v.length)
  rw [deleteBytes]
  simp only [toInt32_length hlt, Int.toNat_natCast, hread]
  rw [if_neg (by omega)]
  split
  next hall =>
    -- the model is the whole file
    have hoff : off = 0 := by omega
    rw [cut, hoff, List.take_zero, List.drop_of_length_le (by omega)]
    rfl
  next =>
    have hmove : moveLoop (v.length - len - off) v off len (v.length - len) =
        .ok (movedUpTo v off len (v.length - len)) := by
      have hstart : movedUpTo v off len off = v := by
        have htake : (v.take off).length = off := List.length_take_of_le (by omega)
        rw [movedUpTo, cut, List.take_append_of_le_length (by omega), List.take_take, Nat.min_self,
          List.take_append_drop]
      have hfuel : v.length = off + len + (v.length - len - off) := by omega
      have hloop := moveLoop_eq hlt h le_rfl h hfuel
      rwa [hstart] at hloop
    have hfuel : ((v.length : ℤ) - len - off).toNat = v.length - len - off := by omega
    have hrest : toInt32 ((v.length : ℤ) - len) = (v.length - len : ℕ) := by
      rw [toInt32_of_range (by omega) (by omega)]
      omega
    have hcut : (movedUpTo v off len (v.length - len)).take (v.length - len) = cut v off len := by
      have hl := cut_length h
      rw [movedUpTo, List.take_left' (List.length_take_of_le hl.ge), List.take_of_length_le hl.le]
    have hdata : v.length - len ≤ (movedUpTo v off len (v.length - len)).length := by
      rw [movedUpTo_length h (by omega)]
      omega
    have hwrite := writeLoop_eq (by omega) hdata (le_turns (v.length - len))
    rw [Nat.zero_min, List.take_zero, hcut] at hwrite
    rw [hfuel, hmove, hrest]
    exact hwrite

/-- Above `2 ^ 31 - 1024` bytes nothing is deleted. -/
theorem deleteBytes_overflow {v : List UInt8} (hlow : 2 ^ 31 - 1024 < v.length)
    (hv : v.length < 2 ^ 31) (off len : ℤ) :
    deleteBytes v off len = (.error .indexOutOfBounds, v) := by
  have hread : readLoop (turns v.length) (List.replicate v.length 0) v 0 v.length =
      .error .indexOutOfBounds := by
    refine readLoop_overflow (n := 0) (j := 2 ^ 21 - 1) hlow hv rfl ?_ List.length_replicate v
    unfold turns
    omega
  rw [deleteBytes]
  simp only [toInt32_length hv, Int.toNat_natCast, hread]
  rw [if_neg (by omega)]

/-! ## Updating -/

/-- A copying loop fills the next `k` cells. -/
theorem copyLoop_eq {src : List UInt8} {j k : ℕ} (hj : j + k ≤ src.length) {x y : List UInt8}
    (hk : k ≤ y.length) :
    copyLoop k src j (j + k : ℕ) (x ++ y, x.length) =
      .ok (x ++ (src.drop j).take k ++ y.drop k, x.length + k) := by
  induction k generalizing j x y with
  | zero => simp [copyLoop]
  | succ k ih =>
      obtain ⟨c, y, rfl⟩ := List.exists_cons_of_ne_nil (List.ne_nil_of_length_pos (Nat.zero_lt_of_lt hk))
      have hsrc : j < src.length := by omega
      have hnext : (j : ℤ) + 1 = ((j + 1 : ℕ) : ℤ) := rfl
      have hstop : j + (k + 1) = j + 1 + k := by omega
      have hset : (x ++ c :: y).set x.length (src.getD j 0) = x ++ [src[j]] ++ y := by
        rw [List.getD_eq_getElem?_getD, List.getElem?_eq_getElem hsrc]
        simp
      have hlen : x.length + 1 = (x ++ [src[j]]).length := by simp
      rw [copyLoop, if_pos (by omega), if_pos (by simp; omega), Int.toNat_natCast, hset, hnext, hstop,
        hlen, ih (by omega) (Nat.le_of_succ_le_succ hk)]
      have htake : (src.drop j).take (k + 1) = src[j] :: (src.drop (j + 1)).take k := by
        rw [List.drop_eq_getElem_cons hsrc, List.take_succ_cons]
      rw [htake]
      simp [Nat.add_assoc, Nat.add_comm 1]

/-- The bytes `v` with those from `off` to `off + len` replaced. -/
def splice (v : List UInt8) (off len : ℕ) (bs : List UInt8) : List UInt8 :=
  v.take off ++ bs ++ v.drop (off + len)

theorem ok_bind {α β ε : Type} (a : α) (f : α → Except ε β) : (Except.ok a >>= f) = f a := rfl

theorem spliceLoops_eq {v bs : List UInt8} {off len : ℕ} (hv : v.length < 2 ^ 31)
    (h : off + len ≤ v.length) :
    spliceLoops v bs off len bs.length v.length (v.length - len + bs.length : ℕ) =
      .ok (splice v off len bs) := by
  have hstart : toInt32 ((off : ℤ) + len) = (off + len : ℕ) := by
    rw [toInt32_of_range (by omega) (by omega)]
    omega
  have hfuel : ((v.length : ℤ) - (off + len : ℕ)).toNat = v.length - (off + len) := by omega
  have hoff : (v.take off).length = off := List.length_take_of_le (by omega)
  -- each loop starts where the one before has stopped
  have h₁ : copyLoop off v 0 off (List.replicate (v.length - len + bs.length) 0, 0) =
      .ok (v.take off ++ List.replicate (v.length - len + bs.length - off) 0, off) := by
    simpa using @copyLoop_eq v 0 off (by omega) [] (List.replicate (v.length - len + bs.length) 0)
      (by simp; omega)
  have h₂ : copyLoop bs.length bs 0 bs.length
      (v.take off ++ List.replicate (v.length - len + bs.length - off) 0, off) =
      .ok (v.take off ++ bs ++ List.replicate (v.length - len - off) 0, off + bs.length) := by
    have hloop := @copyLoop_eq bs 0 bs.length (by omega) (v.take off)
      (List.replicate (v.length - len + bs.length - off) 0) (by simp; omega)
    have hlen : v.length - len + bs.length - off - bs.length = v.length - len - off := by omega
    simpa [hoff, hlen] using hloop
  have h₃ : copyLoop (v.length - (off + len)) v (off + len : ℕ) v.length
      (v.take off ++ bs ++ List.replicate (v.length - len - off) 0, off + bs.length) =
      .ok (splice v off len bs, v.length - len + bs.length) := by
    have hloop := @copyLoop_eq v (off + len) (v.length - (off + len)) (by omega) (v.take off ++ bs)
      (List.replicate (v.length - len - off) 0) (by simp; omega)
    have hstop : off + len + (v.length - (off + len)) = v.length := by omega
    have hend : off + bs.length + (v.length - (off + len)) = v.length - len + bs.length := by omega
    have hlen : (v.take off ++ bs).length = off + bs.length := by rw [List.length_append, hoff]
    have hzero : (List.replicate (v.length - len - off) (0 : UInt8)).drop (v.length - (off + len)) =
        [] := List.drop_of_length_le (by rw [List.length_replicate]; omega)
    have htake : (v.drop (off + len)).take (v.length - (off + len)) = v.drop (off + len) :=
      List.take_of_length_le (by rw [List.length_drop])
    rw [hstop, hlen, hend, hzero, List.append_nil, htake] at hloop
    exact hloop
  unfold spliceLoops
  simp only [Int.toNat_natCast, hstart, hfuel]
  rw [h₁]
  simp only [ok_bind]
  rw [h₂]
  simp only [ok_bind]
  rw [h₃]
  rfl

/-- The bytes of a model are replaced by the content of the file. -/
theorem updateBytes_eq {v content : List UInt8} (hv : v.length < 2 ^ 31)
    (hcontent : content.length < 2 ^ 31) {off len : ℕ} (h : off + len ≤ v.length)
    (hnew : v.length - len + content.length < 2 ^ 31) :
    updateBytes v off len (.readable content) = .ok (some (splice v off len content)) := by
  have hlen3 : toInt32 ((v.length : ℤ) - len + content.length) =
      (v.length - len + content.length : ℕ) := by
    rw [toInt32_of_range (by omega) (by omega)]
    omega
  have hsplice := @spliceLoops_eq v content off len hv h
  simp only [updateBytes, DiskFile.length, DiskFile.readAt, toInt32_length hv,
    toInt32_length hcontent, hlen3, Int.toNat_natCast, List.drop_zero, List.take_length,
    Option.getD_some, hsplice]
  rw [if_neg (by omega), if_neg (by simp), if_neg (by omega), if_neg (by simp), if_neg (by omega)]
  rfl

/-! ## Comparing -/

theorem pad_eq {bs : List UInt8} {len : ℕ} (h : bs.length = len) : pad len bs = bs := by
  simp [pad, h]

/-- What `compareDiskFile` reads of a file with these bytes is the content. -/
def Rereads (bs content : List UInt8) : Prop :=
  toInt32 bs.length = content.length ∧ bs.take content.length = content

theorem rereads_self {content : List UInt8} (h : content.length < 2 ^ 31) :
    Rereads content content := ⟨toInt32_length h, List.take_length⟩

/-- The file that `compareDiskFile` finds equal need not be shorter than
`2 ^ 31` bytes. -/
theorem compareDiskFile_iff {s : VFS} {filename : Name} {m off len : ℕ} {bs : List UInt8}
    (hm : s.ml.findModel filename = some m) (hoff : (s.ml.heap m).off = off)
    (hlen : (s.ml.heap m).len = len) (h : off + len ≤ s.myvfs.length) :
    compareDiskFile filename (.readable bs) s = .ok true ↔
      Rereads bs ((s.myvfs.drop off).take len) := by
  have hbytes : ((s.myvfs.drop off).take len).length = len := by
    rw [List.length_take, List.length_drop]
    omega
  simp only [compareDiskFile, hm, DiskFile.length, hlen, hoff, Rereads, hbytes]
  by_cases heq : toInt32 bs.length = len
  · have htake : (bs.take len).length = len := by
      unfold toInt32 at heq
      rw [List.length_take]
      omega
    rw [if_neg (not_not.2 heq), if_neg (by omega), if_neg (by omega), heq]
    simp only [Int.toNat_natCast, DiskFile.readAt, List.drop_zero, Option.getD_some]
    rw [pad_eq htake, pad_eq hbytes]
    simp
  · rw [if_pos heq]
    exact iff_of_false (by simp) fun h => heq h.1

/-- `compareDiskFile` compares the content of the file with the bytes of the
model. -/
theorem compareDiskFile_eq {s : VFS} {filename : Name} {m off len : ℕ} {content : List UInt8}
    (hm : s.ml.findModel filename = some m) (hoff : (s.ml.heap m).off = off)
    (hlen : (s.ml.heap m).len = len) (h : off + len ≤ s.myvfs.length)
    (hcontent : content.length < 2 ^ 31) :
    compareDiskFile filename (.readable content) s =
      .ok (decide (content = (s.myvfs.drop off).take len)) := by
  have hbytes : ((s.myvfs.drop off).take len).length = len := by
    rw [List.length_take, List.length_drop]
    omega
  simp only [compareDiskFile, hm, DiskFile.length, toInt32_length hcontent, hlen, hoff]
  by_cases heq : content.length = len
  · rw [if_neg (by omega), if_neg (by omega), if_neg (by omega)]
    simp only [Int.toNat_natCast, DiskFile.readAt, List.drop_zero, List.take_length,
      Option.getD_some]
    rw [pad_eq rfl, heq, pad_eq hbytes]
    congr 1
    exact beq_eq_decide content _
  · rw [if_pos (by omega), decide_eq_false]
    rintro rfl
    exact heq hbytes

/-! ## Calls -/

section Calls

variable {s : VFS} {filename : Name} {m : ℕ} {file : DiskFile} {bs : List UInt8}

theorem deleteDiskFile_none (hm : s.ml.findModel filename = none) :
    deleteDiskFile filename s = (.ok (), s) := by
  unfold deleteDiskFile
  rw [hm]

theorem deleteDiskFile_some (hm : s.ml.findModel filename = some m) :
    deleteDiskFile filename s =
      deleteRecord s m (deleteBytes s.myvfs (s.ml.heap m).off (s.ml.heap m).len) := by
  unfold deleteDiskFile
  rw [hm]

theorem deleteDiskFile_ok {ml : ModelList} (hm : s.ml.findModel filename = some m)
    (hbytes : deleteBytes s.myvfs (s.ml.heap m).off (s.ml.heap m).len = (.ok (), bs))
    (hdelete : s.ml.deleteModel m = .ok ml) :
    deleteDiskFile filename s = (.ok (), { myvfs := bs, ml, record := writeModelList ml }) := by
  rw [deleteDiskFile_some hm, hbytes]
  unfold deleteRecord
  dsimp only
  rw [hdelete]

theorem deleteDiskFile_error {e : JExn} (hm : s.ml.findModel filename = some m)
    (hbytes : deleteBytes s.myvfs (s.ml.heap m).off (s.ml.heap m).len = (.error e, bs)) :
    deleteDiskFile filename s = (.error e, { s with myvfs := bs }) := by
  rw [deleteDiskFile_some hm, hbytes]
  rfl

theorem updateDiskFile_none (hm : s.ml.findModel filename = none) :
    updateDiskFile filename file s = (.ok (), s) := by
  unfold updateDiskFile
  rw [hm]

theorem updateDiskFile_error {e : JExn} (hm : s.ml.findModel filename = some m)
    (hcompare : compareDiskFile filename file s = .error e) :
    updateDiskFile filename file s = (.error e, s) := by
  unfold updateDiskFile
  rw [hm, hcompare]

theorem updateDiskFile_same (hm : s.ml.findModel filename = some m)
    (hcompare : compareDiskFile filename file s = .ok true) :
    updateDiskFile filename file s = (.ok (), s) := by
  unfold updateDiskFile
  rw [hm, hcompare]

theorem updateDiskFile_different (hm : s.ml.findModel filename = some m)
    (hcompare : compareDiskFile filename file s = .ok false) :
    updateDiskFile filename file s =
      updateRecord s filename (s.ml.heap m).off (toInt32 file.length)
        (updateBytes s.myvfs (s.ml.heap m).off (s.ml.heap m).len file) := by
  unfold updateDiskFile
  rw [hm, hcompare]

theorem updateDiskFile_ok (hm : s.ml.findModel filename = some m)
    (hcompare : compareDiskFile filename file s = .ok false)
    (hbytes : updateBytes s.myvfs (s.ml.heap m).off (s.ml.heap m).len file = .ok (some bs)) :
    updateDiskFile filename file s = (.ok (),
      let ml := s.ml.updateModel filename (s.ml.heap m).off (toInt32 file.length)
      { myvfs := bs, ml, record := writeModelList ml }) := by
  rw [updateDiskFile_different hm hcompare, hbytes]
  rfl

/-- `updateDiskFile` changes nothing before the new bytes are computed. -/
theorem updateDiskFile_unchanged (h : ∀ m bs, s.ml.findModel filename = some m →
    compareDiskFile filename file s = .ok false →
    updateBytes s.myvfs (s.ml.heap m).off (s.ml.heap m).len file ≠ .ok (some bs)) :
    (updateDiskFile filename file s).2 = s := by
  cases hm : s.ml.findModel filename with
  | none => rw [updateDiskFile_none hm]
  | some m =>
      cases hcompare : compareDiskFile filename file s with
      | error e => rw [updateDiskFile_error hm hcompare]
      | ok same =>
          cases same with
          | true => rw [updateDiskFile_same hm hcompare]
          | false =>
              rw [updateDiskFile_different hm hcompare]
              cases hbytes : updateBytes s.myvfs (s.ml.heap m).off (s.ml.heap m).len file with
              | error e => rfl
              | ok result =>
                  cases result with
                  | none => rfl
                  | some bs => exact absurd hbytes (h m bs hm hcompare)

end Calls

end MyJavaExample.Vfs
