import MyJavaExample.Lib.Run
import MyJavaExample.Vfs.Bytes

/-!
# The integrity of the file system over whole runs

The abstract state is the list of the files that are stored, in the order in
which they were added, each with its content at its last add or update.  The
file system has integrity when its model list describes these files one after
the other, without gaps, and `myvfs` holds their contents.

Two things break it.  After the last file of several has been deleted, `tail`
refers to a model that is not in the list any more, and the next model is
appended to that one.  And the counters are of type `int`: that of
`deleteDiskFile` overflows in the last 1024 bytes below `2 ^ 31`, and `size`
overflows at `2 ^ 31` files.  `vfs_integrity_iff` says that nothing else does.
-/

namespace MyJavaExample.Vfs

open Java Lib

/-! ## The abstract file system -/

/-- A stored file. -/
structure File where
  name : Name
  content : List UInt8
deriving DecidableEq

def totalSize (fs : List File) : ℕ := (fs.flatMap File.content).length

/-- What a call does to the stored files. -/
def Call.store (fs : List File) : Call → List File
  | .add filename (.readable content) => fs ++ [⟨filename, content⟩]
  | .delete filename => fs.filter fun f => f.name ≠ filename
  | .update filename (.readable content) =>
      fs.map fun f => if f.name = filename then ⟨filename, content⟩ else f
  | _ => fs

/-- The entries of the files from offset `off` on. -/
def layout : ℕ → List File → List Entry
  | _, [] => []
  | off, f :: fs => ⟨f.name, off, f.content.length⟩ :: layout (off + f.content.length) fs

theorem totalSize_append (fs gs : List File) :
    totalSize (fs ++ gs) = totalSize fs + totalSize gs := by
  simp [totalSize]

theorem totalSize_cons (f : File) (fs : List File) :
    totalSize (f :: fs) = f.content.length + totalSize fs := by
  simp [totalSize]

theorem layout_append (off : ℕ) (fs gs : List File) :
    layout off (fs ++ gs) = layout off fs ++ layout (off + totalSize fs) gs := by
  induction fs generalizing off with
  | nil => simp [layout, totalSize]
  | cons f fs ih => rw [List.cons_append, layout, ih, totalSize_cons, Nat.add_assoc]; rfl

theorem layout_names (off : ℕ) (fs : List File) :
    (layout off fs).map Entry.filename = fs.map File.name := by
  induction fs generalizing off with
  | nil => rfl
  | cons f fs ih => rw [layout, List.map_cons, ih, List.map_cons]

theorem layout_filename_ne {filename : Name} {off : ℕ} {fs : List File}
    (h : ∀ f ∈ fs, f.name ≠ filename) : ∀ e ∈ layout off fs, e.filename ≠ filename := by
  intro e he
  have hmem := List.mem_map_of_mem (f := Entry.filename) he
  rw [layout_names] at hmem
  obtain ⟨f, hf, hfe⟩ := List.mem_map.1 hmem
  exact hfe ▸ h f hf

theorem name_ne_of_not_mem {filename : Name} {fs : List File} (h : filename ∉ fs.map File.name) :
    ∀ f ∈ fs, f.name ≠ filename :=
  fun _ hf hname => h (hname ▸ List.mem_map_of_mem hf)

/-- Moving the entries moves the offset they start from. -/
theorem layout_shift {fs : List File} {a b : ℕ} {d : ℤ} (hd : (b : ℤ) = a + d)
    (hb : b + totalSize fs < 2 ^ 31) : (layout a fs).map (Entry.shift d) = layout b fs := by
  induction fs generalizing a b with
  | nil => rfl
  | cons f fs ih =>
      rw [totalSize_cons] at hb
      have hoff : toInt32 ((a : ℤ) + d) = b := by
        rw [← hd]
        exact toInt32_length (by omega)
      have hrest := @ih (a + f.content.length) (b + f.content.length) (by omega) (by omega)
      rw [layout, List.map_cons, hrest, Entry.shift, layout]
      simp only [hoff]

/-! ## Integrity -/

/-- The nodes reachable from `head` are the stored files in the order of their
adds, `size` is their number, the offsets are the running sums of the lengths,
the lengths add up to that of `myvfs`, and `myvfs` holds the contents. -/
structure Integrity (w : VFS × List File) : Prop where
  names : w.1.ml.entries.map Entry.filename = w.2.map File.name
  size : w.1.ml.size = w.2.length
  offsets : ∀ es₁ e es₂, w.1.ml.entries = es₁ ++ e :: es₂ → e.off = (es₁.map Entry.len).sum
  total : (w.1.ml.entries.map Entry.len).sum = w.1.myvfs.length
  content : ∀ (i : ℕ) (e : Entry) (f : File), w.1.ml.entries[i]? = some e → w.2[i]? = some f →
    0 ≤ e.off ∧ 0 ≤ e.len ∧ (w.1.myvfs.drop e.off.toNat).take e.len.toNat = f.content

/-- The state in the terms of the abstract file system, with what the code needs
to go on. -/
structure Stored (w : VFS × List File) : Prop where
  wf : ∃ l, w.1.ml.Wf l
  entries : w.1.ml.entries = layout 0 w.2
  myvfs : w.1.myvfs = w.2.flatMap File.content
  size : w.1.ml.size = w.2.length
  nodup : (w.2.map File.name).Nodup
  few : w.2.length < 2 ^ 31
  small : totalSize w.2 < 2 ^ 31

theorem layout_len_sum (off : ℕ) (fs : List File) :
    ((layout off fs).map Entry.len).sum = totalSize fs := by
  induction fs generalizing off with
  | nil => rfl
  | cons f fs ih =>
      rw [layout, List.map_cons, List.sum_cons, ih, totalSize_cons]
      simp

theorem layout_split {off : ℕ} {fs : List File} {es₁ es₂ : List Entry} {e : Entry}
    (h : layout off fs = es₁ ++ e :: es₂) :
    ∃ fs₁ f fs₂, fs = fs₁ ++ f :: fs₂ ∧ es₁ = layout off fs₁ ∧
      e = ⟨f.name, (off + totalSize fs₁ : ℕ), f.content.length⟩ := by
  induction es₁ generalizing off fs with
  | nil =>
      cases fs with
      | nil => cases h
      | cons f fs =>
          cases h
          exact ⟨[], f, fs, rfl, rfl, rfl⟩
  | cons e₁ es₁ ih =>
      cases fs with
      | nil => cases h
      | cons f fs =>
          obtain ⟨he, hrest⟩ := List.cons.inj h
          obtain ⟨fs₁, g, fs₂, rfl, rfl, rfl⟩ := ih hrest
          refine ⟨f :: fs₁, g, fs₂, rfl, ?_, ?_⟩
          · rw [layout, he]
          · rw [totalSize_cons, Nat.add_assoc]

theorem layout_length (off : ℕ) (fs : List File) : (layout off fs).length = fs.length := by
  simpa using congrArg List.length (layout_names off fs)

section Split

variable {fs₁ fs₂ : List File} {f : File}

/-- The entry of a file between others. -/
theorem layout_middle : layout 0 (fs₁ ++ f :: fs₂) =
    layout 0 fs₁ ++ ⟨f.name, totalSize fs₁, f.content.length⟩ ::
      layout (totalSize fs₁ + f.content.length) fs₂ := by
  rw [layout_append, Nat.zero_add, layout]

theorem flatMap_middle : (fs₁ ++ f :: fs₂).flatMap File.content =
    fs₁.flatMap File.content ++ f.content ++ fs₂.flatMap File.content := by
  simp

/-- The bytes of a file between others. -/
theorem slice_middle :
    (((fs₁ ++ f :: fs₂).flatMap File.content).drop (totalSize fs₁)).take f.content.length =
      f.content := by
  rw [flatMap_middle, List.append_assoc, totalSize, List.drop_left, List.take_left]

theorem cut_middle : cut ((fs₁ ++ f :: fs₂).flatMap File.content) (totalSize fs₁) f.content.length =
    (fs₁ ++ fs₂).flatMap File.content := by
  have hlen : totalSize fs₁ + f.content.length =
      (fs₁.flatMap File.content ++ f.content).length := by
    rw [List.length_append]
    rfl
  rw [cut, flatMap_middle, hlen, List.drop_left, List.append_assoc, totalSize, List.take_left,
    List.flatMap_append]

theorem splice_middle (bs : List UInt8) (name : Name) :
    splice ((fs₁ ++ f :: fs₂).flatMap File.content) (totalSize fs₁) f.content.length bs =
      (fs₁ ++ ⟨name, bs⟩ :: fs₂).flatMap File.content := by
  have hlen : totalSize fs₁ + f.content.length =
      (fs₁.flatMap File.content ++ f.content).length := by
    rw [List.length_append]
    rfl
  rw [splice, flatMap_middle, flatMap_middle, hlen, List.drop_left, List.append_assoc _ f.content,
    totalSize, List.take_left]

end Split

theorem Stored.integrity {w : VFS × List File} (h : Stored w) : Integrity w := by
  refine ⟨?_, h.size, ?_, ?_, ?_⟩
  · rw [h.entries, layout_names]
  · intro es₁ e es₂ hes
    rw [h.entries] at hes
    obtain ⟨fs₁, f, fs₂, -, rfl, rfl⟩ := layout_split hes
    rw [layout_len_sum]
    simp
  · rw [h.entries, layout_len_sum, h.myvfs]
    rfl
  · intro i e f he hf
    obtain ⟨hi, hf⟩ := List.getElem?_eq_some_iff.1 hf
    have hfs : w.2 = w.2.take i ++ f :: w.2.drop (i + 1) := by
      rw [← hf, ← List.drop_eq_getElem_cons hi, List.take_append_drop]
    have hlen : (layout 0 (w.2.take i)).length = i := by
      rw [layout_length, List.length_take_of_le hi.le]
    have hmiddle := @layout_middle (w.2.take i) (w.2.drop (i + 1)) f
    rw [← hfs] at hmiddle
    rw [h.entries, hmiddle, List.getElem?_append_right hlen.le, hlen, Nat.sub_self,
      List.getElem?_cons_zero] at he
    cases he
    refine ⟨Int.natCast_nonneg _, Int.natCast_nonneg _, ?_⟩
    have hslice := @slice_middle (w.2.take i) (w.2.drop (i + 1)) f
    rwa [← hfs, ← h.myvfs] at hslice

/-! ## Calls -/

/-- The state with its abstract counterpart, after a call. -/
def nextWorld (w : VFS × List File) (c : Call) : VFS × List File := (w.1.step c, c.store w.2)

/-- The calls the property is about: an add names a readable disk file that is
not stored, an update of a stored file finds it readable, and the total size
stays below `2 ^ 31`. -/
def Valid (w : VFS × List File) (c : Call) : Prop :=
  totalSize (c.store w.2) < 2 ^ 31 ∧
    match c with
    | .add filename file => filename ∉ w.2.map File.name ∧ ∃ content, file = .readable content
    | .delete _ => True
    | .update filename file => filename ∈ w.2.map File.name → ∃ content, file = .readable content

/-- The condition on the state before a call under which the call keeps the
integrity: an added model is not hung onto a deleted one, and no counter
overflows. -/
def NoLoss (w : VFS × List File) (c : Call) : Prop :=
  match c with
  | .add _ _ => w.1.ml.TailReachable ∧ w.1.ml.size < 2 ^ 31 - 1
  | .delete filename => w.1.ml.findModel filename ≠ none → w.1.myvfs.length ≤ 2 ^ 31 - 1024
  | .update _ _ => True

section Steps

variable {w : VFS × List File} {filename : Name} {content : List UInt8}

/-- The files around a stored one. -/
theorem Stored.split (h : Stored w) (hname : filename ∈ w.2.map File.name) :
    ∃ fs₁ f fs₂, w.2 = fs₁ ++ f :: fs₂ ∧ f.name = filename ∧
      (∀ g ∈ fs₁, g.name ≠ filename) ∧ ∀ g ∈ fs₂, g.name ≠ filename := by
  obtain ⟨f, hf, rfl⟩ := List.mem_map.1 hname
  obtain ⟨fs₁, fs₂, hfs⟩ := List.append_of_mem hf
  have hnodup := h.nodup
  rw [hfs, List.map_append, List.map_cons, List.nodup_append, List.nodup_cons] at hnodup
  obtain ⟨-, ⟨hf₂, -⟩, hdisj⟩ := hnodup
  refine ⟨fs₁, f, fs₂, hfs, rfl, fun g hg he => ?_, fun g hg he => ?_⟩
  · exact hdisj g.name (List.mem_map_of_mem hg) f.name List.mem_cons_self he
  · exact hf₂ (he ▸ List.mem_map_of_mem hg)

theorem Stored.find_none (h : Stored w) (hname : filename ∉ w.2.map File.name) :
    w.1.ml.findModel filename = none := by
  obtain ⟨l, hwf⟩ := h.wf
  have hfind := hwf.find_entries filename
  have hnone : w.1.ml.entries.find? (fun e => e.filename = filename) = none := by
    rw [List.find?_eq_none, h.entries]
    intro e he
    simpa using layout_filename_ne (name_ne_of_not_mem hname) e he
  rw [hnone, Option.map_eq_none_iff] at hfind
  exact hfind

/-- The model of a stored file. -/
theorem Stored.find_some (h : Stored w) {fs₁ fs₂ : List File} {f : File}
    (hfs : w.2 = fs₁ ++ f :: fs₂) (hf : f.name = filename) (h₁ : ∀ g ∈ fs₁, g.name ≠ filename) :
    ∃ m, w.1.ml.findModel filename = some m ∧
      (w.1.ml.heap m).off = totalSize fs₁ ∧ (w.1.ml.heap m).len = f.content.length := by
  obtain ⟨l, hwf⟩ := h.wf
  have hfind := hwf.find_entries filename
  have hnone : (layout 0 fs₁).find? (fun e => e.filename = filename) = none := by
    rw [List.find?_eq_none]
    intro e he
    simpa using layout_filename_ne h₁ e he
  rw [h.entries, hfs, layout_middle, List.find?_append, hnone, Option.none_or,
    List.find?_cons_of_pos (by simpa using hf)] at hfind
  obtain ⟨m, hm, hentry⟩ := Option.map_eq_some_iff.1 hfind
  exact ⟨m, hm, congrArg Entry.off hentry, congrArg Entry.len hentry⟩

theorem store_delete {fs₁ fs₂ : List File} {f : File} (hf : f.name = filename)
    (h₁ : ∀ g ∈ fs₁, g.name ≠ filename) (h₂ : ∀ g ∈ fs₂, g.name ≠ filename) :
    Call.store (fs₁ ++ f :: fs₂) (.delete filename) = fs₁ ++ fs₂ := by
  rw [Call.store, List.filter_append, List.filter_cons_of_neg (by simp [hf]),
    List.filter_eq_self.2 fun g hg => by simpa using h₁ g hg,
    List.filter_eq_self.2 fun g hg => by simpa using h₂ g hg]

theorem store_update {fs₁ fs₂ : List File} {f : File} (hf : f.name = filename)
    (h₁ : ∀ g ∈ fs₁, g.name ≠ filename) (h₂ : ∀ g ∈ fs₂, g.name ≠ filename) :
    Call.store (fs₁ ++ f :: fs₂) (.update filename (.readable content)) =
      fs₁ ++ ⟨filename, content⟩ :: fs₂ := by
  have hid : ∀ gs : List File, (∀ g ∈ gs, g.name ≠ filename) →
      gs.map (fun g => if g.name = filename then ⟨filename, content⟩ else g) = gs := by
    intro gs hgs
    exact (List.map_congr_left fun g hg => if_neg (hgs g hg)).trans (List.map_id gs)
  rw [Call.store, List.map_append, List.map_cons, if_pos hf, hid fs₁ h₁, hid fs₂ h₂]

theorem store_unstored {fs : List File} (hname : filename ∉ fs.map File.name) :
    Call.store fs (.delete filename) = fs ∧
      ∀ file, Call.store fs (.update filename file) = fs := by
  have hne := name_ne_of_not_mem hname
  constructor
  · exact List.filter_eq_self.2 fun f hf => by simpa using hne f hf
  · intro file
    cases file with
    | missing => rfl
    | unopenable length => rfl
    | damaged content bad => rfl
    | readable content =>
        exact (List.map_congr_left fun f hf => if_neg (hne f hf)).trans (List.map_id fs)

/-- The entry of an added file starts where the files before it end. -/
theorem Stored.newEntry_eq (h : Stored w)
    (hsize : totalSize (w.2 ++ [⟨filename, content⟩]) < 2 ^ 31) :
    newEntry w.1 filename content = ⟨filename, totalSize w.2, content.length⟩ := by
  rw [totalSize_append, totalSize_cons] at hsize
  have hlen : content.length < 2 ^ 31 := by
    simp only at hsize
    omega
  have hoff : ((w.1.myvfs ++ content).length : ℤ) - content.length = totalSize w.2 := by
    rw [List.length_append, h.myvfs, totalSize]
    omega
  rw [newEntry, hoff, toInt32_length hlen, toInt32_length h.small]

/-- An add to a list whose `tail` is reachable. -/
theorem Stored.add (h : Stored w) (hname : filename ∉ w.2.map File.name)
    (hsize : totalSize (w.2 ++ [⟨filename, content⟩]) < 2 ^ 31) (htail : w.1.ml.TailReachable)
    (hfew : w.1.ml.size < 2 ^ 31 - 1) :
    Stored (nextWorld w (.add filename (.readable content))) := by
  obtain ⟨l, hwf⟩ := h.wf
  have hentry := h.newEntry_eq hsize
  obtain ⟨ml, hadd, hwf', -, hentries, hsize'⟩ := hwf.addModel_reachable htail filename
    (newEntry w.1 filename content).off (newEntry w.1 filename content).len
  have hcount := h.size
  rw [nextWorld, VFS.step, Call.exec, addDiskFile_readable hadd]
  refine ⟨⟨_, hwf'⟩, ?_, ?_, ?_, ?_, ?_, hsize⟩
  · simp only [hentries, h.entries, Call.store, layout_append, hentry, Nat.zero_add, layout]
  · simp [Call.store, h.myvfs]
  · simp only [hsize', Call.store, List.length_append, List.length_singleton]
    rw [toInt32_of_range (by omega) (by omega)]
    omega
  · simp only [Call.store, List.map_append, List.map_singleton]
    exact List.nodup_append.2 ⟨h.nodup, List.nodup_singleton _, by
      intro a ha b hb hab
      rw [List.mem_singleton] at hb
      exact hname (hb ▸ hab ▸ ha)⟩
  · simp only [Call.store, List.length_append, List.length_singleton]
    omega

/-- An add that is not allowed loses the file or breaks the count. -/
theorem Stored.add_breaks (h : Stored w)
    (hno : ¬(w.1.ml.TailReachable ∧ w.1.ml.size < 2 ^ 31 - 1)) :
    ¬Integrity (nextWorld w (.add filename (.readable content))) := by
  obtain ⟨l, hwf⟩ := h.wf
  intro hint
  rw [nextWorld, VFS.step, Call.exec] at hint
  by_cases htail : w.1.ml.TailReachable
  · -- `size` overflows
    obtain ⟨ml, hadd, -, -, -, hsize'⟩ := hwf.addModel_reachable htail filename
      (newEntry w.1 filename content).off (newEntry w.1 filename content).len
    rw [addDiskFile_readable hadd] at hint
    have hcount := hint.size
    have hsize := h.size
    have hfew := h.few
    simp only [hsize', Call.store, List.length_append, List.length_singleton] at hcount
    have hupper := toInt32_upper (w.1.ml.size + 1)
    have hlarge : ¬w.1.ml.size < 2 ^ 31 - 1 := fun hlt => hno ⟨htail, hlt⟩
    omega
  · -- the model is lost
    obtain ⟨ml, hadd, -, hentries, -⟩ := hwf.addModel_lost htail filename
      (newEntry w.1 filename content).off (newEntry w.1 filename content).len
    rw [addDiskFile_readable hadd] at hint
    have hnames := congrArg List.length hint.names
    simp [hentries, h.entries, Call.store, layout_length] at hnames

/-- A delete of a stored file while `myvfs` is short enough. -/
theorem Stored.delete (h : Stored w) (hname : filename ∈ w.2.map File.name)
    (hlen : w.1.myvfs.length ≤ 2 ^ 31 - 1024) : Stored (nextWorld w (.delete filename)) := by
  obtain ⟨l, hwf⟩ := h.wf
  obtain ⟨fs₁, f, fs₂, hfs, hf, h₁, h₂⟩ := h.split hname
  obtain ⟨m, hm, hoff, hmlen⟩ := h.find_some hfs hf h₁
  have hstore : Call.store w.2 (.delete filename) = fs₁ ++ fs₂ := by
    rw [hfs, store_delete hf h₁ h₂]
  have hpos : 0 < w.1.ml.size := by
    rw [h.size, hfs, List.length_append, List.length_cons]
    omega
  have hsmall := h.small
  rw [hfs, totalSize_append, totalSize_cons] at hsmall
  have hmyvfs : w.1.myvfs.length = totalSize fs₁ + (f.content.length + totalSize fs₂) := by
    rw [h.myvfs, ← totalSize_cons, ← totalSize_append, ← hfs]
    rfl
  have hbytes := deleteBytes_eq hlen (show totalSize fs₁ + f.content.length ≤ w.1.myvfs.length by omega)
  obtain ⟨ml, l', hdelete, hwf', hentries, hsize'⟩ := hwf.deleteModel_eq hpos hm
  have hexec := deleteDiskFile_ok hm (by rw [hoff, hmlen]; exact hbytes) hdelete
  rw [nextWorld, VFS.step, Call.exec, hexec, hstore]
  have hnodup := h.nodup
  have hfew := h.few
  rw [hfs] at hnodup hfew
  rw [List.length_append, List.length_cons] at hfew
  refine ⟨⟨l', hwf'⟩, ?_, ?_, ?_, ?_, ?_, ?_⟩
  · simp only [hentries, h.entries, hfs]
    rw [layout_middle, Entry.delete_append (layout_filename_ne h₁) hf, layout_append, Nat.zero_add,
      @layout_shift fs₂ _ (totalSize fs₁) _ (by simp) (by omega)]
  · simp only [h.myvfs, hfs, cut_middle]
  · simp only [hsize', h.size, hfs, List.length_append, List.length_cons]
    rw [toInt32_of_range (by omega) (by omega)]
    omega
  · refine hnodup.sublist (List.Sublist.map _ ?_)
    exact List.Sublist.append_left (List.sublist_cons_self f fs₂) fs₁
  · simp only [List.length_append]
    omega
  · rw [totalSize_append]
    omega

/-- Near the end of the range of `int` a delete throws, and the file stays. -/
theorem Stored.delete_breaks (h : Stored w) (hname : filename ∈ w.2.map File.name)
    (hlen : 2 ^ 31 - 1024 < w.1.myvfs.length) : ¬Integrity (nextWorld w (.delete filename)) := by
  obtain ⟨fs₁, f, fs₂, hfs, hf, h₁, h₂⟩ := h.split hname
  obtain ⟨m, hm, -⟩ := h.find_some hfs hf h₁
  have hlt : w.1.myvfs.length < 2 ^ 31 := by
    rw [h.myvfs]
    exact h.small
  have hexec := deleteDiskFile_error hm (deleteBytes_overflow hlen hlt _ _)
  intro hint
  have hnames := congrArg List.length hint.names
  rw [nextWorld, VFS.step, Call.exec, hexec, hfs, store_delete hf h₁ h₂] at hnames
  simp only [h.entries, hfs, List.length_map, layout_length, List.length_append,
    List.length_cons] at hnames
  omega

/-- An update of a stored file. -/
theorem Stored.update (h : Stored w) (hname : filename ∈ w.2.map File.name)
    (hsize : totalSize (Call.store w.2 (.update filename (.readable content))) < 2 ^ 31) :
    Stored (nextWorld w (.update filename (.readable content))) := by
  obtain ⟨l, hwf⟩ := h.wf
  obtain ⟨fs₁, f, fs₂, hfs, hf, h₁, h₂⟩ := h.split hname
  obtain ⟨m, hm, hoff, hmlen⟩ := h.find_some hfs hf h₁
  have hstore : Call.store w.2 (.update filename (.readable content)) =
      fs₁ ++ ⟨filename, content⟩ :: fs₂ := by
    rw [hfs, store_update hf h₁ h₂]
  have hsmall := h.small
  rw [hfs, totalSize_append, totalSize_cons] at hsmall
  rw [hstore, totalSize_append, totalSize_cons] at hsize
  simp only at hsize
  have hmyvfs : w.1.myvfs.length = totalSize fs₁ + (f.content.length + totalSize fs₂) := by
    rw [h.myvfs, ← totalSize_cons, ← totalSize_append, ← hfs]
    rfl
  have hslice : (w.1.myvfs.drop (totalSize fs₁)).take f.content.length = f.content := by
    rw [h.myvfs, hfs, slice_middle]
  have hcompare := compareDiskFile_eq hm hoff hmlen (by omega) (show content.length < 2 ^ 31 by omega)
  rw [hslice] at hcompare
  rw [nextWorld, VFS.step, Call.exec, hstore]
  by_cases hsame : content = f.content
  · -- the content is not written again
    have hfile : f = ⟨filename, content⟩ := by
      rw [hsame, ← hf]
    rw [updateDiskFile_same hm (by rw [hcompare, decide_eq_true hsame]), ← hfile, ← hfs]
    exact h
  · have hbytes := @updateBytes_eq w.1.myvfs content (by omega) (by omega) (totalSize fs₁)
      f.content.length (by omega) (by omega)
    rw [← hoff, ← hmlen] at hbytes
    have hexec := updateDiskFile_ok hm (by rw [hcompare, decide_eq_false hsame]) hbytes
    obtain ⟨hwf', hentries, hsize'⟩ :=
      hwf.updateModel_eq hm (w.1.ml.heap m).off (toInt32 content.length)
    have hlen : toInt32 (content.length : ℤ) = content.length := toInt32_length (by omega)
    have hdiff : toInt32 ((content.length : ℤ) - f.content.length) =
        content.length - f.content.length := toInt32_of_range (by omega) (by omega)
    rw [hexec]
    refine ⟨⟨l, hwf'⟩, ?_, ?_, ?_, ?_, ?_, ?_⟩
    · simp only [DiskFile.length, hentries, h.entries, hfs]
      rw [layout_middle, Entry.update_append (layout_filename_ne h₁) hf, hlen, hdiff, layout_middle,
        hoff, @layout_shift fs₂ _ (totalSize fs₁ + content.length) _ (by push_cast; ring) (by omega)]
    · simp only
      rw [h.myvfs, hfs, splice_middle]
    · simp only [DiskFile.length, hsize', h.size, hfs, List.length_append, List.length_cons]
    · have hnodup := h.nodup
      rw [hfs] at hnodup
      simpa [hf] using hnodup
    · have hfew := h.few
      rw [hfs] at hfew
      simpa using hfew
    · rw [totalSize_append, totalSize_cons]
      exact hsize

/-- A delete or an update of a file that is not stored does nothing. -/
theorem nextWorld_unstored (h : Stored w) (hname : filename ∉ w.2.map File.name) :
    nextWorld w (.delete filename) = w ∧ ∀ file, nextWorld w (.update filename file) = w := by
  obtain ⟨hdelete, hupdate⟩ := store_unstored hname
  have hm := h.find_none hname
  constructor
  · rw [nextWorld, VFS.step, Call.exec, deleteDiskFile_none hm, hdelete]
  · intro file
    rw [nextWorld, VFS.step, Call.exec, updateDiskFile_none hm, hupdate]

/-- An allowed call keeps the invariant. -/
theorem Stored.next (h : Stored w) {c : Call} (hvalid : Valid w c) (hloss : NoLoss w c) :
    Stored (nextWorld w c) := by
  obtain ⟨hsize, hvalid⟩ := hvalid
  cases c with
  | add filename file =>
      obtain ⟨hname, content, rfl⟩ := hvalid
      exact h.add hname hsize hloss.1 hloss.2
  | delete filename =>
      by_cases hname : filename ∈ w.2.map File.name
      · obtain ⟨fs₁, f, fs₂, hfs, hf, h₁, -⟩ := h.split hname
        obtain ⟨m, hm, -⟩ := h.find_some hfs hf h₁
        exact h.delete hname (hloss (by simp [hm]))
      · rw [(nextWorld_unstored h hname).1]
        exact h
  | update filename file =>
      by_cases hname : filename ∈ w.2.map File.name
      · obtain ⟨content, rfl⟩ := hvalid hname
        exact h.update hname hsize
      · rw [(nextWorld_unstored h hname).2]
        exact h

/-- A call that is not allowed breaks the integrity. -/
theorem Stored.next_breaks (h : Stored w) {c : Call} (hvalid : Valid w c) (hloss : ¬NoLoss w c) :
    ¬Integrity (nextWorld w c) := by
  obtain ⟨-, hvalid⟩ := hvalid
  cases c with
  | add filename file =>
      obtain ⟨-, content, rfl⟩ := hvalid
      exact h.add_breaks hloss
  | delete filename =>
      obtain ⟨hm, hlen⟩ := Classical.not_imp.1 hloss
      have hname : filename ∈ w.2.map File.name :=
        Classical.not_not.1 fun hname => hm (h.find_none hname)
      exact h.delete_breaks hname (Nat.not_le.1 hlen)
  | update filename file => exact absurd trivial hloss

end Steps

theorem Stored.empty : Stored (VFS.empty, []) where
  wf := ⟨[], ModelList.Wf.new⟩
  entries := rfl
  myvfs := rfl
  size := rfl
  nodup := List.nodup_nil
  few := by decide
  small := by decide

/-- A run of calls on a new file system keeps the integrity in every state if
and only if no add happens while `tail` is out of reach, and no counter
overflows. -/
theorem vfs_integrity_iff (calls : List Call)
    (hvalid : EachStep nextWorld Valid (VFS.empty, []) calls) :
    Always nextWorld Integrity (VFS.empty, []) calls ↔
      EachStep nextWorld NoLoss (VFS.empty, []) calls :=
  always_iff (fun _ h => h.integrity) (fun _ _ h hvalid => h.next hvalid)
    (fun _ _ h hvalid => h.next_breaks hvalid) Stored.empty hvalid

theorem vfs_integrity_iff_test :
    Always nextWorld Integrity (VFS.empty, [])
      [.add ['a'] (.readable [1, 2]), .add ['b'] (.readable [3]), .update ['a'] (.readable [4]),
        .delete ['a'], .add ['c'] (.readable [5])] := by
  refine (vfs_integrity_iff _ ?_).2 ?_
  · exact ⟨⟨by decide, by decide, _, rfl⟩, ⟨by decide, by decide, _, rfl⟩,
      ⟨by decide, fun _ => ⟨_, rfl⟩⟩, ⟨by decide, trivial⟩, ⟨by decide, by decide, _, rfl⟩, trivial⟩
  · exact ⟨⟨by decide, by decide⟩, ⟨by decide, by decide⟩, trivial, fun _ => by decide,
      ⟨by decide, by decide⟩, trivial⟩

/-- The last of two files is deleted and a third one is added. -/
def lostRun : List Call :=
  [.add ['a'] (.readable [1]), .add ['b'] (.readable [2]), .delete ['b'],
    .add ['c'] (.readable [3])]

/-- The third file is not in the list afterwards. -/
theorem lostRun_not_integrity :
    EachStep nextWorld Valid (VFS.empty, []) lostRun ∧
      ¬Always nextWorld Integrity (VFS.empty, []) lostRun := by
  constructor
  · exact ⟨⟨by decide, by decide, _, rfl⟩, ⟨by decide, by decide, _, rfl⟩, ⟨by decide, trivial⟩,
      ⟨by decide, by decide, _, rfl⟩, trivial⟩
  · intro h
    exact absurd h.2.2.2.2.names (by decide)

end MyJavaExample.Vfs
