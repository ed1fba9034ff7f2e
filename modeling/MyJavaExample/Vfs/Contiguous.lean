import Mathlib.Algebra.Order.BigOperators.Group.List
import MyJavaExample.Vfs.Integrity

/-!
# One delete and one update of a contiguous file system

Here a call starts from any state with a contiguous layout, however that state
came about: names may be stored more than once, and the `size` field of the list
need not be the number of its models.  A delete or an update concerns the first
model with the name.

The layout is that of a list of files (`Contiguous.exists_files`), so that the
lemmas on `layout` apply.  Two things go wrong near the limits of `int`:
`deleteDiskFile` throws for a `myvfs` of more than `2 ^ 31 - 1024` bytes, and
`updateDiskFile` computes the new length as an `int`.

A name is a path, and nothing keeps a path from leading to `myvfs` or to
`record`.  Such a file is another one after an update than it was before.
-/

namespace MyJavaExample.Vfs

open Java Lib

/-! ## The layout -/

/-- The bytes of an entry. -/
def VFS.slice (s : VFS) (e : Entry) : List UInt8 := (s.myvfs.drop e.off.toNat).take e.len.toNat

/-- The offsets are the running sums of the lengths, and the lengths add up to
that of `myvfs`. -/
structure Contiguous (s : VFS) : Prop where
  wf : ∃ l, s.ml.Wf l
  offsets : ∀ es₁ e es₂, s.ml.entries = es₁ ++ e :: es₂ → e.off = (es₁.map Entry.len).sum
  lens : ∀ e ∈ s.ml.entries, 0 ≤ e.len
  total : (s.ml.entries.map Entry.len).sum = s.myvfs.length

/-- `e` is the entry of the model that `findModel filename` finds. -/
structure Found (s : VFS) (filename : Name) (es₁ : List Entry) (e : Entry) (es₂ : List Entry) :
    Prop where
  entries : s.ml.entries = es₁ ++ e :: es₂
  name : e.filename = filename
  first : ∀ x ∈ es₁, x.filename ≠ filename

/-- Entries of two states that describe the same bytes. -/
structure SameFile (s s' : VFS) (e e' : Entry) : Prop where
  filename : e'.filename = e.filename
  len : e'.len = e.len
  bytes : s'.slice e' = s.slice e

/-- A delete returns, the bytes of `e` are cut out and each of the other entries
has kept its bytes. -/
structure Removed (s : VFS) (es₁ : List Entry) (e : Entry) (es₂ : List Entry) (o : Outcome) :
    Prop where
  returns : o.1 = .ok ()
  myvfs : o.2.myvfs = cut s.myvfs e.off.toNat e.len.toNat
  others : List.Forall₂ (SameFile s o.2) (es₁ ++ es₂) o.2.ml.entries

/-- The two files that the file system keeps its data in. -/
inductive OwnFile where
  | myvfs
  | record

/-- To which of the two a path leads, if to one of them, and the bytes that a
`FileWriter` makes of a text. -/
structure Paths where
  own : Name → Option OwnFile
  encode : List Char → List UInt8

/-- The bytes at a path in the state `s`, where `content` is what a disk file
has that is none of the two. -/
def Paths.bytes (paths : Paths) (filename : Name) (content : List UInt8) (s : VFS) : List UInt8 :=
  match paths.own filename with
  | none => content
  | some .myvfs => s.myvfs
  | some .record => paths.encode s.record

/-- An update returns, the bytes of the entry are the new content, which is also
found at the path, each of the other entries has kept its bytes, and the layout
is contiguous again. -/
structure Replaced (paths : Paths) (filename : Name) (content : List UInt8) (s : VFS)
    (es₁ es₂ : List Entry) (o : Outcome) : Prop where
  returns : o.1 = .ok ()
  contiguous : Contiguous o.2
  compares : compareDiskFile filename (.readable (paths.bytes filename content o.2)) o.2 = .ok true
  entries : ∃ es₁' e' es₂', o.2.ml.entries = es₁' ++ e' :: es₂' ∧ e'.filename = filename ∧
    o.2.slice e' = content ∧ List.Forall₂ (SameFile s o.2) es₁ es₁' ∧
    List.Forall₂ (SameFile s o.2) es₂ es₂'

section Layout

variable {s s' : VFS} {fs fs₁ fs₂ : List File} {f : File}

/-- Entries one after the other describe a list of files. -/
theorem exists_layout {es : List Entry} {v : List UInt8} {off : ℕ}
    (hoff : ∀ es₁ e es₂, es = es₁ ++ e :: es₂ → e.off = (off : ℤ) + (es₁.map Entry.len).sum)
    (hlen : ∀ e ∈ es, 0 ≤ e.len) (htotal : (es.map Entry.len).sum = v.length) :
    ∃ fs, es = layout off fs ∧ v = fs.flatMap File.content := by
  induction es generalizing off v with
  | nil =>
      have hv : v = [] := List.length_eq_zero_iff.1 (by simpa using htotal.symm)
      exact ⟨[], rfl, hv⟩
  | cons e es ih =>
      rw [List.map_cons, List.sum_cons] at htotal
      have he := hlen e List.mem_cons_self
      have hes : 0 ≤ (es.map Entry.len).sum := by
        refine List.sum_nonneg fun x hx => ?_
        obtain ⟨y, hy, rfl⟩ := List.mem_map.1 hx
        exact hlen y (List.mem_cons_of_mem e hy)
      have htake : (v.take e.len.toNat).length = e.len.toNat :=
        List.length_take_of_le (by omega)
      have heoff : e.off = off := by simpa using hoff [] e es rfl
      obtain ⟨fs, hfs, hv⟩ := @ih (v.drop e.len.toNat) (off + e.len.toNat)
        (fun es₁ x es₂ hes => by
          have hx := hoff (e :: es₁) x es₂ (by rw [hes, List.cons_append])
          rw [List.map_cons, List.sum_cons] at hx
          push_cast
          omega)
        (fun x hx => hlen x (List.mem_cons_of_mem e hx))
        (by rw [List.length_drop]; omega)
      refine ⟨⟨e.filename, v.take e.len.toNat⟩ :: fs, ?_, ?_⟩
      · rw [layout, htake, ← hfs, ← heoff, Int.toNat_of_nonneg he]
      · rw [List.flatMap_cons, ← hv, List.take_append_drop]

/-- The files of a contiguous file system. -/
theorem Contiguous.exists_files (h : Contiguous s) :
    ∃ fs, s.ml.entries = layout 0 fs ∧ s.myvfs = fs.flatMap File.content :=
  exists_layout (fun es₁ e es₂ hes => by simpa using h.offsets es₁ e es₂ hes) h.lens h.total

theorem Contiguous.of_layout (hwf : ∃ l, s.ml.Wf l) (hes : s.ml.entries = layout 0 fs)
    (hv : s.myvfs = fs.flatMap File.content) : Contiguous s := by
  refine ⟨hwf, ?_, ?_, ?_⟩
  · intro es₁ e es₂ h
    rw [hes] at h
    obtain ⟨fs₁, f, fs₂, -, rfl, rfl⟩ := layout_split h
    rw [layout_len_sum]
    simp
  · intro e he
    obtain ⟨es₁, es₂, h⟩ := List.append_of_mem he
    rw [hes] at h
    obtain ⟨fs₁, f, fs₂, -, -, rfl⟩ := layout_split h
    exact Int.natCast_nonneg _
  · rw [hes, layout_len_sum, hv]
    rfl

/-- The files around the one that a call names. -/
theorem Contiguous.exists_found {filename : Name} {es₁ es₂ : List Entry} {e : Entry}
    (h : Contiguous s) (hfound : Found s filename es₁ e es₂) :
    ∃ fs₁ f fs₂, s.ml.entries = layout 0 (fs₁ ++ f :: fs₂) ∧
      s.myvfs = (fs₁ ++ f :: fs₂).flatMap File.content ∧ f.name = filename ∧
      es₁ = layout 0 fs₁ ∧ e = ⟨f.name, totalSize fs₁, f.content.length⟩ ∧
      es₂ = layout (totalSize fs₁ + f.content.length) fs₂ := by
  obtain ⟨fs, hes, hv⟩ := h.exists_files
  obtain ⟨fs₁, f, fs₂, rfl, rfl, he⟩ := layout_split (hes.symm.trans hfound.entries)
  rw [Nat.zero_add] at he
  have hsplit := layout_middle.symm.trans (hes.symm.trans hfound.entries)
  rw [he, List.append_cancel_left_eq, List.cons.injEq] at hsplit
  have hname := hfound.name
  rw [he] at hname
  exact ⟨fs₁, f, fs₂, hes, hv, hname, rfl, he, hsplit.2.symm⟩

/-- Files that are stored at two places. -/
theorem sameFile_layout {pre post pre' post' : List UInt8}
    (hs : s.myvfs = pre ++ fs.flatMap File.content ++ post)
    (hs' : s'.myvfs = pre' ++ fs.flatMap File.content ++ post') :
    List.Forall₂ (SameFile s s') (layout pre.length fs) (layout pre'.length fs) := by
  induction fs generalizing pre pre' with
  | nil => exact .nil
  | cons f fs ih =>
      rw [List.flatMap_cons, ← List.append_assoc] at hs hs'
      rw [layout, layout, ← List.length_append, ← List.length_append]
      refine .cons ⟨rfl, rfl, ?_⟩ (ih hs hs')
      simp [VFS.slice, hs, hs', List.append_assoc]

/-- The files before `f` stay where they are. -/
theorem sameFile_before {post' : List UInt8}
    (hs : s.myvfs = (fs₁ ++ f :: fs₂).flatMap File.content)
    (hs' : s'.myvfs = fs₁.flatMap File.content ++ post') :
    List.Forall₂ (SameFile s s') (layout 0 fs₁) (layout 0 fs₁) := by
  have hs₁ : s.myvfs = [] ++ fs₁.flatMap File.content ++ (f.content ++ fs₂.flatMap File.content) := by
    simp [hs]
  have hs₁' : s'.myvfs = [] ++ fs₁.flatMap File.content ++ post' := hs'
  exact sameFile_layout hs₁ hs₁'

/-- The files after `f` move. -/
theorem sameFile_after {pre' : List UInt8}
    (hs : s.myvfs = (fs₁ ++ f :: fs₂).flatMap File.content)
    (hs' : s'.myvfs = pre' ++ fs₂.flatMap File.content) :
    List.Forall₂ (SameFile s s') (layout (totalSize fs₁ + f.content.length) fs₂)
      (layout pre'.length fs₂) := by
  have hpre : totalSize fs₁ + f.content.length =
      (fs₁.flatMap File.content ++ f.content).length := by
    rw [List.length_append]
    rfl
  have hs₂ : s.myvfs = fs₁.flatMap File.content ++ f.content ++ fs₂.flatMap File.content ++ [] := by
    simp [hs]
  rw [hpre]
  exact sameFile_layout hs₂ (hs'.trans (List.append_nil _).symm)

/-- The length of the contents around one file. -/
theorem length_middle {fs₁ fs₂ : List File} {f : File} {v : List UInt8}
    (hv : v = (fs₁ ++ f :: fs₂).flatMap File.content) :
    v.length = totalSize fs₁ + (f.content.length + totalSize fs₂) := by
  rw [hv, ← totalSize_cons, ← totalSize_append]
  rfl

theorem SameFile.len_sum {es es' : List Entry} (h : List.Forall₂ (SameFile s s') es es') :
    (es'.map Entry.len).sum = (es.map Entry.len).sum := by
  induction h with
  | nil => rfl
  | cons h _ ih => rw [List.map_cons, List.map_cons, List.sum_cons, List.sum_cons, ih, h.len]

end Layout

section Calls

variable {s : VFS} {filename : Name} {es₁ es₂ : List Entry} {e : Entry}

/-- The model of the entry. -/
theorem Found.find_some (hwf : ∃ l, s.ml.Wf l) (hfound : Found s filename es₁ e es₂) :
    ∃ m, s.ml.findModel filename = some m ∧ (s.ml.heap m).off = e.off ∧
      (s.ml.heap m).len = e.len := by
  obtain ⟨l, hwf⟩ := hwf
  have hfind := hwf.find_entries filename
  have hnone : es₁.find? (fun x => x.filename = filename) = none :=
    List.find?_eq_none.2 fun x hx => by simpa using hfound.first x hx
  rw [hfound.entries, List.find?_append, hnone, Option.none_or,
    List.find?_cons_of_pos (by simpa using hfound.name)] at hfind
  obtain ⟨m, hm, hentry⟩ := Option.map_eq_some_iff.1 hfind
  exact ⟨m, hm, congrArg Entry.off hentry, congrArg Entry.len hentry⟩

/-- A name that is stored has a first entry. -/
theorem exists_found (hname : filename ∈ s.ml.entries.map Entry.filename) :
    ∃ es₁ e es₂, Found s filename es₁ e es₂ := by
  obtain ⟨x, hx, hfilename⟩ := List.mem_map.1 hname
  obtain ⟨e, he⟩ : ∃ e, s.ml.entries.find? (fun x => x.filename = filename) = some e :=
    Option.isSome_iff_exists.1 (List.find?_isSome.2 ⟨x, hx, by simpa using hfilename⟩)
  obtain ⟨hename, es₁, es₂, hes, h₁⟩ := List.find?_eq_some_iff_append.1 he
  exact ⟨es₁, e, es₂, hes, by simpa using hename, fun y hy => by simpa using h₁ y hy⟩

theorem Stored.contiguous {w : VFS × List File} (h : Stored w) : Contiguous w.1 :=
  .of_layout h.wf h.entries h.myvfs

/-- A file system with one file. -/
def oneFile (content : List UInt8) : VFS := VFS.empty.step (.add ['a'] (.readable content))

theorem oneFile_stored {content : List UInt8} (h : content.length < 2 ^ 31) :
    Stored (oneFile content, [⟨['a'], content⟩]) := by
  refine Stored.empty.add (by simp) ?_ (by decide) (by decide)
  simpa [totalSize] using h

theorem oneFile_found {content : List UInt8} (h : content.length < 2 ^ 31) :
    Found (oneFile content) ['a'] [] ⟨['a'], 0, content.length⟩ [] :=
  ⟨(oneFile_stored h).entries, rfl, by simp⟩

theorem oneFile_length {content : List UInt8} (h : content.length < 2 ^ 31) :
    (oneFile content).myvfs.length = content.length := by
  simpa using congrArg List.length (oneFile_stored h).myvfs

/-- A file system with two files. -/
def twoFiles : VFS := (oneFile [1, 2]).step (.add ['b'] (.readable [3]))

theorem twoFiles_stored : Stored (twoFiles, [⟨['a'], [1, 2]⟩, ⟨['b'], [3]⟩]) :=
  @Stored.add (oneFile [1, 2], _) ['b'] [3] (oneFile_stored (by decide)) (by decide) (by decide)
    (by decide) (by decide)

theorem twoFiles_found : Found twoFiles ['a'] [] ⟨['a'], 0, 2⟩ [⟨['b'], 2, 1⟩] :=
  ⟨twoFiles_stored.entries, rfl, by simp⟩

/-! ## Delete -/

/-- The bytes of the entry are cut out. -/
theorem Contiguous.deleteBytes_eq {m : ℕ} (h : Contiguous s) (hfound : Found s filename es₁ e es₂)
    (hlen : s.myvfs.length ≤ 2 ^ 31 - 1024) (hoff : (s.ml.heap m).off = e.off)
    (hmlen : (s.ml.heap m).len = e.len) :
    deleteBytes s.myvfs (s.ml.heap m).off (s.ml.heap m).len =
      (.ok (), cut s.myvfs e.off.toNat e.len.toNat) := by
  obtain ⟨fs₁, f, fs₂, -, hv, -, -, rfl, -⟩ := h.exists_found hfound
  have htotal := length_middle hv
  rw [hoff, hmlen]
  exact Vfs.deleteBytes_eq hlen (by omega)

theorem Contiguous.delete (h : Contiguous s) (hfound : Found s filename es₁ e es₂)
    (hlen : s.myvfs.length ≤ 2 ^ 31 - 1024) (hsize : 0 < s.ml.size) :
    Removed s es₁ e es₂ (deleteDiskFile filename s) := by
  obtain ⟨m, hm, hoff, hmlen⟩ := hfound.find_some h.wf
  have hbytes := h.deleteBytes_eq hfound hlen hoff hmlen
  obtain ⟨fs₁, f, fs₂, -, hv, hname, rfl, rfl, rfl⟩ := h.exists_found hfound
  obtain ⟨l, hwf⟩ := h.wf
  obtain ⟨ml, l', hdelete, -, hentries, -⟩ := hwf.deleteModel_eq hsize hm
  have hcut := hv ▸ @cut_middle fs₁ fs₂ f
  have htotal := length_middle hv
  have hfit : totalSize fs₁ + totalSize fs₂ < 2 ^ 31 := by omega
  rw [List.flatMap_append] at hcut
  rw [deleteDiskFile_ok hm hbytes hdelete]
  refine ⟨rfl, rfl, ?_⟩
  simp only [hentries, hfound.entries]
  rw [Entry.delete_append hfound.first hname,
    @layout_shift fs₂ _ (totalSize fs₁) _ (by simp) hfit]
  exact List.rel_append (sameFile_before hv hcut) (sameFile_after hv hcut)

/-- Above the limit a delete throws. -/
theorem Found.not_removed (hwf : ∃ l, s.ml.Wf l) (hfound : Found s filename es₁ e es₂)
    (hlen : 2 ^ 31 - 1024 < s.myvfs.length) (hsmall : s.myvfs.length < 2 ^ 31) :
    ¬Removed s es₁ e es₂ (deleteDiskFile filename s) := by
  intro hremoved
  obtain ⟨m, hm, -⟩ := hfound.find_some hwf
  have hreturns := hremoved.returns
  rw [deleteDiskFile_error hm (deleteBytes_overflow hlen hsmall _ _)] at hreturns
  cases hreturns

/-- `deleteModel` does nothing when `size` is not positive. -/
theorem Contiguous.size_pos_of_removed (h : Contiguous s) (hfound : Found s filename es₁ e es₂)
    (hlen : s.myvfs.length ≤ 2 ^ 31 - 1024)
    (hremoved : Removed s es₁ e es₂ (deleteDiskFile filename s)) : 0 < s.ml.size := by
  by_contra hsize
  obtain ⟨m, hm, hoff, hmlen⟩ := hfound.find_some h.wf
  have hdelete : s.ml.deleteModel m = .ok s.ml := if_pos (Int.not_lt.1 hsize)
  have hothers := hremoved.others.length_eq
  rw [deleteDiskFile_ok hm (h.deleteBytes_eq hfound hlen hoff hmlen) hdelete] at hothers
  simp only [hfound.entries, List.length_append, List.length_cons] at hothers
  omega

/-- `deleteDiskFile` removes the stored file and no other if and only if its
copying loops do not overflow and `size` counts the model. -/
theorem deleteDiskFile_removes_iff (h : Contiguous s) (hsmall : s.myvfs.length < 2 ^ 31)
    (hfound : Found s filename es₁ e es₂) :
    Removed s es₁ e es₂ (deleteDiskFile filename s) ↔
      s.myvfs.length ≤ 2 ^ 31 - 1024 ∧ 0 < s.ml.size := by
  constructor
  · intro hremoved
    have hlen : s.myvfs.length ≤ 2 ^ 31 - 1024 :=
      Nat.not_lt.1 fun hlt => hfound.not_removed h.wf hlt hsmall hremoved
    exact ⟨hlen, h.size_pos_of_removed hfound hlen hremoved⟩
  · rintro ⟨hlen, hsize⟩
    exact h.delete hfound hlen hsize

theorem twoFiles_removed :
    Removed twoFiles [] ⟨['a'], 0, 2⟩ [⟨['b'], 2, 1⟩] (deleteDiskFile ['a'] twoFiles) :=
  (deleteDiskFile_removes_iff twoFiles_stored.contiguous (by decide) twoFiles_found).2
    ⟨by decide, by decide⟩

/-- The counter of the reading loop overflows before it reaches the length. -/
theorem oneFile_not_removed {content : List UInt8} (hlow : 2 ^ 31 - 1024 < content.length)
    (hsmall : content.length < 2 ^ 31) :
    Contiguous (oneFile content) ∧ (oneFile content).myvfs.length < 2 ^ 31 ∧
      Found (oneFile content) ['a'] [] ⟨['a'], 0, content.length⟩ [] ∧
      ¬Removed (oneFile content) [] ⟨['a'], 0, content.length⟩ []
        (deleteDiskFile ['a'] (oneFile content)) := by
  have hstored := oneFile_stored hsmall
  have hfound := oneFile_found hsmall
  have hlen := oneFile_length hsmall
  refine ⟨hstored.contiguous, by omega, hfound, ?_⟩
  exact hfound.not_removed hstored.wf (by omega) (by omega)

theorem long_not_removed :
    Contiguous (oneFile (List.replicate (2 ^ 31 - 1000) 0)) ∧
      (oneFile (List.replicate (2 ^ 31 - 1000) 0)).myvfs.length < 2 ^ 31 ∧
      Found (oneFile (List.replicate (2 ^ 31 - 1000) 0)) ['a'] []
        ⟨['a'], 0, (List.replicate (2 ^ 31 - 1000) (0 : UInt8)).length⟩ [] ∧
      ¬Removed (oneFile (List.replicate (2 ^ 31 - 1000) 0)) []
        ⟨['a'], 0, (List.replicate (2 ^ 31 - 1000) (0 : UInt8)).length⟩ []
        (deleteDiskFile ['a'] (oneFile (List.replicate (2 ^ 31 - 1000) 0))) := by
  have hlen : (List.replicate (2 ^ 31 - 1000) (0 : UInt8)).length = 2 ^ 31 - 1000 :=
    List.length_replicate
  exact oneFile_not_removed (by omega) (by omega)

/-! ## Update -/

theorem copyLoop_length {fuel : ℕ} {src : List UInt8} {j stop : ℤ} {dst dst' : List UInt8 × ℕ}
    (h : copyLoop fuel src j stop dst = .ok dst') : dst'.1.length = dst.1.length := by
  induction fuel generalizing j dst with
  | zero =>
      cases h
      rfl
  | succ fuel ih =>
      obtain ⟨data3, i⟩ := dst
      rw [copyLoop] at h
      split at h
      · split at h
        · rw [ih h, List.length_set]
        · cases h
      · cases h
        rfl

theorem spliceLoops_length {data2 data bs : List UInt8} {off mlen len len2 len3 : ℤ}
    (h : spliceLoops data2 data off mlen len len2 len3 = .ok bs) : bs.length = len3.toNat := by
  obtain ⟨dst₁, h₁, h⟩ := bind_eq_ok h
  obtain ⟨dst₂, h₂, h⟩ := bind_eq_ok h
  obtain ⟨dst₃, h₃, h⟩ := bind_eq_ok h
  cases h
  rw [copyLoop_length h₃, copyLoop_length h₂, copyLoop_length h₁, List.length_replicate]

/-- The new bytes of `myvfs` fit into an array. -/
theorem updateBytes_length {myvfs bs : List UInt8} {off mlen : ℤ} {file : DiskFile}
    (h : updateBytes myvfs off mlen file = .ok (some bs)) : bs.length < 2 ^ 31 := by
  have hupper := toInt32_upper (toInt32 myvfs.length - mlen + toInt32 file.length)
  simp only [updateBytes] at h
  split_ifs at h
  · cases h
  · cases h
  · obtain ⟨bs', hloops, hbs⟩ := bind_eq_ok (f := fun bs => .ok (some bs)) h
    cases hbs
    rw [spliceLoops_length hloops]
    omega

theorem updateDiskFile_length (filename : Name) (file : DiskFile)
    (hsmall : s.myvfs.length < 2 ^ 31) :
    (updateDiskFile filename file s).2.myvfs.length < 2 ^ 31 := by
  by_cases h : ∀ m bs, s.ml.findModel filename = some m →
      compareDiskFile filename file s = .ok false →
      updateBytes s.myvfs (s.ml.heap m).off (s.ml.heap m).len file ≠ .ok (some bs)
  · rw [updateDiskFile_unchanged h]
    exact hsmall
  · push Not at h
    obtain ⟨m, bs, hm, hcompare, hbytes⟩ := h
    rw [updateDiskFile_ok hm hcompare hbytes]
    exact updateBytes_length hbytes

/-- The lines of entries, of which there are none in a list of size 0. -/
def recordText (size : ℤ) (es : List Entry) : List Char :=
  es.flatMap fun e => if size ≠ 0 then e.line else []

/-- The entries with the length `len` for `e`, and the later ones moved by the
difference. -/
def resized (es₁ : List Entry) (e : Entry) (es₂ : List Entry) (len : ℕ) : List Entry :=
  es₁ ++ { e with len } :: es₂.map fun x => { x with off := x.off + (len - e.len) }

theorem layout_moved {fs : List File} {a b : ℕ} {d : ℤ} (hd : (b : ℤ) = a + d) :
    ((layout a fs).map fun x => { x with off := x.off + d }) = layout b fs := by
  induction fs generalizing a b with
  | nil => rfl
  | cons f fs ih =>
      have hrest := @ih (a + f.content.length) (b + f.content.length) (by omega)
      rw [layout, List.map_cons, hrest, layout, ← hd]

theorem resized_layout {fs₁ fs₂ : List File} {f : File} (content : List UInt8) :
    resized (layout 0 fs₁) ⟨f.name, totalSize fs₁, f.content.length⟩
        (layout (totalSize fs₁ + f.content.length) fs₂) content.length =
      layout 0 (fs₁ ++ ⟨f.name, content⟩ :: fs₂) := by
  rw [resized, layout_middle, layout_moved (b := totalSize fs₁ + content.length)]
  push_cast
  ring

/-- The path has the content after an update that stores another one than the old:
it does not lead to `myvfs`, and if it leads to `record`, the lines of the resized
entries are the content. -/
def KeptAt (paths : Paths) (filename : Name) (content : List UInt8) (s : VFS) (es₁ : List Entry)
    (e : Entry) (es₂ : List Entry) : Prop :=
  match paths.own filename with
  | none => True
  | some .myvfs => False
  | some .record =>
      Rereads (paths.encode (recordText s.ml.size (resized es₁ e es₂ content.length))) content

section Replace

variable {paths : Paths} {content : List UInt8}

/-- An update has replaced the content when the new state is laid out with the
new content in the place of `f`, and the content is found at the path. -/
theorem Replaced.of_layout {fs₁ fs₂ : List File} {f : File} {o : Outcome}
    (hv : s.myvfs = (fs₁ ++ f :: fs₂).flatMap File.content) (hreturns : o.1 = .ok ())
    (hwf : ∃ l, o.2.ml.Wf l) (hes' : o.2.ml.entries = layout 0 (fs₁ ++ ⟨filename, content⟩ :: fs₂))
    (hv' : o.2.myvfs = (fs₁ ++ ⟨filename, content⟩ :: fs₂).flatMap File.content)
    (hfirst : ∀ x ∈ layout 0 fs₁, x.filename ≠ filename) :
    Replaced paths filename content s (layout 0 fs₁)
      (layout (totalSize fs₁ + f.content.length) fs₂) o ↔
      Rereads (paths.bytes filename content o.2) content := by
  have hmiddle := hes'.trans layout_middle
  have hslice : (o.2.myvfs.drop (totalSize fs₁)).take content.length = content := by
    rw [hv']
    exact slice_middle (f := ⟨filename, content⟩)
  have hfound : Found o.2 filename (layout 0 fs₁) ⟨filename, totalSize fs₁, content.length⟩
      (layout (totalSize fs₁ + content.length) fs₂) := ⟨hmiddle, rfl, hfirst⟩
  obtain ⟨m, hm, hoff, hmlen⟩ := hfound.find_some hwf
  have htotal : totalSize fs₁ + content.length ≤ o.2.myvfs.length := by
    have hlen := length_middle hv'
    simp only at hlen
    omega
  have hpre : totalSize fs₁ + content.length = (fs₁.flatMap File.content ++ content).length := by
    rw [List.length_append]
    rfl
  have hcompare := @compareDiskFile_iff o.2 filename m _ _ (paths.bytes filename content o.2) hm hoff
    hmlen htotal
  rw [hslice] at hcompare
  refine ⟨fun h => hcompare.1 h.compares, fun hreads => ⟨hreturns, .of_layout hwf hes' hv',
    hcompare.2 hreads, _, _, _, hmiddle, rfl, hslice, ?_, ?_⟩⟩
  · have hbefore : o.2.myvfs = fs₁.flatMap File.content ++ (content ++ fs₂.flatMap File.content) := by
      simp [hv']
    exact sameFile_before hv hbefore
  · rw [hpre]
    refine sameFile_after hv ?_
    simp [hv']

/-- A content between others is all that is read only if the others are empty. -/
theorem rereads_middle {fs₁ fs₂ : List File} {v : List UInt8}
    (hv : v = (fs₁ ++ ⟨filename, content⟩ :: fs₂).flatMap File.content) (hreads : Rereads v content)
    (hnew : totalSize fs₁ + content.length + totalSize fs₂ < 2 ^ 31) :
    fs₁.flatMap File.content = [] ∧ fs₂.flatMap File.content = [] := by
  have htotal : v.length = totalSize fs₁ + (content.length + totalSize fs₂) := length_middle hv
  have hlength := hreads.1
  rw [htotal, toInt32_of_range (by omega) (by omega)] at hlength
  have hbefore : totalSize fs₁ = 0 := by omega
  have hafter : totalSize fs₂ = 0 := by omega
  exact ⟨List.length_eq_zero_iff.1 hbefore, List.length_eq_zero_iff.1 hafter⟩

/-- An update with a content that fits. -/
theorem Contiguous.update (h : Contiguous s) (hsmall : s.myvfs.length < 2 ^ 31)
    (hfound : Found s filename es₁ e es₂) (hpath : paths.bytes filename content s = content)
    (hnew : s.myvfs.length - e.len + content.length < 2 ^ 31) :
    Replaced paths filename content s es₁ es₂ (updateDiskFile filename (.readable content) s) ↔
      content = s.slice e ∨ KeptAt paths filename content s es₁ e es₂ := by
  obtain ⟨m, hm, hoff, hmlen⟩ := hfound.find_some h.wf
  obtain ⟨fs₁, f, fs₂, hes, hv, hname, rfl, rfl, rfl⟩ := h.exists_found hfound
  have htotal := length_middle hv
  have hslice : (s.myvfs.drop (totalSize fs₁)).take f.content.length = f.content := by
    rw [hv, slice_middle]
  have hentry : s.slice ⟨f.name, totalSize fs₁, f.content.length⟩ = f.content := hslice
  simp only at hnew
  have hcontent : content.length < 2 ^ 31 := by omega
  have hcompare := compareDiskFile_eq hm hoff hmlen (by omega) hcontent
  rw [hslice] at hcompare
  rw [hentry]
  by_cases hsame : content = f.content
  · -- the content is not written again
    have hfile : f = ⟨filename, content⟩ := by rw [hsame, ← hname]
    rw [updateDiskFile_same hm (hcompare.trans (congrArg Except.ok (decide_eq_true hsame)))]
    refine iff_of_true ((Replaced.of_layout hv rfl h.wf (hfile ▸ hes) (hfile ▸ hv) hfound.first).2 ?_)
      (.inl hsame)
    rw [hpath]
    exact rereads_self hcontent
  · have hbytes := @updateBytes_eq s.myvfs content hsmall hcontent (totalSize fs₁)
      f.content.length (by omega) (by omega)
    have hdiffer := hcompare.trans (congrArg Except.ok (decide_eq_false hsame))
    obtain ⟨l, hwf⟩ := h.wf
    obtain ⟨hwf', hentries, -⟩ :=
      hwf.updateModel_eq hm (s.ml.heap m).off (toInt32 content.length)
    have hlen : toInt32 (content.length : ℤ) = content.length := toInt32_length hcontent
    have hdiff : toInt32 ((content.length : ℤ) - f.content.length) =
        content.length - f.content.length := toInt32_of_range (by omega) (by omega)
    have hsplice := hv ▸ splice_middle content filename
    rw [updateDiskFile_ok hm hdiffer (by rw [hoff, hmlen]; exact hbytes)]
    have hnewLayout : (s.ml.updateModel filename (s.ml.heap m).off (toInt32 content.length)).entries =
        layout 0 (fs₁ ++ ⟨filename, content⟩ :: fs₂) := by
      rw [hentries, hfound.entries, Entry.update_append hfound.first hname, hlen, hdiff, layout_middle,
        hoff, @layout_shift fs₂ _ (totalSize fs₁ + content.length) _ (by push_cast; ring) (by omega)]
    refine Iff.trans (Replaced.of_layout hv rfl ⟨l, hwf'⟩ hnewLayout hsplice hfound.first) ?_
    rw [or_iff_right hsame]
    unfold Paths.bytes at hpath ⊢
    unfold KeptAt
    cases hown : paths.own filename with
    | none => exact iff_of_true (rereads_self hcontent) trivial
    | some f' =>
        rw [hown] at hpath
        cases f' with
        | myvfs =>
            -- `myvfs` was the content, so the entry is all of it if the length is kept
            refine iff_of_false (fun hreads => hsame ?_) id
            obtain ⟨hbefore, hafter⟩ := rereads_middle hsplice hreads (by omega)
            have hcontents : s.myvfs = content := hpath
            rw [← hcontents, hv, List.flatMap_append, List.flatMap_cons, hbefore, hafter,
              List.nil_append, List.append_nil]
        | record =>
            -- the record is written for the new list
            have hsize := (hwf.updateModel_eq hm (s.ml.heap m).off (toInt32 content.length)).2.2
            have hrecord : writeModelList
                (s.ml.updateModel filename (s.ml.heap m).off (toInt32 content.length)) =
                  recordText s.ml.size (resized (layout 0 fs₁) ⟨f.name, totalSize fs₁, f.content.length⟩
                    (layout (totalSize fs₁ + f.content.length) fs₂) content.length) := by
              rw [resized_layout, hname, writeModelList, hnewLayout, hsize, recordText]
            exact iff_of_eq (congrArg (fun text => Rereads (paths.encode text) content) hrecord)

/-- The entries after an update tell the new length of `myvfs`. -/
theorem Replaced.length_le {o : Outcome} (h : Contiguous s) (hfound : Found s filename es₁ e es₂)
    (hreplaced : Replaced paths filename content s es₁ es₂ o) :
    s.myvfs.length - e.len + content.length ≤ o.2.myvfs.length := by
  obtain ⟨es₁', e', es₂', hes', -, hslice, h₁, h₂⟩ := hreplaced.entries
  have htotal := h.total
  have htotal' := hreplaced.contiguous.total
  have hlen' : 0 ≤ e'.len := hreplaced.contiguous.lens e' (by rw [hes']; simp)
  have hcontent : content.length ≤ e'.len.toNat := by
    rw [← hslice]
    exact List.length_take_le _ _
  rw [hfound.entries, List.map_append, List.map_cons, List.sum_append, List.sum_cons] at htotal
  rw [hes', List.map_append, List.map_cons, List.sum_append, List.sum_cons, SameFile.len_sum h₁,
    SameFile.len_sum h₂] at htotal'
  omega

/-- `updateDiskFile` replaces the stored file and no other if and only if the
new bytes of `myvfs` fit into an array and, unless the content is stored already,
the path still has it afterwards. -/
theorem updateDiskFile_replaces_iff (h : Contiguous s) (hsmall : s.myvfs.length < 2 ^ 31)
    (hfound : Found s filename es₁ e es₂) (hpath : paths.bytes filename content s = content) :
    Replaced paths filename content s es₁ es₂ (updateDiskFile filename (.readable content) s) ↔
      s.myvfs.length - e.len + content.length < 2 ^ 31 ∧
        (content = s.slice e ∨ KeptAt paths filename content s es₁ e es₂) := by
  constructor
  · intro hreplaced
    have hle := hreplaced.length_le h hfound
    have hlt := updateDiskFile_length filename (.readable content) hsmall
    have hnew : s.myvfs.length - e.len + content.length < 2 ^ 31 := by omega
    exact ⟨hnew, (h.update hsmall hfound hpath hnew).1 hreplaced⟩
  · rintro ⟨hnew, hkept⟩
    exact (h.update hsmall hfound hpath hnew).2 hkept

end Replace

/-- The file system is in the directory `d`, and texts are in ASCII. -/
def asciiPaths : Paths where
  own filename :=
    if filename = ['d', '/', 'm', 'y', 'v', 'f', 's'] then some .myvfs
    else if filename = ['d', '/', 'r', 'e', 'c', 'o', 'r', 'd'] then some .record
    else none
  encode text := text.map fun c => UInt8.ofNat c.toNat

theorem twoFiles_replaced :
    Replaced asciiPaths ['a'] [4, 5, 6] twoFiles [] [⟨['b'], 2, 1⟩]
      (updateDiskFile ['a'] (.readable [4, 5, 6]) twoFiles) :=
  (updateDiskFile_replaces_iff twoFiles_stored.contiguous (by decide) twoFiles_found rfl).2
    ⟨by decide, .inr trivial⟩

/-- The length of the disk file is cast to an `int`: nothing of it is stored. -/
theorem long_not_replaced :
    Contiguous (oneFile [1]) ∧ (oneFile [1]).myvfs.length < 2 ^ 31 ∧
      Found (oneFile [1]) ['a'] [] ⟨['a'], 0, 1⟩ [] ∧ asciiPaths.own ['a'] = none ∧
      ¬Replaced asciiPaths ['a'] (List.replicate (2 ^ 32) 0) (oneFile [1]) [] []
        (updateDiskFile ['a'] (.readable (List.replicate (2 ^ 32) 0)) (oneFile [1])) := by
  have hstored := @oneFile_stored [1] (by decide)
  have hlen := @oneFile_length [1] (by decide)
  have hfound := @oneFile_found [1] (by decide)
  rw [List.length_singleton] at hlen
  refine ⟨hstored.contiguous, by omega, hfound, rfl, fun hreplaced => ?_⟩
  have hle := hreplaced.length_le hstored.contiguous hfound
  have hlt := updateDiskFile_length ['a'] (.readable (List.replicate (2 ^ 32) 0))
    (show (oneFile [1]).myvfs.length < 2 ^ 31 by omega)
  rw [List.length_replicate, hlen] at hle
  simp only [List.length_singleton] at hle
  omega

end Calls

end MyJavaExample.Vfs
