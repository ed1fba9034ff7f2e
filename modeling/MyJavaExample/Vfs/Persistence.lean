import MyJavaExample.Lib.Run
import MyJavaExample.Vfs.Bytes
import MyJavaExample.Vfs.Record

/-!
# The record file over whole runs

A new `MyVFS` on the same directory reads the record file into a list.  It is
the list in memory as long as each added name has no space and no line break in
it, and no file is added while `tail` is out of reach: such a file has a line in
the record but no model in the list.  The first add that is different makes the
two lists differ at once.
-/

namespace MyJavaExample.Vfs

open Java Lib

section Digit

variable (digit : Char → Option ℕ)

/-- `initDiskFileDir` rebuilds the list in memory from the record file. -/
def RoundTrip (s : VFS) : Prop :=
  ∃ ml, initDiskFileDir digit s.record = .ok ml ∧ ml.entries = s.ml.entries

end Digit

/-- The calls the property is about: adding a file does not fail half-way. -/
def IOSuccess (_ : VFS) : Call → Prop
  | .add _ file => file = .missing ∨ ∃ content, file = .readable content
  | _ => True

/-- `size` does not overflow. -/
def FewFiles (s : VFS) : Call → Prop
  | .add _ _ => s.ml.size < 2 ^ 31 - 1
  | _ => True

/-- The condition on the state before a call under which the record file stays
that of the list. -/
def Recordable (s : VFS) : Call → Prop
  | .add filename (.readable _) => Clean filename ∧ s.ml.TailReachable
  | _ => True

instance (s : VFS) : (c : Call) → Decidable (FewFiles s c)
  | .add _ _ => inferInstanceAs (Decidable (_ < _))
  | .delete _ => inferInstanceAs (Decidable True)
  | .update _ _ => inferInstanceAs (Decidable True)

instance (s : VFS) : (c : Call) → Decidable (Recordable s c)
  | .add _ (.readable _) => inferInstanceAs (Decidable (_ ∧ _))
  | .add _ .missing => inferInstanceAs (Decidable True)
  | .add _ (.unopenable _) => inferInstanceAs (Decidable True)
  | .add _ (.damaged _ _) => inferInstanceAs (Decidable True)
  | .delete _ => inferInstanceAs (Decidable True)
  | .update _ _ => inferInstanceAs (Decidable True)

/-- The record file is the text of the list, and all of it can be read back. -/
structure Recorded (s : VFS) : Prop where
  wf : ∃ l, s.ml.Wf l
  record : s.record = s.ml.entries.flatMap Entry.line
  entries : ∀ e ∈ s.ml.entries, Clean e.filename ∧ e.InRange
  size : s.ml.size = s.ml.entries.length
  few : s.ml.entries.length < 2 ^ 31

/-! ## The two writers -/

/-- A list that is not longer than its `size` says is written as a whole. -/
theorem writeModelList_eq {ml : ModelList} (h : ml.size = ml.entries.length) :
    writeModelList ml = ml.entries.flatMap Entry.line := by
  rw [writeModelList]
  cases hes : ml.entries with
  | nil => rfl
  | cons e es =>
      rw [hes, List.length_cons] at h
      simp only [if_pos (show ml.size ≠ 0 by omega)]

theorem toInt32_toInt32 (x : ℤ) : toInt32 (toInt32 x) = toInt32 x := by
  simpa using toInt32_add_left x 0

theorem Entry.shift_inRange {e : Entry} (h : e.InRange) (d : ℤ) : (e.shift d).InRange :=
  ⟨toInt32_toInt32 _, h.2⟩

/-- Moved entries can be read back if the entries could. -/
theorem readable_shift {es : List Entry} (h : ∀ e ∈ es, Clean e.filename ∧ e.InRange) (d : ℤ) :
    ∀ e ∈ es.map (Entry.shift d), Clean e.filename ∧ e.InRange := by
  intro e he
  obtain ⟨e₀, he₀, rfl⟩ := List.mem_map.1 he
  exact ⟨(h e₀ he₀).1, Entry.shift_inRange (h e₀ he₀).2 d⟩

section Steps

variable {s : VFS} {filename : Name} {m : ℕ}

/-- The entries around that of a model. -/
theorem Recorded.split (h : Recorded s) (hm : s.ml.findModel filename = some m) :
    ∃ es₁ es₂, s.ml.entries = es₁ ++ (s.ml.heap m).entry :: es₂ ∧
      (∀ e ∈ es₁, e.filename ≠ filename) ∧ (s.ml.heap m).entry.filename = filename := by
  obtain ⟨l, hwf⟩ := h.wf
  obtain ⟨hname, l₁, l₂, rfl, h₁⟩ := hwf.split_of_find hm
  exact ⟨_, _, hwf.entries_split, ModelList.entry_filename_ne h₁, hname⟩

/-- The state after the list has been written as a whole. -/
theorem Recorded.write {ml : ModelList} {l : List ℕ} (hwf : ml.Wf l)
    (hentries : ∀ e ∈ ml.entries, Clean e.filename ∧ e.InRange)
    (hsize : ml.size = ml.entries.length) (hfew : ml.entries.length < 2 ^ 31)
    (hml : s.ml = ml) (hrecord : s.record = writeModelList ml) : Recorded s := by
  subst hml
  exact ⟨⟨l, hwf⟩, hrecord.trans (writeModelList_eq hsize), hentries, hsize, hfew⟩

/-- Only the list and its record matter. -/
theorem Recorded.frame {s' : VFS} (h : Recorded s) (hml : s'.ml = s.ml)
    (hrecord : s'.record = s.record) : Recorded s' := by
  obtain ⟨myvfs, record, ml⟩ := s'
  cases hml
  cases hrecord
  exact ⟨h.wf, h.record, h.entries, h.size, h.few⟩

/-- What a delete does to the list and the record. -/
theorem deleteDiskFile_cases (filename : Name) (s : VFS) :
    ((deleteDiskFile filename s).2.ml = s.ml ∧ (deleteDiskFile filename s).2.record = s.record) ∨
      ∃ m ml, s.ml.findModel filename = some m ∧ s.ml.deleteModel m = .ok ml ∧
        (deleteDiskFile filename s).2.ml = ml ∧
        (deleteDiskFile filename s).2.record = writeModelList ml := by
  cases hm : s.ml.findModel filename with
  | none =>
      rw [deleteDiskFile_none hm]
      exact .inl ⟨rfl, rfl⟩
  | some m =>
      rw [deleteDiskFile_some hm]
      generalize deleteBytes s.myvfs (s.ml.heap m).off (s.ml.heap m).len = bytes
      obtain ⟨_ | _, myvfs⟩ := bytes
      · exact .inl ⟨rfl, rfl⟩
      · unfold deleteRecord
        cases hdelete : s.ml.deleteModel m with
        | error e => exact .inl ⟨rfl, rfl⟩
        | ok ml => exact .inr ⟨m, ml, rfl, hdelete, rfl, rfl⟩

theorem updateRecord_cases (s : VFS) (filename : Name) (off len : ℤ)
    (bytes : Except JExn (Option (List UInt8))) :
    (updateRecord s filename off len bytes).2 = s ∨
      (updateRecord s filename off len bytes).2.ml = s.ml.updateModel filename off len ∧
        (updateRecord s filename off len bytes).2.record =
          writeModelList (s.ml.updateModel filename off len) := by
  obtain e | ⟨_ | myvfs⟩ := bytes
  · exact .inl rfl
  · exact .inl rfl
  · exact .inr ⟨rfl, rfl⟩

/-- What an update does to the list and the record. -/
theorem updateDiskFile_cases (filename : Name) (file : DiskFile) (s : VFS) :
    (updateDiskFile filename file s).2 = s ∨
      ∃ m, s.ml.findModel filename = some m ∧
        (updateDiskFile filename file s).2.ml =
          s.ml.updateModel filename (s.ml.heap m).off (toInt32 file.length) ∧
        (updateDiskFile filename file s).2.record =
          writeModelList (s.ml.updateModel filename (s.ml.heap m).off (toInt32 file.length)) := by
  cases hm : s.ml.findModel filename with
  | none =>
      rw [updateDiskFile_none hm]
      exact .inl rfl
  | some m =>
      rcases hcompare : compareDiskFile filename file s with e | ⟨_ | _⟩
      · rw [updateDiskFile_error hm hcompare]
        exact .inl rfl
      · rw [updateDiskFile_different hm hcompare]
        exact (updateRecord_cases _ _ _ _ _).imp_right fun h => ⟨m, rfl, h⟩
      · rw [updateDiskFile_same hm hcompare]
        exact .inl rfl

theorem Recorded.delete (h : Recorded s) : Recorded (s.step (.delete filename)) := by
  rw [VFS.step, Call.exec]
  rcases deleteDiskFile_cases filename s with ⟨hml, hrecord⟩ | ⟨m, ml, hm, hdelete, hml, hrecord⟩
  · exact h.frame hml hrecord
  · obtain ⟨l, hwf⟩ := h.wf
    obtain ⟨es₁, es₂, hes, h₁, hname⟩ := h.split hm
    have hall := h.entries
    have hsize := h.size
    have hfew := h.few
    rw [hes] at hall
    rw [hes, List.length_append, List.length_cons] at hsize hfew
    obtain ⟨ml', l', hdelete', hwf', hentries, hsize'⟩ := hwf.deleteModel_eq (by omega) hm
    rw [hdelete'] at hdelete
    cases hdelete
    rw [hes, Entry.delete_append h₁ hname] at hentries
    refine Recorded.write hwf' ?_ ?_ ?_ hml hrecord
    · rw [hentries]
      intro e he
      rcases List.mem_append.1 he with he | he
      · exact hall e (List.mem_append_left _ he)
      · exact readable_shift (fun e he => hall e (List.mem_append_right _ (List.mem_cons_of_mem _ he)))
          _ e he
    · rw [hentries, List.length_append, List.length_map, hsize', hsize]
      rw [toInt32_of_range (by omega) (by omega)]
      omega
    · rw [hentries, List.length_append, List.length_map]
      omega

theorem Recorded.update (h : Recorded s) (file : DiskFile) :
    Recorded (s.step (.update filename file)) := by
  rw [VFS.step, Call.exec]
  rcases updateDiskFile_cases filename file s with hsame | ⟨m, hm, hml, hrecord⟩
  · rw [hsame]
    exact h
  · obtain ⟨l, hwf⟩ := h.wf
    obtain ⟨es₁, es₂, hes, h₁, hname⟩ := h.split hm
    have hall := h.entries
    have hsize := h.size
    have hfew := h.few
    rw [hes] at hall
    rw [hes, List.length_append, List.length_cons] at hsize hfew
    obtain ⟨hwf', hentries, hsize'⟩ :=
      hwf.updateModel_eq hm (s.ml.heap m).off (toInt32 file.length)
    obtain ⟨hclean, hrange⟩ := hall (s.ml.heap m).entry (List.mem_append_right _ List.mem_cons_self)
    rw [hes, Entry.update_append h₁ hname] at hentries
    refine Recorded.write hwf' ?_ ?_ ?_ hml hrecord
    · rw [hentries]
      intro e he
      rcases List.mem_append.1 he with he | he
      · exact hall e (List.mem_append_left _ he)
      · rcases List.mem_cons.1 he with rfl | he
        · exact ⟨hname ▸ hclean, hrange.1, toInt32_toInt32 _⟩
        · exact readable_shift
            (fun e he => hall e (List.mem_append_right _ (List.mem_cons_of_mem _ he))) _ e he
    · rw [hentries, List.length_append, List.length_cons, List.length_map, hsize', hsize]
    · rw [hentries, List.length_append, List.length_cons, List.length_map]
      exact hfew

theorem newEntry_inRange (s : VFS) (filename : Name) (content : List UInt8) :
    (newEntry s filename content).InRange :=
  ⟨toInt32_toInt32 _, toInt32_toInt32 _⟩

theorem Recorded.add (h : Recorded s) {content : List UInt8} (hclean : Clean filename)
    (htail : s.ml.TailReachable) (hfew : s.ml.size < 2 ^ 31 - 1) :
    Recorded (s.step (.add filename (.readable content))) := by
  obtain ⟨l, hwf⟩ := h.wf
  obtain ⟨ml, hadd, hwf', -, hentries, hsize'⟩ := hwf.addModel_reachable htail filename
    (newEntry s filename content).off (newEntry s filename content).len
  have hsize := h.size
  rw [VFS.step, Call.exec, addDiskFile_readable hadd]
  refine ⟨⟨_, hwf'⟩, ?_, ?_, ?_, ?_⟩
  · simp only [h.record, hentries, List.flatMap_append, List.flatMap_singleton]
    rfl
  · simp only [hentries]
    intro e he
    rcases List.mem_append.1 he with he | he
    · exact h.entries e he
    · cases List.mem_singleton.1 he
      exact ⟨hclean, newEntry_inRange s filename content⟩
  · simp only [hsize', hentries, List.length_append, List.length_singleton, hsize]
    rw [toInt32_of_range (by omega) (by omega)]
    omega
  · simp only [hentries, List.length_append, List.length_singleton]
    omega

variable {digit : Char → Option ℕ}

theorem Recorded.roundTrip (hdigit : AsciiDigits digit) (h : Recorded s) : RoundTrip digit s := by
  rw [RoundTrip, h.record]
  exact initDiskFileDir_record hdigit h.entries

/-- A name that is not clean does not come back, and a model that is lost has a
line in the record. -/
theorem Recorded.add_breaks (h : Recorded s) {content : List UInt8}
    (hno : ¬(Clean filename ∧ s.ml.TailReachable)) :
    ¬RoundTrip digit (s.step (.add filename (.readable content))) := by
  obtain ⟨l, hwf⟩ := h.wf
  rintro ⟨ml', hinit, hentries'⟩
  rw [VFS.step, Call.exec] at hinit hentries'
  obtain ⟨hlines, hclean⟩ := initDiskFileDir_ok hinit
  rw [hentries'] at hlines hclean
  by_cases htail : s.ml.TailReachable
  · obtain ⟨ml, hadd, -, -, hentries, -⟩ := hwf.addModel_reachable htail filename
      (newEntry s filename content).off (newEntry s filename content).len
    rw [addDiskFile_readable hadd] at hclean
    dsimp only at hclean
    rw [hentries] at hclean
    have hnew := hclean ⟨filename, (newEntry s filename content).off, (newEntry s filename content).len⟩
      (List.mem_append_right _ (List.mem_singleton_self _))
    exact hno ⟨hnew, htail⟩
  · obtain ⟨ml, hadd, -, hentries, -⟩ := hwf.addModel_lost htail filename
      (newEntry s filename content).off (newEntry s filename content).len
    rw [addDiskFile_readable hadd] at hlines
    simp only [hentries, h.record] at hlines
    rw [readLines_record_append fun e he => (h.entries e he).1, List.length_append,
      List.length_map] at hlines
    have hline : readLines (newEntry s filename content).line [] ≠ [] := by
      refine readLines_ne_nil ?_
      rw [List.nil_append, Entry.line_eq]
      exact List.append_ne_nil_of_right_ne_nil _ (List.cons_ne_nil _ _)
    exact absurd hlines (Nat.lt_add_of_pos_right (List.length_pos_iff.2 hline)).ne

/-- An allowed call keeps the invariant. -/
theorem Recorded.step (h : Recorded s) {c : Call} (hio : IOSuccess s c) (hfew : FewFiles s c)
    (hok : Recordable s c) : Recorded (s.step c) := by
  cases c with
  | add filename file =>
      obtain rfl | ⟨content, rfl⟩ := hio
      · exact h
      · exact h.add hok.1 hok.2 hfew
  | delete filename => exact h.delete
  | update filename file => exact h.update file

/-- A call that is not allowed makes the record and the list differ. -/
theorem Recorded.step_breaks (h : Recorded s) {c : Call} (hio : IOSuccess s c)
    (hok : ¬Recordable s c) : ¬RoundTrip digit (s.step c) := by
  cases c with
  | add filename file =>
      obtain rfl | ⟨content, rfl⟩ := hio
      · exact absurd trivial hok
      · exact h.add_breaks hok
  | delete filename => exact absurd trivial hok
  | update filename file => exact absurd trivial hok

end Steps

theorem Recorded.empty : Recorded VFS.empty where
  wf := ⟨[], ModelList.Wf.new⟩
  record := rfl
  entries := fun e he => absurd he List.not_mem_nil
  size := rfl
  few := by decide

/-- In a run of calls on a new file system with fewer than `2 ^ 31` files, the
record file gives the list in memory back in every state if and only if every
added name is clean and no file is added while `tail` is out of reach. -/
theorem vfs_record_roundTrip_iff {digit : Char → Option ℕ} (hdigit : AsciiDigits digit)
    (calls : List Call) (hio : EachStep VFS.step IOSuccess VFS.empty calls)
    (hfew : EachStep VFS.step FewFiles VFS.empty calls) :
    Always VFS.step (RoundTrip digit) VFS.empty calls ↔
      EachStep VFS.step Recordable VFS.empty calls :=
  always_iff (fun _ h => h.roundTrip hdigit) (fun _ _ h hvalid => h.step hvalid.1 hvalid.2)
    (fun _ _ h hvalid => h.step_breaks hvalid.1) Recorded.empty (hio.and hfew)

/-- The digits of ASCII. -/
def asciiDigit (c : Char) : Option ℕ := if c.isDigit then some (c.toNat - '0'.toNat) else none

theorem vfs_record_roundTrip_iff_test :
    Always VFS.step (RoundTrip asciiDigit) VFS.empty
      [.add ['a'] (.readable [1, 2]), .add ['b'] (.readable [3]), .update ['a'] (.readable [4]),
        .delete ['a'], .add ['c'] (.readable [5])] := by
  refine (vfs_record_roundTrip_iff (fun c hc => if_pos hc) _ ?_ ?_).2 ?_
  · exact ⟨.inr ⟨_, rfl⟩, .inr ⟨_, rfl⟩, trivial, trivial, .inr ⟨_, rfl⟩, trivial⟩
  · exact ⟨by decide, by decide, trivial, trivial, by decide, trivial⟩
  · exact ⟨by decide, by decide, trivial, trivial, by decide, trivial⟩

/-- A name with a space in it does not come back. -/
theorem space_not_roundTrip :
    EachStep VFS.step IOSuccess VFS.empty [.add ['a', ' ', 'b'] (.readable [1])] ∧
      ¬Always VFS.step (RoundTrip asciiDigit) VFS.empty [.add ['a', ' ', 'b'] (.readable [1])] := by
  refine ⟨⟨.inr ⟨_, rfl⟩, trivial⟩, fun h => ?_⟩
  exact Recorded.empty.add_breaks (by decide) h.2

end MyJavaExample.Vfs
