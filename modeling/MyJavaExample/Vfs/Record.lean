import MyJavaExample.Vfs.MyVFS

/-!
# The record file, written and read back

A line of the record file is the name, the offset and the length, with single
spaces between them.  It is read back as it was written exactly when the name
has no space and no line break in it (`Clean`).  The reader adds each model to a
list that only ever grows, so it never meets a `tail` that was deleted.
-/

namespace MyJavaExample.Vfs

open Java Lib

/-- A name without a space or a line break. -/
def Clean (filename : Name) : Prop := ' ' ∉ filename ∧ '\n' ∉ filename ∧ '\r' ∉ filename

instance (filename : Name) : Decidable (Clean filename) :=
  inferInstanceAs (Decidable (_ ∧ _))

/-- The numbers of an entry are values of an `int`. -/
def Entry.InRange (e : Entry) : Prop := toInt32 e.off = e.off ∧ toInt32 e.len = e.len

/-- What is known of `Character.digit`: the digits of ASCII. -/
def AsciiDigits (digit : Char → Option ℕ) : Prop :=
  ∀ c : Char, c.isDigit → digit c = some (c.toNat - '0'.toNat)

/-! ## Numbers -/

theorem mem_intToString {c : Char} {x : ℤ} (h : c ∈ intToString x) : c = '-' ∨ c.isDigit := by
  cases x with
  | ofNat n => exact .inr (Nat.isDigit_of_mem_toDigits (by decide) (by decide) h)
  | negSucc n =>
      rcases List.mem_cons.1 h with rfl | h
      · exact .inl rfl
      · exact .inr (Nat.isDigit_of_mem_toDigits (by decide) (by decide) h)

theorem notMem_intToString {c : Char} (hc : c ≠ '-') (hd : c.isDigit = false) (x : ℤ) :
    c ∉ intToString x := by
  intro h
  rcases mem_intToString h with rfl | h
  · exact hc rfl
  · rw [hd] at h
    cases h

theorem intToString_ne_nil (x : ℤ) : intToString x ≠ [] := by
  cases x with
  | ofNat n => exact Nat.toDigits_ne_nil
  | negSucc n => exact List.cons_ne_nil _ _

section Digits

variable {digit : Char → Option ℕ} (hdigit : AsciiDigits digit)

include hdigit

theorem parseDigits_eq {cs : List Char} (h : ∀ c ∈ cs, c.isDigit) (acc : ℕ) :
    parseDigits digit cs acc = some (Nat.ofDigitChars 10 cs acc) := by
  induction cs generalizing acc with
  | nil => simp [parseDigits]
  | cons c cs ih =>
      rw [parseDigits, hdigit c (h c List.mem_cons_self), Option.bind_some, Nat.ofDigitChars_cons]
      exact ih (fun x hx => h x (List.mem_cons_of_mem c hx)) _

theorem parseDigits_toDigits (n : ℕ) : parseDigits digit (Nat.toDigits 10 n) 0 = some n := by
  rw [parseDigits_eq hdigit fun c hc => Nat.isDigit_of_mem_toDigits (by decide) (by decide) hc,
    Nat.ofDigitChars_ten_toDigits]

theorem signedValue_toDigits {sign : ℤ} {n : ℕ} (h : toInt32 (sign * n) = sign * n) :
    signedValue digit sign (Nat.toDigits 10 n) = .ok (sign * n) := by
  rw [signedValue, if_neg Nat.toDigits_ne_nil, parseDigits_toDigits hdigit]
  exact if_pos h

theorem valueOf_intToString {x : ℤ} (hx : toInt32 x = x) : valueOf digit (intToString x) = .ok x := by
  cases x with
  | ofNat n =>
      have hsign : ∀ c : Char, c.isDigit = false → ∀ cs, Nat.toDigits 10 n ≠ c :: cs := by
        intro c hc cs hcs
        have hdigit := Nat.isDigit_of_mem_toDigits (b := 10) (n := n) (c := c) (by decide) (by decide)
          (by rw [hcs]; exact List.mem_cons_self)
        rw [hc] at hdigit
        cases hdigit
      have hvalue := @signedValue_toDigits digit hdigit 1 n (by simpa using hx)
      rw [intToString, valueOf, hvalue, Int.one_mul]
      · rfl
      · exact hsign '-' rfl
      · exact hsign '+' rfl
  | negSucc n =>
      have hneg : -1 * ((n + 1 : ℕ) : ℤ) = Int.negSucc n := by omega
      rw [intToString, valueOf, ← hneg]
      exact signedValue_toDigits hdigit (by rw [hneg]; exact hx)

end Digits

/-! ## Lines -/

/-- The line of an entry without its line feed. -/
def Entry.body (e : Entry) : List Char :=
  e.filename ++ ' ' :: (intToString e.off ++ ' ' :: intToString e.len)

theorem Entry.line_eq (e : Entry) : e.line = e.body ++ ['\n'] := by
  simp [line, body]

theorem readLines_append {cs : List Char} (hn : '\n' ∉ cs) (hr : '\r' ∉ cs) (rest acc : List Char) :
    readLines (cs ++ '\n' :: rest) acc = (acc ++ cs) :: readLines rest [] := by
  induction cs generalizing acc with
  | nil => simp [readLines]
  | cons c cs ih =>
      have hcn : c ≠ '\n' := fun h => hn (h ▸ List.mem_cons_self)
      have hcr : c ≠ '\r' := fun h => hr (h ▸ List.mem_cons_self)
      rw [List.cons_append, readLines, ih (fun h => hn (List.mem_cons_of_mem c h))
        (fun h => hr (List.mem_cons_of_mem c h)), List.append_assoc]
      · rfl
      · exact hcn
      · exact fun _ h _ => hcr h
      · exact hcr

theorem Entry.body_noBreak {e : Entry} (h : Clean e.filename) : '\n' ∉ e.body ∧ '\r' ∉ e.body := by
  have hn := @notMem_intToString '\n' (by decide) rfl
  have hr := @notMem_intToString '\r' (by decide) rfl
  simp only [body, List.mem_append, List.mem_cons, not_or]
  exact ⟨⟨h.2.1, by decide, hn _, by decide, hn _⟩, h.2.2, by decide, hr _, by decide, hr _⟩

/-- The record of clean entries is read back line by line. -/
theorem readLines_record_append {es : List Entry} (h : ∀ e ∈ es, Clean e.filename)
    (rest : List Char) :
    readLines (es.flatMap Entry.line ++ rest) [] = es.map Entry.body ++ readLines rest [] := by
  induction es with
  | nil => rfl
  | cons e es ih =>
      obtain ⟨hn, hr⟩ := Entry.body_noBreak (h e List.mem_cons_self)
      rw [List.flatMap_cons, Entry.line_eq, List.append_assoc, List.append_assoc,
        List.singleton_append, readLines_append hn hr,
        ih fun x hx => h x (List.mem_cons_of_mem e hx), List.map_cons, List.nil_append,
        List.cons_append]

theorem readLines_record {es : List Entry} (h : ∀ e ∈ es, Clean e.filename) :
    readLines (es.flatMap Entry.line) [] = es.map Entry.body := by
  simpa [readLines] using readLines_record_append h []

theorem readLines_ne_nil {cs acc : List Char} (h : acc ++ cs ≠ []) : readLines cs acc ≠ [] := by
  fun_induction readLines cs acc with
  | case1 => simp at h
  | case2 => simp
  | case3 => simp
  | case4 => simp
  | case5 => simp
  | case6 acc c cs _ _ _ ih => exact ih (by simp)

theorem Entry.split_body {e : Entry} (h : Clean e.filename) :
    split e.body = [e.filename, intToString e.off, intToString e.len] := by
  have hs := @notMem_intToString ' ' (by decide) rfl
  have hlen := intToString_ne_nil e.len
  rw [split, if_pos (by simp [body]), body, List.splitOn_append_cons_self_of_not_mem h.1,
    List.splitOn_append_cons_self_of_not_mem (hs _), List.splitOn_eq_singleton (hs _)]
  simp [hlen]

section RoundTrip

variable {digit : Char → Option ℕ} (hdigit : AsciiDigits digit)

include hdigit

theorem parseRecord_body {e : Entry} (h : Clean e.filename) (hrange : e.InRange) :
    parseRecord digit e.body = .ok e := by
  rw [parseRecord, e.split_body h]
  simp only [valueOf_intToString hdigit hrange.1, valueOf_intToString hdigit hrange.2]
  rfl

/-- Reading clean entries adds them to the list. -/
theorem readModels_body {es : List Entry} {ml : ModelList} {l : List ℕ} (hwf : ml.Wf l)
    (htail : ml.TailReachable) (h : ∀ e ∈ es, Clean e.filename ∧ e.InRange) :
    ∃ ml', readModels digit (es.map Entry.body) ml = .ok ml' ∧ ml'.entries = ml.entries ++ es := by
  induction es generalizing ml l with
  | nil => exact ⟨ml, rfl, (List.append_nil _).symm⟩
  | cons e es ih =>
      obtain ⟨hclean, hrange⟩ := h e List.mem_cons_self
      obtain ⟨ml₁, hadd, hwf₁, htail₁, hentries₁, -⟩ :=
        hwf.addModel_reachable htail e.filename e.off e.len
      obtain ⟨ml', hread, hentries⟩ := ih hwf₁ htail₁ fun x hx => h x (List.mem_cons_of_mem e hx)
      refine ⟨ml', ?_, ?_⟩
      · rw [List.map_cons, readModels, parseRecord_body hdigit hclean hrange]
        show (ml.addModel e.filename e.off e.len >>= readModels digit (es.map Entry.body)) = .ok ml'
        rw [hadd]
        exact hread
      · rw [hentries, hentries₁, List.append_assoc]
        rfl

/-- A record of clean entries is read back. -/
theorem initDiskFileDir_record {es : List Entry} (h : ∀ e ∈ es, Clean e.filename ∧ e.InRange) :
    ∃ ml, initDiskFileDir digit (es.flatMap Entry.line) = .ok ml ∧ ml.entries = es := by
  rw [initDiskFileDir, readLines_record fun e he => (h e he).1]
  obtain ⟨ml, hread, hentries⟩ := readModels_body hdigit ModelList.Wf.new (.inl rfl) h
  exact ⟨ml, hread, hentries.trans (List.nil_append es)⟩

end RoundTrip

/-! ## What can be read at all -/

theorem notMem_of_mem_splitOn {α : Type} [DecidableEq α] {a : α} {l v : List α}
    (h : v ∈ l.splitOn a) : a ∉ v ∧ ∀ x ∈ v, x ∈ l := by
  induction l generalizing v with
  | nil =>
      rw [List.splitOn_nil, List.mem_singleton] at h
      simp [h]
  | cons b l ih =>
      rw [List.splitOn_cons_eq_if_modifyHead] at h
      split at h
      next =>
        rcases List.mem_cons.1 h with rfl | h
        · simp
        · exact ⟨(ih h).1, fun x hx => List.mem_cons_of_mem b ((ih h).2 x hx)⟩
      next hba =>
        have hba : a ≠ b := fun h => hba (by simp [h])
        obtain ⟨w, ws, hw⟩ := List.exists_cons_of_ne_nil (List.splitOn_ne_nil a l)
        rw [hw] at h ih
        rcases List.mem_cons.1 h with rfl | h
        · obtain ⟨hn, hsub⟩ := ih List.mem_cons_self
          refine ⟨by simp [hba, hn], fun x hx => ?_⟩
          rcases List.mem_cons.1 hx with rfl | hx
          · exact List.mem_cons_self
          · exact List.mem_cons_of_mem b (hsub x hx)
        · obtain ⟨hn, hsub⟩ := ih (List.mem_cons_of_mem w h)
          exact ⟨hn, fun x hx => List.mem_cons_of_mem b (hsub x hx)⟩

/-- The name of an entry that was read has no space and comes from its line. -/
theorem parseRecord_filename {digit : Char → Option ℕ} {record : List Char} {e : Entry}
    (h : parseRecord digit record = .ok e) :
    ' ' ∉ e.filename ∧ ∀ c ∈ e.filename, c ∈ record := by
  unfold parseRecord at h
  split at h
  next => cases h
  next => cases h
  next v₀ v₁ vs hsplit =>
    have hname : e.filename = v₀ := by
      cases hoff : valueOf digit v₁ with
      | error ex =>
          rw [hoff] at h
          cases h
      | ok off =>
          rw [hoff] at h
          cases vs with
          | nil => cases h
          | cons v₂ vs =>
              cases hlen : valueOf digit v₂ with
              | error ex =>
                  simp only [hlen] at h
                  cases h
              | ok len =>
                  simp only [hlen] at h
                  cases h
                  rfl
    rw [hname]
    unfold split at hsplit
    split at hsplit
    next =>
      have hmem : v₀ ∈ (record.splitOn ' ').reverse.dropWhile List.isEmpty := by
        rw [← List.mem_reverse, hsplit]
        exact List.mem_cons_self
      exact notMem_of_mem_splitOn (List.mem_reverse.1 ((List.dropWhile_sublist _).subset hmem))
    next => cases hsplit

theorem mem_readLines {cs acc r : List Char} (hn : '\n' ∉ acc) (hr : '\r' ∉ acc)
    (h : r ∈ readLines cs acc) : '\n' ∉ r ∧ '\r' ∉ r := by
  -- a line that ends starts the next one with nothing read
  have hline : ∀ {acc cs : List Char}, '\n' ∉ acc → '\r' ∉ acc →
      (r ∈ readLines cs [] → '\n' ∉ r ∧ '\r' ∉ r) → r ∈ acc :: readLines cs [] →
        '\n' ∉ r ∧ '\r' ∉ r := by
    intro acc cs hn hr ih h
    rcases List.mem_cons.1 h with rfl | h
    · exact ⟨hn, hr⟩
    · exact ih h
  fun_induction readLines cs acc with
  | case1 => cases h
  | case2 acc _ =>
      rw [List.mem_singleton.1 h]
      exact ⟨hn, hr⟩
  | case3 acc cs ih => exact hline hn hr (fun h => ih nofun nofun h) h
  | case4 acc cs ih => exact hline hn hr (fun h => ih nofun nofun h) h
  | case5 acc cs _ ih => exact hline hn hr (fun h => ih nofun nofun h) h
  | case6 acc c cs hcn _ hcr ih =>
      refine ih ?_ ?_ h
      · simpa [hn] using Ne.symm hcn
      · simpa [hr] using Ne.symm hcr

/-- Reading adds one clean entry for each line. -/
theorem readModels_ok {digit : Char → Option ℕ} {records : List (List Char)} {ml ml' : ModelList}
    {l : List ℕ} (hwf : ml.Wf l) (htail : ml.TailReachable)
    (hbreak : ∀ r ∈ records, '\n' ∉ r ∧ '\r' ∉ r) (h : readModels digit records ml = .ok ml') :
    ∃ es, ml'.entries = ml.entries ++ es ∧ es.length = records.length ∧
      ∀ e ∈ es, Clean e.filename := by
  induction records generalizing ml l with
  | nil =>
      cases h
      exact ⟨[], (List.append_nil _).symm, rfl, nofun⟩
  | cons r records ih =>
      rw [readModels] at h
      cases he : parseRecord digit r with
      | error ex =>
          rw [he] at h
          cases h
      | ok e =>
          obtain ⟨ml₁, hadd, hwf₁, htail₁, hentries₁, -⟩ :=
            hwf.addModel_reachable htail e.filename e.off e.len
          rw [he] at h
          simp only [bind, Except.bind, hadd] at h
          obtain ⟨es, hentries, hlen, hclean⟩ :=
            ih hwf₁ htail₁ (fun x hx => hbreak x (List.mem_cons_of_mem r hx)) h
          refine ⟨e :: es, ?_, by rw [List.length_cons, hlen, List.length_cons], fun x hx => ?_⟩
          · rw [hentries, hentries₁, List.append_assoc]
            rfl
          · rcases List.mem_cons.1 hx with rfl | hx
            · obtain ⟨hspace, hsub⟩ := parseRecord_filename he
              obtain ⟨hn, hr⟩ := hbreak r List.mem_cons_self
              exact ⟨hspace, fun hc => hn (hsub _ hc), fun hc => hr (hsub _ hc)⟩
            · exact hclean x hx

/-- A list that was read has one clean entry for each line. -/
theorem initDiskFileDir_ok {digit : Char → Option ℕ} {record : List Char} {ml : ModelList}
    (h : initDiskFileDir digit record = .ok ml) :
    ml.entries.length = (readLines record []).length ∧ ∀ e ∈ ml.entries, Clean e.filename := by
  obtain ⟨es, hentries, hlen, hclean⟩ := readModels_ok ModelList.Wf.new (.inl rfl)
    (fun r hr => mem_readLines List.not_mem_nil List.not_mem_nil hr) h
  rw [show ml.entries = es from hentries]
  exact ⟨hlen, hclean⟩

end MyJavaExample.Vfs
