import MyJavaExample.Lib.Decimal
import MyJavaExample.Lib.Int32

/-!
# The counter file: `updateBuff` of `pc.c`

The processes keep the number of items as text in a file that they share with
its offset.  A call reads the number up to the newline, adds to it and writes
the new one over the old one, without truncating the file.  What is left behind
the new newline is never read again, because each call starts at the front and
stops at the first newline.

The calls work on an array of eight characters, so a number may have six.  What
the code does beyond the array is not defined: there `updateBuff` gives nothing.
The calls of `printf` for debugging are left out; they change nothing.
-/

namespace MyJavaExample.Tools

open Lib

def newline : UInt8 := 10

/-- The file and the offset that its descriptors share. -/
structure BuffFile where
  contents : List UInt8
  offset : ℕ

namespace BuffFile

def empty : BuffFile where
  contents := []
  offset := 0

variable (f : BuffFile)

/-- `lseek(buffSizeFd, 0, SEEK_SET)` -/
def rewind : BuffFile := { f with offset := 0 }

/-- `read(buffSizeFd, tmp, 1)`; at the end of the file `tmp` keeps its value. -/
def read (tmp : UInt8) : UInt8 × BuffFile :=
  match f.contents[f.offset]? with
  | some c => (c, { f with offset := f.offset + 1 })
  | none => (tmp, f)

/-- `write`; a gap before the offset is filled with zeros. -/
def write (bytes : List UInt8) : BuffFile where
  contents := f.contents.take f.offset ++ List.replicate (f.offset - f.contents.length) 0 ++
    bytes ++ f.contents.drop (f.offset + bytes.length)
  offset := f.offset + bytes.length

/-- The text before the first newline. -/
def firstLine : List UInt8 := f.contents.takeWhile (· != newline)

end BuffFile

/-! ## The array `buf` -/

/-- `buf[i] = c` -/
def store (buf : List UInt8) (i : ℕ) (c : UInt8) : Option (List UInt8) :=
  if i < buf.length then some (buf.set i c) else none

/-- `sprintf(buf, "%d\\n", num)` -/
def sprintf (buf : List UInt8) (num : ℤ) : Option (List UInt8) :=
  let text := intText num ++ [newline, 0]
  if text.length ≤ buf.length then some (text ++ buf.drop text.length) else none

/-- The characters that `strlen` counts. -/
def cString (buf : List UInt8) : Option (List UInt8) :=
  if buf.any (· == 0) then some (buf.takeWhile (· != 0)) else none

/-- `while (tmp[0] != '\\n')`.  The loop goes round once for each character of
`buf` before it leaves the array. -/
def readLoop : ℕ → ℕ → UInt8 → List UInt8 → BuffFile → Option (ℕ × List UInt8 × BuffFile)
  | 0, _, _, _, _ => none
  | fuel + 1, i, tmp, buf, f =>
      if tmp = newline then some (i, buf, f)
      else do
        let buf ← store buf i tmp
        let (tmp, f) := f.read tmp
        readLoop fuel (i + 1) tmp buf f

/-- `updateBuff`, with what stands in `buf` and `tmp` at the start. -/
def updateBuff (buf : List UInt8) (tmp : UInt8) (num : ℤ) (f : BuffFile) : Option BuffFile :=
  if f.offset = 0 then do
    let buf ← sprintf buf num
    let text ← cString buf
    some (f.write text)
  else do
    let (tmp, f) := f.rewind.read tmp
    let (i, buf, f) ← readLoop (buf.length + 1) 0 tmp buf f
    let buf ← store buf i newline
    let buffSize ← scanInt buf
    let buffSize := toInt32 (buffSize + num)
    let buf ← sprintf buf buffSize
    let text ← cString buf
    some (f.rewind.write text)

/-- A call; the variables on the stack are not initialized. -/
structure Call where
  num : ℤ
  buf : List UInt8
  tmp : UInt8
  length : buf.length = 8

def total (calls : List Call) : ℤ := (calls.map Call.num).sum

/-- The calls one after the other. -/
def runCalls (calls : List Call) (f : BuffFile) : Option BuffFile :=
  calls.foldlM (fun f call => updateBuff call.buf call.tmp call.num f) f

/-- The numbers that fit into `buf`. -/
def Fits (n : ℤ) : Prop := -99999 ≤ n ∧ n ≤ 999999

section

variable {n num : ℤ} {buf rest : List UInt8} {tmp : UInt8} {f : BuffFile} {i fuel : ℕ}

theorem Fits.length (h : Fits n) : (intText n).length ≤ 6 := by
  obtain ⟨hl, hu⟩ := h
  unfold intText
  split
  next =>
    rw [List.length_cons]
    exact Nat.succ_le_succ (length_natText_le (by omega) (by decide))
  next => exact length_natText_le (by omega) (by decide)

theorem Fits.toInt32 (h : Fits n) : toInt32 n = n := by
  obtain ⟨hl, hu⟩ := h
  exact toInt32_of_range (by omega) (by omega)

/-- The characters of a numeral end neither the line nor the string. -/
theorem intText_ne {c : UInt8} (h : c ∈ intText n) : c ≠ newline ∧ c ≠ 0 := by
  obtain ⟨hl, -⟩ := intText_range h
  constructor
  · rintro rfl
    exact absurd hl (by decide)
  · rintro rfl
    exact absurd hl (by decide)

theorem takeWhile_append {p : UInt8 → Bool} {text : List UInt8} {c : UInt8}
    (htext : ∀ x ∈ text, p x = true) (hc : p c = false) :
    (text ++ c :: rest).takeWhile p = text := by
  rw [List.takeWhile_append_of_pos htext, List.takeWhile_cons_of_neg (Bool.eq_false_iff.1 hc),
    List.append_nil]

/-- A number is put into `buf` and taken out as a string. -/
theorem cString_sprintf (h : Fits num) (hlength : buf.length = 8) :
    ∃ buf', sprintf buf num = some buf' ∧ cString buf' = some (intText num ++ [newline]) := by
  have hle := h.length
  have hsize : (intText num ++ [newline, 0]).length ≤ buf.length := by
    rw [List.length_append, hlength]
    exact Nat.add_le_add_right hle 2
  refine ⟨_, if_pos hsize, ?_⟩
  rw [List.append_assoc, show [newline, 0] ++ buf.drop (intText num ++ [newline, 0]).length =
    [newline] ++ 0 :: buf.drop (intText num ++ [newline, 0]).length from rfl, ← List.append_assoc]
  have hnonzero : ∀ c ∈ intText num ++ [newline], (c != 0) = true := by
    intro c hc
    rw [bne_iff_ne]
    rcases List.mem_append.1 hc with hc | hc
    · exact (intText_ne hc).2
    · rw [List.mem_singleton.1 hc]
      decide
  unfold cString
  rw [if_pos (List.any_eq_true.2 ⟨0, List.mem_append_right _ List.mem_cons_self, rfl⟩),
    takeWhile_append hnonzero rfl]

theorem set_eq {a : List UInt8} {c : UInt8} (hbuf : buf.take a.length = a)
    (hlt : a.length < buf.length) :
    buf.set a.length c = (a ++ [c]) ++ buf.drop (a.length + 1) := by
  rw [List.set_eq_take_append_cons_drop, if_pos hlt, hbuf, List.append_assoc]
  rfl

/-- The loop copies the line: `a` is copied, `b` is still to be read. -/
theorem readLoop_eq (a b : List UInt8) (hcontents : f.contents = a ++ b ++ newline :: rest)
    (hb : ∀ c ∈ b, c ≠ newline) (hbuf : buf.take a.length = a) (hlength : buf.length = 8)
    (hsize : (a ++ b).length ≤ 7) (htmp : tmp = (b ++ [newline]).headD 0)
    (hoffset : f.offset = a.length + 1) (hfuel : b.length < fuel) :
    ∃ buf' f', readLoop fuel a.length tmp buf f = some ((a ++ b).length, buf', f') ∧
      buf'.take (a ++ b).length = a ++ b ∧ buf'.length = 8 ∧ f'.contents = f.contents := by
  induction b generalizing a buf tmp f fuel with
  | nil =>
      cases fuel with
      | zero => exact absurd hfuel (Nat.not_lt_zero _)
      | succ fuel =>
          rw [List.append_nil] at *
          exact ⟨buf, f, if_pos htmp, hbuf, hlength, rfl⟩
  | cons c b ih =>
      cases fuel with
      | zero => exact absurd hfuel (Nat.not_lt_zero _)
      | succ fuel =>
          have hc : tmp = c := htmp
          have hne : tmp ≠ newline := hc ▸ hb c List.mem_cons_self
          have hlt : a.length < buf.length := by
            rw [List.length_append, List.length_cons] at hsize
            omega
          have happend : a ++ c :: b = (a ++ [c]) ++ b := List.append_cons a c b
          have hcontents' : ({ f with offset := f.offset + 1 } : BuffFile).contents =
              (a ++ [c]) ++ b ++ newline :: rest := happend ▸ hcontents
          have hbuf' : (buf.set a.length c).take (a ++ [c]).length = a ++ [c] := by
            rw [set_eq hbuf hlt]
            exact List.take_left
          have hoffset' : ({ f with offset := f.offset + 1 } : BuffFile).offset =
              (a ++ [c]).length + 1 := by
            rw [List.length_append]
            exact congrArg (· + 1) hoffset
          obtain ⟨buf', f', hloop, htake, hlength', hkept⟩ := ih (a ++ [c]) hcontents'
            (fun x hx => hb x (List.mem_cons_of_mem c hx)) hbuf' (by rwa [List.length_set])
            (happend ▸ hsize) rfl hoffset' (Nat.lt_of_succ_lt_succ hfuel)
          rw [← happend] at hloop htake
          refine ⟨buf', f', ?_, htake, hlength', hkept⟩
          have hread : f.read tmp =
              ((b ++ [newline]).headD 0, { f with offset := f.offset + 1 }) := by
            have hnext : f.contents[f.offset]? = some ((b ++ [newline]).headD 0) := by
              have hnow : f.offset = (a ++ [c]).length := by
                rw [List.length_append]
                exact hoffset
              rw [hcontents', hnow, List.append_assoc, List.getElem?_append_right le_rfl,
                Nat.sub_self]
              cases b <;> rfl
            unfold BuffFile.read
            rw [hnext]
          rw [readLoop, if_neg hne, store, if_pos hlt, hread, hc]
          rw [List.length_append] at hloop
          exact hloop

/-- The file after a call: the number, a newline, and what is left from earlier
calls. -/
structure Holds (f : BuffFile) (n : ℤ) : Prop where
  contents : ∃ rest, f.contents = intText n ++ newline :: rest
  offset : 0 < f.offset

/-- The number is written over the front of the file. -/
theorem holds_write (h : f.offset = 0) : Holds (f.write (intText n ++ [newline])) n := by
  refine ⟨⟨f.contents.drop (intText n ++ [newline]).length, ?_⟩, ?_⟩
  · unfold BuffFile.write
    dsimp only
    rw [h, List.take_zero, Nat.zero_sub, List.replicate_zero, Nat.zero_add, List.nil_append,
      List.nil_append, List.append_assoc]
    rfl
  · unfold BuffFile.write
    dsimp only
    rw [List.length_append]
    exact Nat.add_pos_right _ (Nat.lt_add_left _ Nat.one_pos)

theorem updateBuff_empty (tmp : UInt8) (h : Fits num) (hlength : buf.length = 8) (hf : f.offset = 0) :
    ∃ f', updateBuff buf tmp num f = some f' ∧ Holds f' num := by
  obtain ⟨buf', hprint, hstring⟩ := cString_sprintf h hlength
  refine ⟨f.write (intText num ++ [newline]), ?_, holds_write hf⟩
  rw [updateBuff, if_pos hf, hprint, Option.bind_eq_bind, Option.bind_some, hstring]
  rfl

/-- A call adds to the number, whatever stands behind it. -/
theorem updateBuff_add (tmp : UInt8) (hn : Fits n) (h : Fits (n + num)) (hlength : buf.length = 8)
    (hf : Holds f n) : ∃ f', updateBuff buf tmp num f = some f' ∧ Holds f' (n + num) := by
  obtain ⟨⟨rest, hcontents⟩, hoffset⟩ := hf
  have hle := hn.length
  have hread : f.rewind.read tmp = ((intText n ++ [newline]).headD 0, { f with offset := 1 }) := by
    have hfirst : f.contents[0]? = some ((intText n ++ [newline]).headD 0) := by
      rw [hcontents]
      cases intText n <;> rfl
    unfold BuffFile.rewind BuffFile.read
    dsimp only
    rw [hfirst]
  obtain ⟨buf₁, f₁, hloop, htake, hlength₁, hkept⟩ := readLoop_eq [] (intText n)
    (show ({ f with offset := 1 } : BuffFile).contents = _ from hcontents)
    (fun c hc => (intText_ne hc).1) (List.take_zero : buf.take 0 = []) hlength
    (hle.trans (by decide)) rfl rfl (show (intText n).length < buf.length + 1 by omega)
  rw [List.nil_append] at hloop htake
  have hlt : (intText n).length < buf₁.length := by omega
  have hscan : scanInt (buf₁.set (intText n).length newline) = some n := by
    rw [set_eq htake hlt, List.append_assoc]
    refine scanInt_intText (fun c hc => ?_) n
    rw [show c = newline from (Option.some_inj.1 hc).symm]
    rfl
  obtain ⟨buf₂, hprint, hstring⟩ :=
    cString_sprintf h (show (buf₁.set (intText n).length newline).length = 8 by
      rwa [List.length_set])
  refine ⟨f₁.rewind.write (intText (n + num) ++ [newline]), ?_, holds_write rfl⟩
  rw [updateBuff, if_neg hoffset.ne', hread]
  dsimp only
  rw [show (0 : ℕ) = ([] : List UInt8).length from rfl, hloop, Option.bind_eq_bind,
    Option.bind_some]
  dsimp only
  rw [store, if_pos hlt]
  simp only [Option.bind_eq_bind, Option.bind_some, hscan, h.toInt32, hprint, hstring]

/-! ## Sequences of calls -/

/-- The sums of all calls fit into the array. -/
def Sums (n : ℤ) (calls : List Call) : Prop := ∀ pre, pre <+: calls → Fits (n + total pre)

theorem total_cons (call : Call) (calls : List Call) :
    total (call :: calls) = call.num + total calls := by
  unfold total
  rw [List.map_cons, List.sum_cons]

theorem Sums.tail {call : Call} {calls : List Call} (h : Sums n (call :: calls)) :
    Fits (n + call.num) ∧ Sums (n + call.num) calls := by
  have hcons (pre : List Call) (hpre : pre <+: calls) : Fits (n + call.num + total pre) := by
    rw [Int.add_assoc, ← total_cons]
    exact h _ (List.cons_prefix_cons.2 ⟨rfl, hpre⟩)
  refine ⟨?_, hcons⟩
  have hfirst := hcons [] List.nil_prefix
  rwa [show total [] = 0 from rfl, Int.add_zero] at hfirst

theorem runCalls_add (calls : List Call) (hf : Holds f n) (hn : Fits n) (h : Sums n calls) :
    ∃ f', runCalls calls f = some f' ∧ Holds f' (n + total calls) := by
  induction calls generalizing f n with
  | nil => exact ⟨f, rfl, by rwa [show total [] = 0 from rfl, Int.add_zero]⟩
  | cons call calls ih =>
      obtain ⟨hfits, hsums⟩ := h.tail
      obtain ⟨f₁, hcall, hf₁⟩ := updateBuff_add call.tmp hn hfits call.length hf
      obtain ⟨f', hrun, hf'⟩ := ih hf₁ hfits hsums
      refine ⟨f', ?_, ?_⟩
      · unfold runCalls at hrun ⊢
        rw [List.foldlM_cons, hcall]
        exact hrun
      · rwa [total_cons, ← Int.add_assoc]

theorem Holds.firstLine (h : Holds f n) : newline ∈ f.contents ∧ f.firstLine = intText n := by
  obtain ⟨rest, hcontents⟩ := h.contents
  unfold BuffFile.firstLine
  rw [hcontents]
  refine ⟨List.mem_append_right _ List.mem_cons_self, takeWhile_append (fun c hc => ?_) rfl⟩
  exact bne_iff_ne.2 (intText_ne hc).1

/-- After every sequence of calls the first line of the file is the sum of the
numbers. -/
theorem counter_file (calls : List Call) (hne : calls ≠ [])
    (h : ∀ pre, pre <+: calls → Fits (total pre)) :
    ∃ f, runCalls calls .empty = some f ∧ newline ∈ f.contents ∧
      f.firstLine = intText (total calls) := by
  have hsums : Sums 0 calls := fun pre hpre => by
    rw [Int.zero_add]
    exact h pre hpre
  cases calls with
  | nil => exact absurd rfl hne
  | cons call calls =>
      obtain ⟨hfits, hsums⟩ := hsums.tail
      rw [Int.zero_add] at hfits hsums
      obtain ⟨f₁, hcall, hf₁⟩ :=
        updateBuff_empty call.tmp (f := .empty) hfits call.length rfl
      obtain ⟨f', hrun, hf'⟩ := runCalls_add calls hf₁ hfits hsums
      refine ⟨f', ?_, ?_⟩
      · unfold runCalls at hrun ⊢
        rw [List.foldlM_cons, hcall]
        exact hrun
      · rw [total_cons]
        exact hf'.firstLine

end

/-- The array and the variable of a call before anything is stored. -/
def Call.of (num : ℤ) : Call where
  num := num
  buf := List.replicate 8 0
  tmp := 0
  length := List.length_replicate

/-- The number grows to three digits and shrinks to one. -/
theorem counter_file_shrinks : ∃ f, runCalls [.of 99, .of 1, .of (-95)] .empty = some f ∧
    newline ∈ f.contents ∧ f.firstLine = intText (total [.of 99, .of 1, .of (-95)]) := by
  refine counter_file _ (List.cons_ne_nil _ _) fun pre hpre => ?_
  have hmem := (List.mem_inits pre _).2 hpre
  simp only [List.inits, List.map_cons, List.map_nil, List.mem_cons, List.not_mem_nil, or_false]
    at hmem
  obtain rfl | rfl | rfl | rfl := hmem <;> exact ⟨by decide, by decide⟩

end MyJavaExample.Tools
