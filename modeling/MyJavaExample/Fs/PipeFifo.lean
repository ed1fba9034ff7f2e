import Mathlib.Data.List.Basic
import MyJavaExample.Fs.Pipe

/-!
# Pipes are first in, first out

Positions are counted from the first byte of the pipe; the byte at position `i`
goes through the cell `i % 4096`.  The reader has loaded a prefix of the
supplied bytes and has claimed some more; the writer has stored all but the
last bytes that it has room for.  `Core` keeps these positions apart from the
places where the two tasks are, so that each step of a task is one lemma.

`read_pipe` and `write_pipe` move the indices before the bytes.  In a run where
no task overtakes the other between the two, the pipe is a queue; a reader that
comes while the writer sleeps in `get_fs_byte` gets what was in the page before.
-/

namespace MyJavaExample.Fs

open Lib

/-! ## What the two tasks have in progress -/

/-- The byte that was taken from the page and is not in the memory of the reader
yet. -/
def Reader.inHand : Reader → List UInt8
  | .putting byte _ _ _ _ => [byte]
  | _ => []

def Reader.toTake : Reader → ℕ
  | .putting _ _ chars _ _ => chars
  | _ => 0

def Writer.toFill : Writer → List UInt8
  | .getting _ chunk _ _ => chunk
  | _ => []

/-- The next byte to take is at position `pos`, and those after it up to the end
of the claimed part follow in the page. -/
def Reader.At : Reader → ℕ → Prop
  | .putting _ size chars _ _, pos => 0 < chars → size = pos % PAGE_SIZE ∧ size + chars ≤ PAGE_SIZE
  | _, _ => True

/-- The same for the next byte to store. -/
def Writer.At : Writer → ℕ → Prop
  | .getting size chunk _ _, pos =>
      chunk ≠ [] ∧ size = pos % PAGE_SIZE ∧ size + chunk.length ≤ PAGE_SIZE
  | _, _ => True

namespace Pipe

variable {p : Pipe} {inHand toFill : List UInt8} {toTake : ℕ}

/-! ## Positions -/

/-- The reader has `inHand` and may take `toTake` bytes more; the writer has
still to store `toFill`. -/
structure Core (p : Pipe) (inHand : List UInt8) (toTake : ℕ) (toFill : List UInt8) : Prop where
  head_eq : p.head = p.supplied.length % PAGE_SIZE
  tail_eq : p.tail = (p.received.length + inHand.length + toTake) % PAGE_SIZE
  claimed_le : p.received.length + inHand.length + toTake ≤ p.supplied.length
  supplied_le : p.supplied.length < p.received.length + inHand.length + toTake + PAGE_SIZE
  loaded_prefix : p.received ++ inHand <+: p.supplied
  toFill_suffix : toFill <:+ p.supplied
  loaded_le : p.received.length + inHand.length ≤ p.supplied.length - toFill.length
  holds : Ring.Holds p.page PAGE_SIZE p.supplied (p.received.length + inHand.length)
    (p.supplied.length - toFill.length)

/-- The places of the two tasks and what the calls return do not matter. -/
theorem Core.frame {q : Pipe} (h : Core p inHand toTake toFill)
    (hq : (q.head, q.tail, q.page, q.received, q.supplied) =
      (p.head, p.tail, p.page, p.received, p.supplied)) : Core q inHand toTake toFill := by
  obtain ⟨h₁, h₂, h₃, h₄, h₅⟩ : q.head = p.head ∧ q.tail = p.tail ∧ q.page = p.page ∧
      q.received = p.received ∧ q.supplied = p.supplied := by simpa using hq
  constructor <;> simp only [h₁, h₂, h₃, h₄, h₅]
  exacts [h.head_eq, h.tail_eq, h.claimed_le, h.supplied_le, h.loaded_prefix, h.toFill_suffix,
    h.loaded_le, h.holds]

theorem Core.size_eq (h : Core p inHand toTake toFill) :
    p.size = p.supplied.length - (p.received.length + inHand.length + toTake) := by
  have h₁ := h.claimed_le
  have h₂ := h.supplied_le
  rw [size, h.head_eq, h.tail_eq]
  simp only [PAGE_SIZE] at *
  omega

theorem Core.fifo (h : Core p inHand toTake toFill) : Fifo p where
  received_prefix := (List.prefix_append _ _).trans h.loaded_prefix
  size_le := by
    have h₁ := h.supplied_le
    rw [h.size_eq]
    simp only [PAGE_SIZE] at h₁
    omega

/-- The reader moves the tail. -/
theorem Core.claim (h : Core p [] 0 toFill) {chars : ℕ} (hle : chars ≤ p.size) :
    Core { p with tail := (p.tail + chars) % PAGE_SIZE } [] chars toFill := by
  have hsize := h.size_eq
  have hclaimed := h.claimed_le
  have hsupplied := h.supplied_le
  have htail := h.tail_eq
  simp only [PAGE_SIZE, List.length_nil, Nat.add_zero] at hsize hclaimed hsupplied htail
  refine ⟨h.head_eq, ?_, ?_, ?_, h.loaded_prefix, h.toFill_suffix, h.loaded_le, h.holds⟩ <;>
    simp only [PAGE_SIZE, List.length_nil, Nat.add_zero] <;> omega

/-- The reader takes the next byte from the page. -/
theorem Core.load (h : Core p [] (toTake + 1) toFill)
    (hlt : p.received.length < p.supplied.length - toFill.length) :
    Core p [p.page (p.received.length % PAGE_SIZE)] toTake toFill := by
  have hclaimed := h.claimed_le
  have hsupplied := h.supplied_le
  have htail := h.tail_eq
  simp only [List.length_nil, Nat.add_zero] at hclaimed hsupplied htail
  refine ⟨h.head_eq, ?_, ?_, ?_, ?_, h.toFill_suffix, ?_, ?_⟩
  · rw [htail, List.length_singleton]
    congr 1
    omega
  · rw [List.length_singleton]
    omega
  · rw [List.length_singleton]
    omega
  · have hbyte := h.holds p.received.length (by simp) hlt
    obtain ⟨rest, hrest⟩ := h.loaded_prefix
    rw [List.append_nil] at hrest
    rw [← hrest, List.getElem?_append_right (Nat.le_refl _), Nat.sub_self] at hbyte
    -- the byte of the cell is the first of those after the received ones
    cases rest with
    | nil => cases hbyte
    | cons byte rest =>
        cases hbyte
        exact ⟨rest, by rw [List.append_assoc, List.singleton_append, hrest]⟩
  · rw [List.length_singleton]
    omega
  · exact h.holds.mono (by simp) (Nat.le_refl _)

/-- The byte goes to the memory of the reader. -/
theorem Core.put {byte : UInt8} (h : Core p [byte] toTake toFill) :
    Core { p with received := p.received ++ [byte] } [] toTake toFill := by
  have hlen : (p.received ++ [byte]).length + ([] : List UInt8).length =
      p.received.length + [byte].length := by simp
  refine ⟨h.head_eq, ?_, ?_, ?_, ?_, h.toFill_suffix, ?_, ?_⟩
  · rw [hlen, h.tail_eq]
  · rw [hlen]
    exact h.claimed_le
  · rw [hlen]
    exact h.supplied_le
  · rw [List.append_nil]
    exact h.loaded_prefix
  · rw [hlen]
    exact h.loaded_le
  · rw [hlen]
    exact h.holds

/-- The writer moves the head. -/
theorem Core.reserve (h : Core p inHand toTake []) {bytes : List UInt8}
    (hle : bytes.length ≤ PAGE_SIZE - 1 - p.size) :
    Core { p with
      head := (p.head + bytes.length) % PAGE_SIZE
      supplied := p.supplied ++ bytes } inHand toTake bytes := by
  have hsize := h.size_eq
  have hclaimed := h.claimed_le
  have hsupplied := h.supplied_le
  have hhead := h.head_eq
  have hloaded := h.loaded_le
  have hlen : (p.supplied ++ bytes).length = p.supplied.length + bytes.length :=
    List.length_append
  simp only [PAGE_SIZE, List.length_nil, Nat.sub_zero] at hle hsize hclaimed hsupplied hhead hloaded
  refine ⟨?_, h.tail_eq, ?_, ?_, h.loaded_prefix.trans (List.prefix_append _ _),
    List.suffix_append _ _, ?_, ?_⟩
  · simp only [PAGE_SIZE, hlen]
    omega
  · simp only [hlen]
    omega
  · simp only [PAGE_SIZE, hlen]
    omega
  · simp only [hlen]
    omega
  · rw [hlen, Nat.add_sub_cancel]
    exact h.holds.append (Nat.le_refl _) bytes

/-- The writer stores the next byte. -/
theorem Core.store {byte : UInt8} (h : Core p inHand toTake (byte :: toFill))
    (hlt : p.supplied.length - (byte :: toFill).length <
      p.received.length + inHand.length + PAGE_SIZE) :
    Core { p with
      page := Function.update p.page
        ((p.supplied.length - (byte :: toFill).length) % PAGE_SIZE) byte } inHand toTake toFill := by
  obtain ⟨stored, hstored⟩ := h.toFill_suffix
  have hlen : p.supplied.length = stored.length + (toFill.length + 1) := by
    rw [← hstored, List.length_append, List.length_cons]
  have hpos : p.supplied.length - (byte :: toFill).length = stored.length := by
    rw [List.length_cons]
    omega
  have hloaded := h.loaded_le
  rw [hpos] at hloaded hlt ⊢
  refine ⟨h.head_eq, h.tail_eq, h.claimed_le, h.supplied_le, h.loaded_prefix,
    (List.suffix_cons _ _).trans h.toFill_suffix, ?_, ?_⟩
  · change p.received.length + _ ≤ p.supplied.length - _
    omega
  · have hnext : p.supplied.length - toFill.length = stored.length + 1 := by omega
    have hbyte : p.supplied[stored.length]? = some byte := by
      rw [← hstored, List.getElem?_append_right (Nat.le_refl _), Nat.sub_self]
      rfl
    have hold := h.holds
    rw [hpos] at hold
    change Ring.Holds _ _ p.supplied _ (p.supplied.length - _)
    rw [hnext]
    exact hold.store hbyte hlt

/-! ## The two tasks -/

/-- The position of the next byte that the writer stores. -/
def stored (p : Pipe) : ℕ := p.supplied.length - p.writer.toFill.length

/-- The position of the next byte that the reader takes. -/
def loaded (p : Pipe) : ℕ := p.received.length + p.reader.inHand.length

structure Inv (p : Pipe) : Prop where
  core : Core p p.reader.inHand p.reader.toTake p.writer.toFill
  reader : p.reader.At p.loaded
  writer : p.writer.At p.stored

theorem Inv.init (page : ℕ → UInt8) : Inv (Pipe.init page) where
  core := ⟨rfl, rfl, Nat.le_refl _, Nat.zero_lt_succ _, List.prefix_rfl, List.suffix_rfl, Nat.le_refl _,
    fun _ _ h => absurd h (Nat.not_lt_zero _)⟩
  reader := trivial
  writer := trivial

/-- A claimed byte in a cell that the writer does not have to fill is stored. -/
theorem lt_stored {pos : ℕ} (hw : p.writer.At p.stored) (hlt : pos < p.supplied.length)
    (hcell : ¬p.writer.ToFill (pos % PAGE_SIZE)) : pos < p.stored := by
  by_contra hno
  cases hwr : p.writer with
  | idle =>
      simp only [stored, hwr, Writer.toFill, List.length_nil] at hno
      omega
  | sleeping buf written =>
      simp only [stored, hwr, Writer.toFill, List.length_nil] at hno
      omega
  | getting size chunk rest written =>
      rw [hwr] at hw hcell
      obtain ⟨-, hsize, hle⟩ := hw
      have hst : p.stored = p.supplied.length - chunk.length := by
        rw [stored, hwr]
        rfl
      apply hcell
      simp only [Writer.ToFill, PAGE_SIZE] at *
      omega

/-- A free cell that the reader does not have to take has no byte that is still
needed. -/
theorem stored_lt (hr : p.reader.At p.loaded)
    (hlt : p.stored < p.loaded + p.reader.toTake + PAGE_SIZE)
    (hcell : ¬p.reader.ToTake (p.stored % PAGE_SIZE)) : p.stored < p.loaded + PAGE_SIZE := by
  by_contra hno
  cases hrd : p.reader with
  | idle =>
      simp only [hrd, Reader.toTake] at hlt
      omega
  | sleeping count read =>
      simp only [hrd, Reader.toTake] at hlt
      omega
  | putting byte size chars count read =>
      rw [hrd] at hr hcell hlt
      simp only [Reader.toTake] at hlt
      obtain ⟨hsize, hle⟩ := hr (by omega)
      apply hcell
      simp only [Reader.ToTake, PAGE_SIZE] at *
      omega

variable {size chars count read : ℕ}

/-- The reader takes one byte of the part it has claimed. -/
theorem Inv.readByte (h : Core p [] chars p.writer.toFill) (hw : p.writer.At p.stored)
    (hpos : 0 < chars) (hsize : size = p.received.length % PAGE_SIZE)
    (hend : size + chars ≤ PAGE_SIZE) (hcell : ¬p.writer.ToFill size) :
    Inv (p.readByte size chars count read) := by
  obtain ⟨n, rfl⟩ : ∃ n, chars = n + 1 := ⟨chars - 1, by omega⟩
  have hclaimed := h.claimed_le
  simp only [List.length_nil, Nat.add_zero] at hclaimed
  subst hsize
  have hload := h.load (lt_stored hw (by omega) hcell)
  refine ⟨?_, ?_, hw⟩
  · exact hload.frame rfl
  · intro hn
    simp only [Pipe.readByte, loaded, Reader.inHand, List.length_singleton, PAGE_SIZE] at *
    omega

/-- The loop of `read_pipe`, when the reader has nothing in progress. -/
theorem Inv.readPipe (h : Core p [] 0 p.writer.toFill) (hw : p.writer.At p.stored)
    (hcell : ∀ cell ∈ p.readCell count, ¬p.writer.ToFill cell) :
    Inv (p.readPipe count read) := by
  have hrest : ∀ r : Reader, r.inHand = [] → r.toTake = 0 → r.At p.received.length →
      ∀ ret, Inv { p with reader := r, readRet := ret } := by
    intro r h₁ h₂ h₃ ret
    refine ⟨?_, ?_, hw⟩
    · rw [h₁, h₂]
      exact h.frame rfl
    · rw [loaded, h₁]
      exact h₃
  rw [Pipe.readPipe]
  split
  next => exact hrest .idle rfl rfl trivial _
  next hcount =>
    split
    next hsize =>
      split
      next => exact hrest .idle rfl rfl trivial _
      next => exact hrest (.sleeping _ _) rfl rfl trivial p.readRet
    next hsize =>
      have hclaim := h.claim (Nat.min_le_right (min (PAGE_SIZE - p.tail) count) p.size)
      have htail := h.tail_eq
      have hnot : ¬p.writer.ToFill p.tail := hcell p.tail (by simp [readCell, hcount, hsize])
      simp only [List.length_nil, Nat.add_zero] at htail
      have hlt : p.tail < PAGE_SIZE := htail ▸ Nat.mod_lt _ (by decide)
      exact Inv.readByte hclaim hw (by omega) htail (by omega) hnot

theorem Inv.putFsByte {byte : UInt8} (h : Inv p)
    (hr : p.reader = .putting byte size chars count read)
    (hcell : ∀ cell ∈ if chars = 0 then p.readCell count else some size,
      ¬p.writer.ToFill cell) : Inv (p.putFsByte byte size chars count read) := by
  have hcore := h.core
  have hat := h.reader
  rw [hr] at hcore hat
  have hput := hcore.put
  rw [Pipe.putFsByte]
  split
  next hz =>
    rw [if_pos hz] at hcell
    simp only [Reader.toTake, hz] at hput
    exact Inv.readPipe hput h.writer hcell
  next hz =>
    rw [if_neg hz] at hcell
    obtain ⟨hsize, hend⟩ := hat (Nat.pos_of_ne_zero hz)
    refine Inv.readByte hput h.writer (Nat.pos_of_ne_zero hz) ?_ hend (hcell size rfl)
    rw [hsize, loaded, hr, List.length_append]
    rfl

/-- The loop of `write_pipe`, when the writer has nothing in progress. -/
theorem Inv.writePipe {buf : List UInt8} {written : ℕ}
    (h : Core p p.reader.inHand p.reader.toTake []) (hr : p.reader.At p.loaded) :
    Inv (p.writePipe buf written) := by
  have hrest : ∀ w : Writer, w.toFill = [] → w.At p.supplied.length →
      ∀ ret sig, Inv { p with writer := w, writeRet := ret, sigpipe := sig } := by
    intro w h₁ h₂ ret sig
    refine ⟨?_, hr, ?_⟩
    · rw [h₁]
      exact h.frame rfl
    · rw [stored, h₁]
      exact h₂
  rw [Pipe.writePipe]
  split
  next => exact hrest .idle rfl trivial _ p.sigpipe
  next hbuf =>
    split
    next hfull =>
      split
      next => exact hrest .idle rfl trivial _ true
      next => exact hrest (.sleeping _ _) rfl trivial p.writeRet p.sigpipe
    next hroom =>
      have hhead := h.head_eq
      have hlt : p.head < PAGE_SIZE := hhead ▸ Nat.mod_lt _ (by decide)
      have hlen : 0 < buf.length := List.length_pos_iff.2 hbuf
      have hchars : min (min (PAGE_SIZE - p.head) buf.length) (PAGE_SIZE - 1 - p.size) ≤
          PAGE_SIZE - 1 - p.size := Nat.min_le_right _ _
      have hend : p.head + min (min (PAGE_SIZE - p.head) buf.length) (PAGE_SIZE - 1 - p.size) ≤
          PAGE_SIZE := by omega
      have htake : (buf.take (min (min (PAGE_SIZE - p.head) buf.length)
          (PAGE_SIZE - 1 - p.size))).length =
          min (min (PAGE_SIZE - p.head) buf.length) (PAGE_SIZE - 1 - p.size) := by
        rw [List.length_take]
        omega
      have hpos : 0 < min (min (PAGE_SIZE - p.head) buf.length) (PAGE_SIZE - 1 - p.size) := by
        omega
      generalize min (min (PAGE_SIZE - p.head) buf.length) (PAGE_SIZE - 1 - p.size) = chars at *
      have hreserve := h.reserve (htake ▸ hchars)
      rw [htake] at hreserve
      refine ⟨hreserve.frame rfl, hr, List.length_pos_iff.1 (htake.symm ▸ hpos), ?_, ?_⟩
      · change p.head = ((p.supplied ++ _).length - (buf.take chars).length) % PAGE_SIZE
        rw [List.length_append, Nat.add_sub_cancel, hhead]
      · rw [htake]
        exact hend

theorem Inv.getFsByte {chunk rest : List UInt8} {written : ℕ} (h : Inv p)
    (hw : p.writer = .getting size chunk rest written) (hcell : ¬p.reader.ToTake size) :
    Inv (p.getFsByte size chunk rest written) := by
  have hcore := h.core
  have hat := h.writer
  rw [hw] at hcore hat
  obtain ⟨hne, hsize, hend⟩ := hat
  cases chunk with
  | nil => exact absurd rfl hne
  | cons byte chunk =>
      have hst : p.stored = p.supplied.length - (byte :: chunk).length := by
        rw [stored, hw]
        rfl
      have hlen := hcore.toFill_suffix.length_le
      have hsupplied := hcore.supplied_le
      have hlt : p.stored < p.loaded + PAGE_SIZE :=
        stored_lt h.reader (by simp only [loaded]; omega) (hsize ▸ hcell)
      rw [hst] at hlt hsize
      have hstore := hcore.store hlt
      rw [← hsize] at hstore
      rw [Pipe.getFsByte]
      split
      next hnil =>
        subst hnil
        exact Inv.writePipe hstore h.reader
      next hmore =>
        refine ⟨hstore.frame rfl,
          h.reader, hmore, ?_, ?_⟩
        · change size + 1 = (p.supplied.length - chunk.length) % PAGE_SIZE
          have hpos : 0 < chunk.length := List.length_pos_iff.2 hmore
          simp only [Writer.toFill, List.length_cons, PAGE_SIZE] at *
          omega
        · rw [List.length_cons] at hend
          omega

/-! ## Runs -/

theorem Inv.next (h : Inv p) {a : PipeAction} (hok : p.InOrder a) : Inv (p.next a) := by
  obtain ⟨hload, hstore⟩ := hok
  have hidle : p.reader.inHand = [] → p.reader.toTake = 0 → Core p [] 0 p.writer.toFill := by
    intro h₁ h₂
    have hcore := h.core
    rwa [h₁, h₂] at hcore
  have hwait : p.writer.toFill = [] → Core p p.reader.inHand p.reader.toTake [] := by
    intro h₁
    have hcore := h.core
    rwa [h₁] at hcore
  cases a with
  | read count =>
      cases hr : p.reader with
      | idle =>
          simp only [loads, hr] at hload
          simp only [Pipe.next, hr]
          exact Inv.readPipe (hidle (by rw [hr]; rfl) (by rw [hr]; rfl)) h.writer hload
      | sleeping count read => simpa only [Pipe.next, hr] using h
      | putting byte size chars count read => simpa only [Pipe.next, hr] using h
  | write buf =>
      cases hw : p.writer with
      | idle =>
          simp only [Pipe.next, hw]
          exact Inv.writePipe (hwait (by rw [hw]; rfl)) h.reader
      | sleeping buf written => simpa only [Pipe.next, hw] using h
      | getting size chunk rest written => simpa only [Pipe.next, hw] using h
  | runReader =>
      cases hr : p.reader with
      | idle => simpa only [Pipe.next, hr] using h
      | sleeping count read =>
          simp only [loads, hr] at hload
          simp only [Pipe.next, hr]
          exact Inv.readPipe (hidle (by rw [hr]; rfl) (by rw [hr]; rfl)) h.writer hload
      | putting byte size chars count read =>
          simp only [loads, hr] at hload
          simp only [Pipe.next, hr]
          exact h.putFsByte hr hload
  | runWriter =>
      cases hw : p.writer with
      | idle => simpa only [Pipe.next, hw] using h
      | sleeping buf written =>
          simp only [Pipe.next, hw]
          exact Inv.writePipe (hwait (by rw [hw]; rfl)) h.reader
      | getting size chunk rest written =>
          simp only [stores, hw] at hstore
          simp only [Pipe.next, hw]
          exact h.getFsByte hw (hstore size rfl)
  | setCount iCount => exact ⟨h.core.frame rfl, h.reader, h.writer⟩

/-- In a run in which no byte is taken before it is stored or overwritten before
it is taken, the reader receives the bytes of the writer in order. -/
theorem pipe_fifo (page : ℕ → UInt8) (as : List PipeAction)
    (h : EachStep next InOrder (init page) as) : Always next Fifo (init page) as :=
  EachStep.always (fun _ hp => hp.core.fifo) (fun _ _ hp hok => hp.next hok) (Inv.init page) h

/-- Two writes and a read that wait for each other. -/
theorem pipe_fifo_two_writes :
    let as := [.write [7, 8], .runWriter, .runWriter, .read 3, .runReader, .runReader,
      .write [9], .runWriter, .runReader, .runReader]
    EachStep next InOrder (init fun _ => 0) as ∧ Always next Fifo (init fun _ => 0) as :=
  have h : EachStep next InOrder (init fun _ => 0) [.write [7, 8], .runWriter, .runWriter,
      .read 3, .runReader, .runReader, .write [9], .runWriter, .runReader, .runReader] := by
    decide +kernel
  ⟨h, pipe_fifo _ _ h⟩

/-- The reader comes while the writer waits for the memory of its buffer, and
gets a byte that nobody has written. -/
theorem pipe_read_before_store :
    ¬∀ page as, Always next Fifo (init page) as := by
  intro h
  have hlast := (h (fun _ => 0) [.write [7], .read 1, .runReader]).last.received_prefix
  revert hlast
  decide

end Pipe

end MyJavaExample.Fs
