import Mathlib.Logic.Relation
import MyJavaExample.Fs.WritePaths

/-!
# `write_pipe` alone and step by step

`Pipe` lets the writer and the reader take turns at every byte.  In `WritePaths` a
write is a program that takes the bytes of the buffer, and other tasks run where it
sleeps.  What the program leaves is what the writer of a `Pipe` leaves if it is alone
but for the changes that it finds when it is woken up.
-/

namespace MyJavaExample.Fs

open Lib Relation

variable {p : Pipe} {b : PipeBuf} {buf chunk rest : List UInt8} {wakes : List (ℕ × ℕ)}
  {written off n count pos : ℕ}

/-! ## The page -/

theorem writeBytes_nil (page : Block) (off : ℕ) : writeBytes page off [] = page := by
  funext k
  exact if_neg fun h => by simp at h; omega

/-- Byte by byte. -/
theorem writeBytes_cons (page : Block) (off : ℕ) (x : UInt8) (xs : List UInt8) :
    writeBytes page off (x :: xs) = writeBytes (Function.update page off x) (off + 1) xs := by
  funext k
  unfold writeBytes Block.write
  rw [List.length_cons]
  by_cases hk : k = off
  · subst hk
    rw [if_pos (by omega), if_neg (by omega), Nat.sub_self, Function.update_self]
    rfl
  · rw [Function.update_of_ne hk]
    by_cases hin : off + 1 ≤ k ∧ k < off + 1 + xs.length
    · obtain ⟨j, rfl⟩ := Nat.exists_eq_add_of_le hin.1
      have hsub : off + 1 + j - off = j + 1 := by omega
      rw [if_pos (by omega), if_pos hin, hsub, Nat.add_sub_cancel_left]
      rfl
    · rw [if_neg hin, if_neg (by omega)]

/-! ## The writer of a pipe -/

namespace Pipe

/-- The writer goes on, or it is woken up and finds another tail and count. -/
inductive WriterStep : List (ℕ × ℕ) × Pipe → List (ℕ × ℕ) × Pipe → Prop
  | get (wakes : List (ℕ × ℕ)) (p : Pipe) (size : ℕ) (chunk rest : List UInt8) (written : ℕ)
      (h : p.writer = .getting size chunk rest written) :
      WriterStep (wakes, p) (wakes, p.next .runWriter)
  | wake (tail iCount : ℕ) (wakes : List (ℕ × ℕ)) (p : Pipe) (buf : List UInt8) (written : ℕ)
      (h : p.writer = .sleeping buf written) :
      WriterStep ((tail, iCount) :: wakes, p)
        (wakes, { p with tail := tail, iCount := iCount }.next .runWriter)

/-- Where the writer has been does not matter to the loop. -/
theorem writePipe_setWriter (w : Writer) :
    { p with writer := w }.writePipe buf written = p.writePipe buf written := by
  unfold writePipe Pipe.size
  split
  next => rfl
  next =>
    split
    next => rfl
    next => rfl

theorem writePipe_broken (hbuf : buf ≠ []) (hfull : PAGE_SIZE - 1 - p.size = 0)
    (hcount : p.iCount ≠ 2) : p.writePipe buf written = { p with
      writer := .idle, writeRet := if written = 0 then -1 else written, sigpipe := true } := by
  rw [writePipe, if_neg hbuf, if_pos hfull, if_pos hcount]

theorem writePipe_sleeps (hbuf : buf ≠ []) (hfull : PAGE_SIZE - 1 - p.size = 0)
    (hcount : p.iCount = 2) :
    p.writePipe buf written = { p with writer := .sleeping buf written } := by
  rw [writePipe, if_neg hbuf, if_pos hfull, if_neg (not_not.2 hcount)]

/-- The writer is woken up and finds another tail and count. -/
theorem wake_step (tail iCount : ℕ) : WriterStep ((tail, iCount) :: wakes,
    { p with writer := .sleeping buf written })
      (wakes, { p with tail := tail, iCount := iCount }.writePipe buf written) := by
  have hstep := WriterStep.wake tail iCount wakes { p with writer := .sleeping buf written } buf
    written rfl
  have hsame := @writePipe_setWriter { p with tail := tail, iCount := iCount } buf written
    (.sleeping buf written)
  rw [← hsame]
  exact hstep

/-- The inner loop stores the bytes of a round. -/
theorem getting_runs (hchunk : chunk ≠ []) : ReflTransGen WriterStep
    (wakes, { p with writer := .getting off chunk rest written })
    (wakes, { p with page := writeBytes p.page off chunk }.writePipe rest written) := by
  induction chunk generalizing p off with
  | nil => exact absurd rfl hchunk
  | cons x xs ih =>
      have hstep := WriterStep.get wakes { p with writer := .getting off (x :: xs) rest written }
        off (x :: xs) rest written rfl
      refine .head hstep ?_
      rw [writeBytes_cons]
      change ReflTransGen _ (wakes, getFsByte { p with writer := _ } off (x :: xs) rest written) _
      unfold getFsByte
      dsimp only
      by_cases hxs : xs = []
      · subst hxs
        rw [if_pos rfl, writeBytes_nil]
        have hsame := @writePipe_setWriter { p with page := Function.update p.page off x } rest written
          (.getting off [x] rest written)
        rw [← hsame]
      · rw [if_neg hxs]
        exact ih (p := { p with page := Function.update p.page off x }) hxs

/-- A round of the outer loop that finds room. -/
theorem writePipe_round (hbuf : buf ≠ []) (hhead : p.head < PAGE_SIZE)
    (hroom : PAGE_SIZE - 1 - p.size ≠ 0) {chars : ℕ}
    (hchars : chars = min (min (PAGE_SIZE - p.head) buf.length) (PAGE_SIZE - 1 - p.size)) :
    ReflTransGen WriterStep (wakes, p.writePipe buf written) (wakes, { p with
      head := (p.head + chars) % PAGE_SIZE
      supplied := p.supplied ++ buf.take chars
      page := writeBytes p.page p.head (buf.take chars) }.writePipe (buf.drop chars)
        (written + chars)) := by
  have hlength : 0 < buf.length := List.length_pos_iff.2 hbuf
  have hchunk : buf.take chars ≠ [] := by
    intro hnil
    have hzero := congrArg List.length hnil
    rw [List.length_take, List.length_nil] at hzero
    omega
  rw [writePipe, if_neg hbuf, if_neg hroom, ← hchars]
  exact @getting_runs { p with
    head := (p.head + chars) % PAGE_SIZE, supplied := p.supplied ++ buf.take chars }
    (buf.take chars) (buf.drop chars) wakes (written + chars) p.head hchunk

end Pipe

/-! ## The program -/

/-- The writer has come to this end. -/
def CallEnd.Reached : CallEnd → Pipe → Prop
  | .returns ret, p => p.writer = .idle ∧ p.writeRet = ret
  | .sleeps, p => ∃ buf written, p.writer = .sleeping buf written
  | _, _ => False

namespace PipeBuf

/-- `b` is what the program has of the pipe. -/
structure Shows (b : PipeBuf) (p : Pipe) : Prop where
  head : b.head = p.head
  tail : b.tail = p.tail
  page : b.page = p.page
  iCount : b.iCount = p.iCount
  sigpipe : b.sigpipe = p.sigpipe

theorem Shows.size (h : b.Shows p) : b.size = p.size := by
  rw [PipeBuf.size, Pipe.size, h.head, h.tail]

/-- Until there is room, or the call ends. -/
theorem waitRoom_runs (h : b.Shows p) (hbuf : buf ≠ []) :
    match b.waitRoom written wakes with
    | (some e, b') => ∃ p', ReflTransGen Pipe.WriterStep (wakes, p.writePipe buf written)
        (b'.wakes, p') ∧ b'.Shows p' ∧ e.Reached p' ∧ p'.supplied = p.supplied
    | (none, b') => ∃ p', ReflTransGen Pipe.WriterStep (wakes, p.writePipe buf written)
        (b'.wakes, p'.writePipe buf written) ∧ b'.Shows p' ∧ b'.room ≠ 0 ∧
          p'.head = p.head ∧ p'.supplied = p.supplied := by
  induction wakes generalizing b p with
  | nil =>
      rw [waitRoom]
      by_cases hroom : b.room ≠ 0
      · rw [if_pos hroom]
        exact ⟨p, .refl, ⟨h.head, h.tail, h.page, h.iCount, h.sigpipe⟩, hroom, rfl, rfl⟩
      have hfull : PAGE_SIZE - 1 - p.size = 0 := h.size ▸ not_not.1 hroom
      rw [if_neg hroom]
      by_cases hcount : b.iCount ≠ 2
      · rw [if_pos hcount, Pipe.writePipe_broken hbuf hfull (h.iCount ▸ hcount)]
        exact ⟨_, .refl, ⟨h.head, h.tail, h.page, h.iCount, rfl⟩, ⟨rfl, rfl⟩, rfl⟩
      · rw [if_neg hcount, Pipe.writePipe_sleeps hbuf hfull (h.iCount ▸ not_not.1 hcount)]
        exact ⟨_, .refl, ⟨h.head, h.tail, h.page, h.iCount, h.sigpipe⟩, ⟨_, _, rfl⟩, rfl⟩
  | cons x wakes ih =>
      obtain ⟨tail, iCount⟩ := x
      rw [waitRoom]
      by_cases hroom : b.room ≠ 0
      · rw [if_pos hroom]
        exact ⟨p, .refl, ⟨h.head, h.tail, h.page, h.iCount, h.sigpipe⟩, hroom, rfl, rfl⟩
      have hfull : PAGE_SIZE - 1 - p.size = 0 := h.size ▸ not_not.1 hroom
      rw [if_neg hroom]
      by_cases hcount : b.iCount ≠ 2
      · rw [if_pos hcount, Pipe.writePipe_broken hbuf hfull (h.iCount ▸ hcount)]
        exact ⟨_, .refl, ⟨h.head, h.tail, h.page, h.iCount, rfl⟩, ⟨rfl, rfl⟩, rfl⟩
      · rw [if_neg hcount, Pipe.writePipe_sleeps hbuf hfull (h.iCount ▸ not_not.1 hcount)]
        have hrest := @ih { p with tail := tail, iCount := iCount }
          { b with tail := tail, iCount := iCount } ⟨h.head, rfl, h.page, rfl, h.sigpipe⟩
        rcases hb : waitRoom written wakes { b with tail := tail, iCount := iCount } with ⟨e, b'⟩
        rw [hb] at hrest
        cases e with
        | some e =>
            obtain ⟨p', hruns, hrest⟩ := hrest
            exact ⟨p', .head (Pipe.wake_step tail iCount) hruns, hrest⟩
        | none =>
            obtain ⟨p', hruns, hrest⟩ := hrest
            exact ⟨p', .head (Pipe.wake_step tail iCount) hruns, hrest⟩

end PipeBuf

/-- A whole call, where the memory of the caller gives the bytes of the buffer. -/
theorem writePipe_runs {σ : Type} {s : σ} {byte : ℕ → UInt8} {w : Targets}
    (hhead : p.head < PAGE_SIZE) (hw : w.pipe.Shows p)
    (hbuf : buf = (List.range' pos count).map byte) (hn : count ≤ n) :
    let r := (writePipe n count written w).run (fun i s => .ok (byte i, s)) pos s
    ∃ p' t, ReflTransGen Pipe.WriterStep (w.pipe.wakes, p.writePipe buf written)
        (r.left.pipe.wakes, p') ∧
      r.left.pipe.Shows p' ∧ r.how.Reached p' ∧ r.left.stored = w.stored ++ t ∧
        p'.supplied = p.supplied ++ t := by
  induction n generalizing count written w pos p buf with
  | zero =>
      obtain rfl : count = 0 := Nat.le_zero.1 hn
      subst hbuf
      refine ⟨_, [], .refl, ⟨hw.head, hw.tail, hw.page, hw.iCount, hw.sigpipe⟩, ⟨rfl, rfl⟩, ?_, ?_⟩
      · exact (List.append_nil _).symm
      · exact (List.append_nil _).symm
  | succ n ih =>
      rw [writePipe]
      by_cases hcount : count = 0
      · subst hcount
        subst hbuf
        rw [if_pos rfl]
        refine ⟨_, [], .refl, ⟨hw.head, hw.tail, hw.page, hw.iCount, hw.sigpipe⟩, ⟨rfl, rfl⟩, ?_, ?_⟩
        · exact (List.append_nil _).symm
        · exact (List.append_nil _).symm
      have hlength : buf.length = count := by rw [hbuf, List.length_map, List.length_range']
      have hne : buf ≠ [] := fun hnil => hcount (by rw [← hlength, hnil]; rfl)
      have hwait := @PipeBuf.waitRoom_runs p w.pipe buf w.pipe.wakes written hw hne
      rw [if_neg hcount]
      rcases hb : w.pipe.waitRoom written w.pipe.wakes with ⟨e, b'⟩
      rw [hb] at hwait
      cases e with
      | some e =>
        obtain ⟨p', hruns, hshows, hend, hsupplied⟩ := hwait
        refine ⟨p', [], hruns, hshows, hend, (List.append_nil _).symm, ?_⟩
        rw [hsupplied, List.append_nil]
      | none =>
        obtain ⟨p', hruns, hshows, hroom, hsame, hsupplied⟩ := hwait
        have hchars : min (min (PAGE_SIZE - b'.head) count) b'.room =
            min (min (PAGE_SIZE - p'.head) buf.length) (PAGE_SIZE - 1 - p'.size) := by
          rw [PipeBuf.room, hshows.size, hshows.head, hlength]
        have hround := @Pipe.writePipe_round p' buf b'.wakes written hne (hsame ▸ hhead)
          (hshows.size ▸ hroom) _ hchars
        have hle : min (min (PAGE_SIZE - b'.head) count) b'.room ≤ count := by omega
        have hpos : 0 < min (min (PAGE_SIZE - b'.head) count) b'.room := by
          have hhead' : b'.head = p.head := hshows.head.trans hsame
          omega
        dsimp only
        generalize min (min (PAGE_SIZE - b'.head) count) b'.room = chars at *
        have htake : buf.take chars = (List.range' pos chars).map byte := by
          rw [hbuf, ← List.map_take, List.take_range'_of_length_ge hle]
        have hdrop : buf.drop chars = (List.range' (pos + chars) (count - chars)).map byte := by
          rw [hbuf, ← List.map_drop, List.drop_range', Nat.mul_one]
        rw [Reading.run_chars fun _ _ => rfl, List.nil_append, ← htake]
        obtain ⟨p'', t, hruns', hshows', hend, hstored, hsupplied'⟩ := @ih { p' with
          head := (p'.head + chars) % PAGE_SIZE
          supplied := p'.supplied ++ buf.take chars
          page := writeBytes p'.page p'.head (buf.take chars) } (buf.drop chars) (written + chars)
          (count - chars) (pos + chars)
          (w.storePipe { b' with head := (b'.head + chars) % PAGE_SIZE } b'.head (buf.take chars))
          (Nat.mod_lt _ (by decide))
          ⟨congrArg (fun head => (head + chars) % PAGE_SIZE) hshows.head, hshows.tail,
            congrArg₂ (writeBytes · · (buf.take chars)) hshows.page hshows.head, hshows.iCount,
            hshows.sigpipe⟩ hdrop (by omega)
        refine ⟨p'', buf.take chars ++ t, (hruns.trans hround).trans hruns', hshows', hend, ?_, ?_⟩
        · rw [hstored, ← List.append_assoc]
          rfl
        · rw [hsupplied', ← List.append_assoc, ← hsupplied]

end MyJavaExample.Fs
