import Mathlib.Algebra.Ring.Int.Defs
import Mathlib.Algebra.Ring.Nat
import Mathlib.Logic.Function.Iterate
import MyJavaExample.Lib.Run
import MyJavaExample.Tty.Queue

/-!
# The console (`kernel/chr_drv/console.c`)

`con_write` interprets a stream of bytes: printable ones go to the screen, and a
parser of escape sequences drives cursor movement, erasing, scrolling, and
insertion and deletion.  The screen is a window of `video_num_lines` rows in the
video memory that begins at `origin`; on EGA and VGA a scroll of the whole screen
moves the window.

Addresses are integers, so that a pointer that runs below the video memory is
seen as such.  `Video` keeps, besides the contents, every address that has been
written.  The registers of the display controller are left out.
-/

namespace MyJavaExample.Tty

open Lib

/-! ## Video memory -/

structure Video where
  mem : ℤ → UInt8
  written : List ℤ

namespace Video

def storeByte (v : Video) (a : ℤ) (b : UInt8) : Video where
  mem := Function.update v.mem a b
  written := a :: v.written

/-- A 16-bit store. -/
def store (v : Video) (a : ℤ) (w : UInt16) : Video :=
  (v.storeByte a w.toUInt8).storeByte (a + 1) (w >>> 8).toUInt8

/-- A 16-bit load. -/
def load (v : Video) (a : ℤ) : UInt16 := (v.mem a).toUInt16 ||| (v.mem (a + 1)).toUInt16 <<< 8

/-- `rep stosw` of `n` words; `d` is 2, or -2 with the direction flag. -/
def stosw (d : ℤ) (w : UInt16) : ℕ → ℤ → Video → Video
  | 0, _, v => v
  | n + 1, a, v => stosw d w n (a + d) (v.store a w)

/-- One `movsl`. -/
def movl (v : Video) (src dst : ℤ) : Video :=
  (v.store dst (v.load src)).store (dst + 2) (v.load (src + 2))

/-- `rep movsl` of `n` double words; `d` is 4, or -4 with the direction flag. -/
def movsl (d : ℤ) : ℕ → ℤ → ℤ → Video → Video
  | 0, _, _, v => v
  | n + 1, src, dst, v => movsl d n (src + d) (dst + d) (v.movl src dst)

/-- The loop of `insert_char`: `n` cells from `p` on are moved by one, the first
gets `old`. -/
def insertCells : ℕ → ℤ → UInt16 → Video → Video
  | 0, _, _, v => v
  | n + 1, p, old, v => insertCells n (p + 2) (v.load p) (v.store p old)

/-- The loop of `delete_char`: `n` cells from `p` on get their right neighbours. -/
def deleteCells : ℕ → ℤ → Video → Video
  | 0, _, v => v
  | n + 1, p, v => deleteCells n (p + 2) (v.store p (v.load (p + 2)))

end Video

/-! ## The display -/

def videoNumLines : ℕ := 25

def videoEraseChar : UInt16 := 0x0720

/-- What `con_init` finds out about the display, if it is of a usable size. -/
structure Display where
  /-- EGA or VGA. -/
  ega : Bool
  cols : ℕ
  memStart : ℤ
  memEnd : ℤ
  cols_ge : 8 ≤ cols
  fits : memStart + (videoNumLines * (cols * 2) : ℕ) ≤ memEnd

/-- `video_size_row`. -/
def Display.row (d : Display) : ℕ := d.cols * 2

/-! ## The console -/

/-- The parser: the values 0 to 3 of `state`.  The value 4 does not outlast a
byte. -/
inductive Escape where
  | normal
  | esc
  | bracket
  | params
  deriving DecidableEq

structure Console where
  origin : ℤ
  scrEnd : ℤ
  pos : ℤ
  x : ℕ
  y : ℕ
  top : ℕ
  bottom : ℕ
  state : Escape
  npar : Fin 16
  par : Fin 16 → UInt32
  ques : Bool
  attr : UInt8
  savedX : ℕ
  savedY : ℕ
  video : Video

namespace Console

variable (d : Display) (c : Console)

/-- Positions that are not on the screen are ignored. -/
def gotoxy (newX newY : ℕ) : Console :=
  if d.cols < newX ∨ videoNumLines ≤ newY then c
  else { c with x := newX, y := newY, pos := c.origin + (newY * d.row : ℕ) + (2 * newX : ℕ) }

/-- The rows of the scroll region move up by one. -/
def scrollRegionUp : Console :=
  let n := (c.bottom - c.top - 1) * d.cols / 2
  let dst := c.origin + (d.row * c.top : ℕ)
  let v := c.video.movsl 4 n (c.origin + (d.row * (c.top + 1) : ℕ)) dst
  { c with video := v.stosw 2 videoEraseChar d.cols (dst + 4 * n) }

/-- `scrup`: on EGA and VGA the whole screen is scrolled by moving the window,
back to the start of the video memory when it leaves its end. -/
def scrup : Console :=
  if d.ega && c.top == 0 && c.bottom == videoNumLines then
    let origin := c.origin + d.row
    let pos := c.pos + d.row
    let scrEnd := c.scrEnd + d.row
    if d.memEnd < scrEnd then
      let n := (videoNumLines - 1) * d.cols / 2
      let v := c.video.movsl 4 n origin d.memStart
      let video := v.stosw 2 videoEraseChar d.cols (d.memStart + 4 * n)
      { c with
        video
        scrEnd := scrEnd - (origin - d.memStart)
        pos := pos - (origin - d.memStart)
        origin := d.memStart }
    else
      let video := c.video.stosw 2 videoEraseChar d.cols (scrEnd - d.row)
      { c with video, scrEnd, pos, origin }
  else c.scrollRegionUp d

/-- `scrdown`, with the direction flag set. -/
def scrdown : Console :=
  let n := (c.bottom - c.top - 1) * d.cols / 2
  let dst := c.origin + (d.row * c.bottom : ℕ) - 4
  let v := c.video.movsl (-4) n (c.origin + (d.row * (c.bottom - 1) : ℕ) - 4) dst
  { c with video := v.stosw (-2) videoEraseChar d.cols (dst - 4 * n + 2) }

def lf : Console :=
  if c.y + 1 < c.bottom then { c with y := c.y + 1, pos := c.pos + d.row } else c.scrup d

def ri : Console :=
  if c.top < c.y then { c with y := c.y - 1, pos := c.pos - d.row } else c.scrdown d

def cr : Console := { c with pos := c.pos - (2 * c.x : ℕ), x := 0 }

def del : Console :=
  if c.x = 0 then c
  else { c with pos := c.pos - 2, x := c.x - 1, video := c.video.store (c.pos - 2) videoEraseChar }

/-- Erase `count` cells from `start` on. -/
def erase (count : ℕ) (start : ℤ) : Console :=
  { c with video := c.video.stosw 2 videoEraseChar count start }

/-- Erase the display from the cursor, to the cursor, or all of it. -/
def csiJ (par : UInt32) : Console :=
  if par = 0 then c.erase ((c.scrEnd - c.pos) / 2).toNat c.pos
  else if par = 1 then c.erase ((c.pos - c.origin) / 2).toNat c.origin
  else if par = 2 then c.erase (d.cols * videoNumLines) c.origin
  else c

/-- Erase the line from the cursor, to the cursor, or all of it. -/
def csiK (par : UInt32) : Console :=
  if par = 0 then if d.cols ≤ c.x then c else c.erase (d.cols - c.x) c.pos
  else if par = 1 then
    c.erase (if c.x < d.cols then c.x else d.cols) (c.pos - (2 * c.x : ℕ))
  else if par = 2 then c.erase d.cols (c.pos - (2 * c.x : ℕ))
  else c

/-- The attribute after one parameter of `csi_m`. -/
def setAttr (attr : UInt8) (par : UInt32) : UInt8 :=
  if par = 0 then 0x07
  else if par = 1 then 0x0f
  else if par = 4 then 0x0f
  else if par = 7 then 0x70
  else if par = 27 then 0x07
  else attr

def csim : Console :=
  let pars := (List.finRange 16).filter (· ≤ c.npar)
  { c with attr := pars.foldl (fun attr i => setAttr attr (c.par i)) c.attr }

def insertChar : Console :=
  { c with video := c.video.insertCells (d.cols - c.x) c.pos videoEraseChar }

def deleteChar : Console :=
  if d.cols ≤ c.x then c
  else
    let n := d.cols - c.x - 1
    { c with video := (c.video.deleteCells n c.pos).store (c.pos + 2 * n) videoEraseChar }

/-- A scroll with the region from the cursor down. -/
def fromCursor (scroll : Console → Console) : Console :=
  { scroll { c with top := c.y, bottom := videoNumLines } with top := c.top, bottom := c.bottom }

def insertLine : Console := c.fromCursor (scrdown d)
def deleteLine : Console := c.fromCursor (scrup d)

/-- The number of times that `csi_at`, `csi_L`, `csi_P` and `csi_M` do their
operation: at least once, and no more than `most` times. -/
def times (nr : UInt32) (most : ℕ) : ℕ :=
  if most < nr.toNat then most else if nr = 0 then 1 else nr.toNat

def csiAt (nr : UInt32) : Console := (insertChar d)^[times nr d.cols] c
def csiL (nr : UInt32) : Console := (insertLine d)^[times nr videoNumLines] c
def csiP (nr : UInt32) : Console := (deleteChar d)^[times nr d.cols] c
def csiM (nr : UInt32) : Console := (deleteLine d)^[times nr videoNumLines] c

def saveCur : Console := { c with savedX := c.x, savedY := c.y }
def restoreCur : Console := c.gotoxy d c.savedX c.savedY

/-! ## `con_write` -/

/-- The cursor has passed the right edge by the columns of a row: it goes to the
next line. -/
def wrap : Console := lf d { c with x := c.x - d.cols, pos := c.pos - d.row }

def putChar (b : UInt8) : Console :=
  let c := if d.cols ≤ c.x then c.wrap d else c
  { c with
    video := c.video.store c.pos (c.attr.toUInt16 <<< 8 ||| b.toUInt16)
    pos := c.pos + 2
    x := c.x + 1 }

def backspace : Console := if c.x = 0 then c else { c with x := c.x - 1, pos := c.pos - 2 }

def tab : Console :=
  let n := 8 - c.x % 8
  let c := { c with x := c.x + n, pos := c.pos + (2 * n : ℕ) }
  if d.cols < c.x then c.wrap d else c

/-- A byte outside escape sequences. -/
def normalByte (eraseChar b : UInt8) : Console :=
  if 31 < b ∧ b < 127 then c.putChar d b
  else if b = 27 then { c with state := .esc }
  else if b = 10 ∨ b = 11 ∨ b = 12 then c.lf d
  else if b = 13 then c.cr
  else if sameChar b eraseChar then c.del
  else if b = 8 then c.backspace
  else if b = 9 then c.tab d
  else c

/-- The byte after an escape.  The last two tests look at the column of the
cursor, not at the byte.  The answer to `Z` is input of the terminal; what it
echoes are further bytes of the stream. -/
def escByte (b : UInt8) : Console :=
  let c := { c with state := .normal }
  if b = 91 then { c with state := .bracket }
  else if b = 69 then c.gotoxy d 0 (c.y + 1)
  else if b = 77 then c.ri d
  else if b = 68 then c.lf d
  else if b = 90 then c
  else if c.x = 55 then c.saveCur
  else if c.x = 56 then c.restoreCur d
  else c

/-- `if (par) par--`. -/
def down (par : UInt32) : UInt32 := if par = 0 then 0 else par - 1

/-- `if (!par) par++`. -/
def atLeastOne (par : UInt32) : UInt32 := if par = 0 then 1 else par

/-- The scroll region from row `first` up to row `last`. -/
def setRegion (first last : UInt32) : Console :=
  let last := if last = 0 then UInt32.ofNat videoNumLines else last
  if first < last ∧ last ≤ UInt32.ofNat videoNumLines then
    { c with top := first.toNat, bottom := last.toNat }
  else c

/-- The last byte of a control sequence. -/
def csi (b : UInt8) : Console :=
  let c := { c with state := .normal }
  let x := UInt32.ofNat c.x
  let y := UInt32.ofNat c.y
  let p := c.par 0
  if b = 71 ∨ b = 96 then c.gotoxy d (down p).toNat c.y
  else if b = 65 then c.gotoxy d c.x (y - atLeastOne p).toNat
  else if b = 66 ∨ b = 101 then c.gotoxy d c.x (y + atLeastOne p).toNat
  else if b = 67 ∨ b = 97 then c.gotoxy d (x + atLeastOne p).toNat c.y
  else if b = 68 then c.gotoxy d (x - atLeastOne p).toNat c.y
  else if b = 69 then c.gotoxy d 0 (y + atLeastOne p).toNat
  else if b = 70 then c.gotoxy d 0 (y - atLeastOne p).toNat
  else if b = 100 then c.gotoxy d c.x (down p).toNat
  else if b = 72 ∨ b = 102 then c.gotoxy d (down (c.par 1)).toNat (down p).toNat
  else if b = 74 then c.csiJ d p
  else if b = 75 then c.csiK d p
  else if b = 76 then c.csiL d p
  else if b = 77 then c.csiM d p
  else if b = 80 then c.csiP d p
  else if b = 64 then c.csiAt d p
  else if b = 109 then c.csim
  else if b = 114 then c.setRegion (down p) (c.par 1)
  else if b = 115 then c.saveCur
  else if b = 117 then c.restoreCur d
  else c

/-- A byte among the parameters of a control sequence. -/
def paramByte (b : UInt8) : Console :=
  if b = 59 ∧ c.npar < 15 then { c with npar := c.npar + 1 }
  else if 48 ≤ b ∧ b ≤ 57 then
    { c with par := Function.update c.par c.npar (10 * c.par c.npar + (b - 48).toUInt32) }
  else c.csi d b

/-- The first byte of a control sequence. -/
def bracketByte (b : UInt8) : Console :=
  let c := { c with npar := 0, par := fun _ => 0, state := .params, ques := b = 63 }
  if b = 63 then c else c.paramByte d b

/-- One round of the loop of `con_write`; `eraseChar` is that of the terminal. -/
def byte (eraseChar b : UInt8) : Console :=
  match c.state with
  | .normal => c.normalByte d eraseChar b
  | .esc => c.escByte d b
  | .bracket => c.bracketByte d b
  | .params => c.paramByte d b

end Console

/-! ## `con_init` -/

/-- What the setup routine leaves in memory: `ORIG_X`, `ORIG_Y`, the word with
mode and columns, and `ORIG_VIDEO_EGA_BX`. -/
structure BootParams where
  origX : UInt8
  origY : UInt8
  video : UInt16
  egaBx : UInt16

namespace BootParams

variable (b : BootParams)

def cols : ℕ := ((b.video &&& 0xff00) >>> 8).toNat

/-- A monochrome display. -/
def mono : Bool := b.video &&& 0xff = 7

def ega : Bool := b.egaBx &&& 0xff ≠ 0x10

def memStart : ℤ := if b.mono then 0xb0000 else 0xb8000

def memEnd : ℤ :=
  if b.mono then if b.ega then 0xb8000 else 0xb2000
  else if b.ega then 0xbc000 else 0xba000

/-- `display_desc`. -/
def displayDesc : List UInt8 :=
  if b.mono then if b.ega then [69, 71, 65, 109] else [42, 77, 68, 65]
  else if b.ega then [69, 71, 65, 99] else [42, 67, 71, 65]

/-- The display is wide enough, its screen fits in the video memory, and the
cursor is on the screen. -/
structure Usable : Prop where
  cols_ge : 8 ≤ b.cols
  fits : b.memStart + (videoNumLines * (b.cols * 2) : ℕ) ≤ b.memEnd
  x_le : b.origX.toNat ≤ b.cols
  y_lt : b.origY.toNat < videoNumLines

/-- The display that `con_init` sets up. -/
def display (h : b.Usable) : Display where
  ega := b.ega
  cols := b.cols
  memStart := b.memStart
  memEnd := b.memEnd
  cols_ge := h.cols_ge
  fits := h.fits

end BootParams

/-- The bytes of the description go to every second place from `a` on. -/
def Video.describe : List UInt8 → ℤ → Video → Video
  | [], _, v => v
  | b :: bs, a, v => describe bs (a + 2) (v.storeByte a b)

/-- `con_init` with the video memory as the setup routine left it. -/
def conInit (b : BootParams) (h : b.Usable) (mem : ℤ → UInt8) : Console :=
  let d := b.display h
  let video := Video.describe b.displayDesc (d.memStart + d.row - 8) ⟨mem, []⟩
  Console.gotoxy d
    { origin := d.memStart
      scrEnd := d.memStart + (videoNumLines * d.row : ℕ)
      pos := 0
      x := 0
      y := 0
      top := 0
      bottom := videoNumLines
      state := .normal
      npar := 0
      par := fun _ => 0
      ques := false
      attr := 0x07
      savedX := 0
      savedY := 0
      video } b.origX.toNat b.origY.toNat

end MyJavaExample.Tty
