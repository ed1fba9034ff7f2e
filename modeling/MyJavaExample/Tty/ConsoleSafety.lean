import Mathlib.Data.Nat.Basic
import MyJavaExample.Tty.Console

/-!
# The console stays on its screen

`Safe` ties the cursor address to its row and column, keeps the scroll region
and the window in order, and says that nothing was written outside the video
memory.  Each operation of the console keeps it; some change the parts one by
one and are in order again at their end.
-/

namespace MyJavaExample.Tty

open Lib

/-! ## Writes -/

namespace Video

/-- Everything that was written lies from `lo` up to `hi`. -/
def Within (lo hi : ℤ) (v : Video) : Prop := ∀ a ∈ v.written, lo ≤ a ∧ a < hi

variable {lo hi a src dst : ℤ} {v : Video} {n : ℕ} {w : UInt16}

theorem Within.storeByte (h : v.Within lo hi) {b : UInt8} (hlo : lo ≤ a) (hhi : a < hi) :
    (v.storeByte a b).Within lo hi := by
  intro k hk
  rcases List.mem_cons.1 hk with rfl | hk
  · exact ⟨hlo, hhi⟩
  · exact h k hk

theorem Within.store (h : v.Within lo hi) (hlo : lo ≤ a) (hhi : a + 2 ≤ hi) :
    (v.store a w).Within lo hi :=
  (h.storeByte hlo (by omega)).storeByte (by omega) (by omega)

theorem Within.stosw_up (h : v.Within lo hi) (hlo : lo ≤ a) (hhi : a + 2 * n ≤ hi) :
    (v.stosw 2 w n a).Within lo hi := by
  induction n generalizing a v with
  | zero => exact h
  | succ n ih => exact ih (h.store hlo (by omega)) (by omega) (by omega)

/-- The words below `a + 2`. -/
theorem Within.stosw_down (h : v.Within lo hi) (hlo : lo + 2 * n ≤ a + 2) (hhi : a + 2 ≤ hi) :
    (v.stosw (-2) w n a).Within lo hi := by
  induction n generalizing a v with
  | zero => exact h
  | succ n ih => exact ih (h.store (by omega) hhi) (by omega) (by omega)

theorem Within.movl (h : v.Within lo hi) (hlo : lo ≤ dst) (hhi : dst + 4 ≤ hi) :
    (v.movl src dst).Within lo hi :=
  (h.store hlo (by omega)).store (by omega) (by omega)

theorem Within.movsl_up (h : v.Within lo hi) (hlo : lo ≤ dst) (hhi : dst + 4 * n ≤ hi) :
    (v.movsl 4 n src dst).Within lo hi := by
  induction n generalizing src dst v with
  | zero => exact h
  | succ n ih => exact ih (h.movl hlo (by omega)) (by omega) (by omega)

/-- The double words below `dst + 4`. -/
theorem Within.movsl_down (h : v.Within lo hi) (hlo : lo + 4 * n ≤ dst + 4) (hhi : dst + 4 ≤ hi) :
    (v.movsl (-4) n src dst).Within lo hi := by
  induction n generalizing src dst v with
  | zero => exact h
  | succ n ih => exact ih (h.movl (by omega) hhi) (by omega) (by omega)

theorem Within.insertCells (h : v.Within lo hi) (hlo : lo ≤ a) (hhi : a + 2 * n ≤ hi) :
    (v.insertCells n a w).Within lo hi := by
  induction n generalizing a v w with
  | zero => exact h
  | succ n ih => exact ih (h.store hlo (by omega)) (by omega) (by omega)

theorem Within.deleteCells (h : v.Within lo hi) (hlo : lo ≤ a) (hhi : a + 2 * n ≤ hi) :
    (v.deleteCells n a).Within lo hi := by
  induction n generalizing a v with
  | zero => exact h
  | succ n ih => exact ih (h.store hlo (by omega)) (by omega) (by omega)

theorem Within.describe (h : v.Within lo hi) {bs : List UInt8} (hlo : lo ≤ a)
    (hhi : a + 2 * bs.length ≤ hi) : (v.describe bs a).Within lo hi := by
  induction bs generalizing a v with
  | nil => exact h
  | cons b bs ih =>
      rw [List.length_cons] at hhi
      exact ih (h.storeByte hlo (by omega)) (by omega) (by omega)

end Video

/-! ## The screen -/

/-- Cursor, scroll region and window are in order, and nothing was written outside
the video memory. -/
structure Safe (d : Display) (c : Console) : Prop where
  pos_eq : c.pos = c.origin + (c.y * d.row : ℕ) + (2 * c.x : ℕ)
  x_le : c.x ≤ d.cols
  y_lt : c.y < videoNumLines
  top_lt : c.top < c.bottom
  bottom_le : c.bottom ≤ videoNumLines
  scrEnd_eq : c.scrEnd = c.origin + (videoNumLines * d.row : ℕ)
  memStart_le : d.memStart ≤ c.origin
  scrEnd_le : c.scrEnd ≤ d.memEnd
  within : c.video.Within d.memStart d.memEnd

namespace Safe

variable {d : Display} {c : Console}

/-- A row and those before it. -/
theorem row_le {k : ℕ} (h : k < videoNumLines) : k * d.row + d.row ≤ videoNumLines * d.row := by
  have := Nat.mul_le_mul_right d.row h
  rwa [Nat.succ_mul] at this

/-- The parser, the attribute and the saved position do not matter. -/
theorem frame {c' : Console} (h : Safe d c)
    (heq : (c'.origin, c'.scrEnd, c'.pos, c'.x, c'.y, c'.top, c'.bottom, c'.video) =
      (c.origin, c.scrEnd, c.pos, c.x, c.y, c.top, c.bottom, c.video)) : Safe d c' := by
  simp only [Prod.mk.injEq] at heq
  obtain ⟨h₁, h₂, h₃, h₄, h₅, h₆, h₇, h₈⟩ := heq
  constructor <;> simp only [h₁, h₂, h₃, h₄, h₅, h₆, h₇, h₈]
  exacts [h.pos_eq, h.x_le, h.y_lt, h.top_lt, h.bottom_le, h.scrEnd_eq, h.memStart_le, h.scrEnd_le,
    h.within]

theorem withVideo (h : Safe d c) {v : Video} (hv : v.Within d.memStart d.memEnd) :
    Safe d { c with video := v } :=
  ⟨h.pos_eq, h.x_le, h.y_lt, h.top_lt, h.bottom_le, h.scrEnd_eq, h.memStart_le, h.scrEnd_le, hv⟩

theorem withRegion (h : Safe d c) {top bottom : ℕ} (hlt : top < bottom)
    (hle : bottom ≤ videoNumLines) : Safe d { c with top, bottom } :=
  ⟨h.pos_eq, h.x_le, h.y_lt, hlt, hle, h.scrEnd_eq, h.memStart_le, h.scrEnd_le, h.within⟩

theorem withCursor (h : Safe d c) {x y : ℕ} {pos : ℤ} (hx : x ≤ d.cols) (hy : y < videoNumLines)
    (hpos : pos = c.origin + (y * d.row : ℕ) + (2 * x : ℕ)) : Safe d { c with x, y, pos } :=
  ⟨hpos, hx, hy, h.top_lt, h.bottom_le, h.scrEnd_eq, h.memStart_le, h.scrEnd_le, h.within⟩

/-- The cursor is at the start of its row, the row ends before the screen does. -/
theorem row_bounds (h : Safe d c) : d.memStart ≤ c.pos - (2 * c.x : ℕ) ∧
    c.pos - (2 * c.x : ℕ) + d.row ≤ d.memEnd := by
  have hrow := row_le (d := d) h.y_lt
  have h₁ := h.pos_eq
  have h₂ := h.scrEnd_eq
  have h₃ := h.memStart_le
  have h₄ := h.scrEnd_le
  omega

theorem gotoxy (h : Safe d c) (x y : ℕ) : Safe d (c.gotoxy d x y) := by
  unfold Console.gotoxy
  split
  next => exact h
  next hin =>
    have hx : x ≤ d.cols := Nat.le_of_not_lt fun h => hin (.inl h)
    have hy : y < videoNumLines := Nat.lt_of_not_le fun h => hin (.inr h)
    exact h.withCursor hx hy rfl

/-- The double words of a region without its last row. -/
theorem four_mul_half_le (k : ℕ) : 4 * (k * d.cols / 2) ≤ k * d.row := by
  have h := Nat.div_mul_le_self (k * d.cols) 2
  have hrow : k * d.row = k * d.cols * 2 := by
    rw [Display.row, Nat.mul_assoc]
  omega

theorem scrollRegionUp (h : Safe d c) : Safe d (c.scrollRegionUp d) := by
  have hhalf := four_mul_half_le (d := d) (c.bottom - c.top - 1)
  have hregion : d.row * c.top + (c.bottom - c.top - 1) * d.row + d.row ≤ videoNumLines * d.row := by
    have hle := Nat.mul_le_mul_right d.row h.bottom_le
    have hsum : c.top + (c.bottom - c.top - 1) + 1 = c.bottom := by
      have := h.top_lt
      omega
    rw [← hsum, Nat.succ_mul, Nat.add_mul, Nat.mul_comm c.top] at hle
    exact hle
  have hcols : d.row = d.cols * 2 := rfl
  have h₂ := h.scrEnd_eq
  have h₃ := h.memStart_le
  have h₄ := h.scrEnd_le
  refine h.withVideo ((h.within.movsl_up ?_ ?_).stosw_up ?_ ?_) <;> omega

theorem scrdown (h : Safe d c) : Safe d (c.scrdown d) := by
  have hhalf := four_mul_half_le (d := d) (c.bottom - c.top - 1)
  have hregion : (c.bottom - c.top - 1) * d.row + d.row ≤ d.row * c.bottom := by
    have hle : c.bottom - c.top - 1 + 1 ≤ c.bottom := by
      have := h.top_lt
      omega
    have := Nat.mul_le_mul_right d.row hle
    rwa [Nat.succ_mul, Nat.mul_comm c.bottom] at this
  have hbottom : d.row * c.bottom ≤ videoNumLines * d.row := by
    rw [Nat.mul_comm]
    exact Nat.mul_le_mul_right d.row h.bottom_le
  have hcols : d.row = d.cols * 2 := rfl
  have h₂ := h.scrEnd_eq
  have h₃ := h.memStart_le
  have h₄ := h.scrEnd_le
  refine h.withVideo ((h.within.movsl_down ?_ ?_).stosw_down ?_ ?_) <;> omega

/-- The window goes back to the start of the video memory. -/
theorem scrup_wrapped (h : Safe d c) {v : Video} (hv : v.Within d.memStart d.memEnd) : Safe d
    { c with
      video := v
      scrEnd := c.scrEnd + d.row - (c.origin + d.row - d.memStart)
      pos := c.pos + d.row - (c.origin + d.row - d.memStart)
      origin := d.memStart } := by
  have h₁ := h.pos_eq
  have h₂ := h.scrEnd_eq
  have hfits : d.memStart + (videoNumLines * d.row : ℕ) ≤ d.memEnd := d.fits
  refine ⟨?_, h.x_le, h.y_lt, h.top_lt, h.bottom_le, ?_, Int.le_refl _, ?_, hv⟩
  · dsimp only
    omega
  · dsimp only
    omega
  · dsimp only
    omega

theorem scrup (h : Safe d c) : Safe d (c.scrup d) := by
  have hcols : d.row = d.cols * 2 := rfl
  have h₁ := h.pos_eq
  have h₂ := h.scrEnd_eq
  have h₃ := h.memStart_le
  have h₄ := h.scrEnd_le
  have hfits : d.memStart + (videoNumLines * d.row : ℕ) ≤ d.memEnd := d.fits
  unfold Console.scrup
  split
  next =>
    dsimp only
    split
    next =>
      have hhalf := four_mul_half_le (d := d) (videoNumLines - 1)
      have hrow : (videoNumLines - 1) * d.row + d.row = videoNumLines * d.row :=
        (Nat.succ_mul 24 d.row).symm
      refine h.scrup_wrapped ((h.within.movsl_up ?_ ?_).stosw_up ?_ ?_) <;> omega
    next hend =>
      have hv := h.within.stosw_up (w := videoEraseChar) (n := d.cols)
        (a := c.scrEnd + d.row - d.row) (by omega) (by omega)
      refine ⟨?_, h.x_le, h.y_lt, h.top_lt, h.bottom_le, ?_, ?_, ?_, hv⟩
      · dsimp only
        omega
      · dsimp only
        omega
      · dsimp only
        omega
      · dsimp only
        omega
  next => exact h.scrollRegionUp

/-! ## Operations -/

theorem lf (h : Safe d c) : Safe d (c.lf d) := by
  unfold Console.lf
  split
  next hlt =>
    have hpos := h.pos_eq
    refine h.withCursor h.x_le (Nat.lt_of_lt_of_le hlt h.bottom_le) ?_
    rw [Nat.succ_mul]
    omega
  next => exact h.scrup

theorem ri (h : Safe d c) : Safe d (c.ri d) := by
  unfold Console.ri
  split
  next hlt =>
    have hpos := h.pos_eq
    have hy := h.y_lt
    obtain ⟨y, hy'⟩ : ∃ y, c.y = y + 1 := ⟨c.y - 1, by omega⟩
    rw [hy', Nat.succ_mul] at hpos
    refine h.withCursor h.x_le (by omega) ?_
    rw [hy', Nat.add_sub_cancel]
    omega
  next => exact h.scrdown

theorem cr (h : Safe d c) : Safe d c.cr := by
  have hpos := h.pos_eq
  refine h.withCursor (y := c.y) (Nat.zero_le _) h.y_lt ?_
  omega

theorem backspace (h : Safe d c) : Safe d c.backspace := by
  unfold Console.backspace
  split
  next => exact h
  next hx =>
    have hpos := h.pos_eq
    have hle := h.x_le
    refine h.withCursor (y := c.y) (by omega) h.y_lt ?_
    omega

theorem del (h : Safe d c) : Safe d c.del := by
  unfold Console.del
  split
  next => exact h
  next hx =>
    have hpos := h.pos_eq
    have hle := h.x_le
    have hcols : d.row = d.cols * 2 := rfl
    obtain ⟨hlo, hhi⟩ := h.row_bounds
    have hv := h.within.store (w := videoEraseChar) (a := c.pos - 2) (by omega) (by omega)
    refine (h.withVideo hv).withCursor (y := c.y) (by omega) h.y_lt ?_
    dsimp only
    omega

theorem erase (h : Safe d c) {count : ℕ} {start : ℤ} (hlo : d.memStart ≤ start)
    (hhi : start + 2 * count ≤ d.memEnd) : Safe d (c.erase count start) :=
  h.withVideo (h.within.stosw_up hlo hhi)

theorem csiJ (h : Safe d c) (par : UInt32) : Safe d (c.csiJ d par) := by
  have hpos := h.pos_eq
  have hend := h.scrEnd_eq
  have hlo := h.memStart_le
  have hhi := h.scrEnd_le
  have hx := h.x_le
  have hrow := row_le (d := d) h.y_lt
  have hcols : d.row = d.cols * 2 := rfl
  unfold Console.csiJ
  split
  next => exact h.erase (by omega) (by omega)
  split
  next => exact h.erase hlo (by omega)
  split
  next =>
    refine h.erase hlo ?_
    have hall : d.cols * videoNumLines * 2 = videoNumLines * d.row := by
      rw [hcols, Nat.mul_comm d.cols, Nat.mul_assoc]
    omega
  next => exact h

theorem csiK (h : Safe d c) (par : UInt32) : Safe d (c.csiK d par) := by
  have hpos := h.pos_eq
  have hx := h.x_le
  have hcols : d.row = d.cols * 2 := rfl
  obtain ⟨hlo, hhi⟩ := h.row_bounds
  unfold Console.csiK
  split
  next =>
    split
    next => exact h
    next => exact h.erase (by omega) (by omega)
  split
  next =>
    refine h.erase hlo ?_
    split <;> omega
  split
  next => exact h.erase hlo (by omega)
  next => exact h

theorem insertChar (h : Safe d c) : Safe d (c.insertChar d) := by
  have hpos := h.pos_eq
  have hx := h.x_le
  have hcols : d.row = d.cols * 2 := rfl
  obtain ⟨hlo, hhi⟩ := h.row_bounds
  exact h.withVideo (h.within.insertCells (by omega) (by omega))

theorem deleteChar (h : Safe d c) : Safe d (c.deleteChar d) := by
  have hpos := h.pos_eq
  have hcols : d.row = d.cols * 2 := rfl
  obtain ⟨hlo, hhi⟩ := h.row_bounds
  unfold Console.deleteChar
  split
  next => exact h
  next hx =>
    refine h.withVideo ((h.within.deleteCells ?_ ?_).store ?_ ?_) <;> omega

/-- The region is changed for one scroll. -/
theorem fromCursor (h : Safe d c) {scroll : Console → Console}
    (hscroll : ∀ c, Safe d c → Safe d (scroll c)) : Safe d (c.fromCursor scroll) :=
  (hscroll _ (h.withRegion h.y_lt (Nat.le_refl _))).withRegion h.top_lt h.bottom_le

theorem insertLine (h : Safe d c) : Safe d (c.insertLine d) := h.fromCursor fun _ h => h.scrdown

theorem deleteLine (h : Safe d c) : Safe d (c.deleteLine d) := h.fromCursor fun _ h => h.scrup

theorem iterate {f : Console → Console} (hf : ∀ c, Safe d c → Safe d (f c)) (n : ℕ) (h : Safe d c) :
    Safe d (f^[n] c) := by
  induction n generalizing c with
  | zero => exact h
  | succ n ih => exact ih (hf c h)

theorem setRegion (h : Safe d c) (first last : UInt32) : Safe d (c.setRegion first last) := by
  unfold Console.setRegion
  generalize (if last = 0 then UInt32.ofNat videoNumLines else last) = last
  dsimp only
  split
  next hr =>
    obtain ⟨hlt, hle⟩ := hr
    refine h.withRegion (UInt32.lt_iff_toNat_lt.1 hlt) ?_
    exact UInt32.le_iff_toNat_le.1 hle
  next => exact h

/-! ## Bytes -/

/-- The cursor is too far to the right, by no more than a row. -/
theorem wrap (h : Safe d c) {x : ℕ} {pos : ℤ} (hge : d.cols ≤ x) (hle : x ≤ 2 * d.cols)
    (hpos : pos = c.origin + (c.y * d.row : ℕ) + (2 * x : ℕ)) :
    Safe d (Console.wrap d { c with x, pos }) := by
  have hcols : d.row = d.cols * 2 := rfl
  refine lf (h.withCursor (y := c.y) ?_ h.y_lt ?_)
  · dsimp only
    omega
  · dsimp only
    omega

theorem x_scrup : (c.scrup d).x = c.x := by
  unfold Console.scrup
  split
  next =>
    dsimp only
    split
    next => rfl
    next => rfl
  next => rfl

theorem x_lf : (c.lf d).x = c.x := by
  unfold Console.lf
  split
  next => rfl
  next => exact x_scrup

theorem putChar (h : Safe d c) (b : UInt8) : Safe d (c.putChar d b) := by
  have hcols : d.row = d.cols * 2 := rfl
  have hwrap : Safe d (if d.cols ≤ c.x then c.wrap d else c) ∧
      (if d.cols ≤ c.x then c.wrap d else c).x < d.cols := by
    have hx := h.x_le
    have hge := d.cols_ge
    split
    next hfull =>
      refine ⟨h.wrap hfull (by omega) h.pos_eq, ?_⟩
      rw [Console.wrap, x_lf]
      dsimp only
      omega
    next hroom => exact ⟨h, Nat.lt_of_not_le hroom⟩
  obtain ⟨h, hx⟩ := hwrap
  unfold Console.putChar
  generalize (if d.cols ≤ c.x then c.wrap d else c) = c' at h hx
  have hpos := h.pos_eq
  obtain ⟨hlo, hhi⟩ := h.row_bounds
  have hv := h.within.store (w := c'.attr.toUInt16 <<< 8 ||| b.toUInt16) (a := c'.pos) (by omega)
    (by omega)
  refine (h.withVideo hv).withCursor (y := c'.y) (by omega) h.y_lt ?_
  dsimp only
  omega

theorem tab (h : Safe d c) : Safe d (c.tab d) := by
  have hpos := h.pos_eq
  have hx := h.x_le
  have hge := d.cols_ge
  unfold Console.tab
  dsimp only
  split
  next hlt => exact h.wrap (by omega) (by omega) (by omega)
  next hle =>
    refine h.withCursor (y := c.y) (by omega) h.y_lt ?_
    omega

theorem ite {p : Prop} [Decidable p] {c' : Console} (h : Safe d c) (h' : Safe d c') :
    Safe d (if p then c else c') := by
  split
  next => exact h
  next => exact h'

theorem normalByte (h : Safe d c) (eraseChar b : UInt8) : Safe d (c.normalByte d eraseChar b) := by
  unfold Console.normalByte
  refine ite (h.putChar b) ?_
  refine ite (h.frame rfl) ?_
  refine ite h.lf ?_
  refine ite h.cr ?_
  refine ite h.del ?_
  refine ite h.backspace ?_
  refine ite h.tab ?_
  exact h

theorem escByte (h : Safe d c) (b : UInt8) : Safe d (c.escByte d b) := by
  have h : Safe d { c with state := .normal } := h.frame rfl
  unfold Console.escByte
  generalize { c with state := Escape.normal } = c at h
  dsimp only
  refine ite (h.frame rfl) ?_
  refine ite (h.gotoxy _ _) ?_
  refine ite h.ri ?_
  refine ite h.lf ?_
  refine ite h ?_
  refine ite (h.frame rfl) ?_
  refine ite (h.gotoxy _ _) ?_
  exact h

theorem csi (h : Safe d c) (b : UInt8) : Safe d (c.csi d b) := by
  have h : Safe d { c with state := .normal } := h.frame rfl
  unfold Console.csi
  generalize { c with state := Escape.normal } = c at h
  dsimp only
  refine ite (h.gotoxy _ _) ?_
  refine ite (h.gotoxy _ _) ?_
  refine ite (h.gotoxy _ _) ?_
  refine ite (h.gotoxy _ _) ?_
  refine ite (h.gotoxy _ _) ?_
  refine ite (h.gotoxy _ _) ?_
  refine ite (h.gotoxy _ _) ?_
  refine ite (h.gotoxy _ _) ?_
  refine ite (h.gotoxy _ _) ?_
  refine ite (h.csiJ _) ?_
  refine ite (h.csiK _) ?_
  refine ite (iterate (fun _ h => h.insertLine) _ h) ?_
  refine ite (iterate (fun _ h => h.deleteLine) _ h) ?_
  refine ite (iterate (fun _ h => h.deleteChar) _ h) ?_
  refine ite (iterate (fun _ h => h.insertChar) _ h) ?_
  refine ite (h.frame rfl) ?_
  refine ite (h.setRegion _ _) ?_
  refine ite (h.frame rfl) ?_
  refine ite (h.gotoxy _ _) ?_
  exact h

theorem paramByte (h : Safe d c) (b : UInt8) : Safe d (c.paramByte d b) := by
  unfold Console.paramByte
  refine ite (h.frame rfl) ?_
  refine ite (h.frame rfl) ?_
  exact h.csi b

theorem bracketByte (h : Safe d c) (b : UInt8) : Safe d (c.bracketByte d b) := by
  have h : Safe d { c with npar := 0, par := fun _ => 0, state := .params, ques := b = 63 } :=
    h.frame rfl
  unfold Console.bracketByte
  dsimp only
  refine ite h ?_
  exact h.paramByte b

theorem byte (h : Safe d c) (eraseChar b : UInt8) : Safe d (c.byte d eraseChar b) := by
  unfold Console.byte
  split
  next => exact h.normalByte eraseChar b
  next => exact h.escByte b
  next => exact h.bracketByte b
  next => exact h.paramByte b

end Safe

/-! ## Byte streams -/

theorem conInit_safe (b : BootParams) (h : b.Usable) (mem : ℤ → UInt8) :
    Safe (b.display h) (conInit b h mem) := by
  have hx : (b.display h).cols = b.cols := rfl
  have hrow : (b.display h).row = b.cols * 2 := rfl
  have hcols := h.cols_ge
  have hfits : (b.display h).memStart + (videoNumLines * (b.display h).row : ℕ) ≤
      (b.display h).memEnd := (b.display h).fits
  have hlines : (b.display h).row ≤ videoNumLines * (b.display h).row :=
    Nat.le_mul_of_pos_left _ (by decide)
  have hdesc : b.displayDesc.length = 4 := by
    unfold BootParams.displayDesc
    split <;> split <;> rfl
  have hv : Video.Within (b.display h).memStart (b.display h).memEnd
      (Video.describe b.displayDesc ((b.display h).memStart + (b.display h).row - 8) ⟨mem, []⟩) := by
    refine Video.Within.describe (fun a ha => absurd ha List.not_mem_nil) ?_ ?_
    · omega
    · rw [hdesc]
      omega
  unfold conInit Console.gotoxy
  dsimp only
  rw [if_neg]
  · exact ⟨rfl, h.x_le, h.y_lt, Nat.succ_pos 24, Nat.le_refl _, rfl, Int.le_refl _, hfits, hv⟩
  · rintro (hlt | hle)
    · exact absurd h.x_le (Nat.not_le.2 hlt)
    · exact absurd h.y_lt (Nat.not_lt.2 hle)

/-- After every byte of a stream the console is in order and has written nothing
outside the video memory. -/
theorem con_write_safe (b : BootParams) (h : b.Usable) (mem : ℤ → UInt8)
    (bytes : List (UInt8 × UInt8)) :
    Always (fun c a => c.byte (b.display h) a.1 a.2) (Safe (b.display h)) (conInit b h mem) bytes :=
  Always.of_invariant (fun _ h => h) (fun _ a h => h.byte a.1 a.2) (conInit_safe b h mem)

/-- A display of 80 columns; the last line is passed, which scrolls the screen. -/
theorem con_write_safe_vga :
    let b : BootParams := ⟨79, 24, 0x5003, 0⟩
    ∃ h : b.Usable, Always (fun c a => c.byte (b.display h) a.1 a.2) (Safe (b.display h))
      (conInit b h fun _ => 0) [(127, 97), (127, 98), (127, 27), (127, 91), (127, 75)] :=
  have h : BootParams.Usable ⟨79, 24, 0x5003, 0⟩ :=
    ⟨by decide, by decide, by decide, by decide⟩
  ⟨h, con_write_safe ⟨79, 24, 0x5003, 0⟩ h (fun _ => 0) _⟩

end MyJavaExample.Tty
