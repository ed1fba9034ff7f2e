import Mathlib.Algebra.BigOperators.Intervals
import Mathlib.Algebra.Order.BigOperators.Group.Finset
import Mathlib.Data.Prod.Lex

/-!
# The Gregorian calendar

Years, months and days are parts of different lengths that follow each other.
A place in such a row is counted by the parts before it and what is left in its
own part, and places are in the order of their parts.  So the days and the
seconds since the start of a year are in the order of the dates.

Months are numbered from 0, days of a month from 1.
-/

namespace MyJavaExample.Lib

/-! ## Places in a row of parts -/

/-- The place `k` in part `n` of a row that starts with part `a`, where part `i`
has the length `w i`. -/
def place (w : ℕ → ℕ) (a n k : ℕ) : ℕ := ∑ i ∈ Finset.Ico a n, w i + k

section Place

variable {w : ℕ → ℕ} {a b n n' k k' : ℕ}

theorem place_lt_place (ha : a ≤ n) (hk : k < w n) (h : toLex (n, k) < toLex (n', k')) :
    place w a n k < place w a n' k' := by
  rcases Prod.Lex.toLex_lt_toLex.1 h with hn | ⟨rfl, hlt⟩
  · calc ∑ i ∈ Finset.Ico a n, w i + k
        < ∑ i ∈ Finset.Ico a n, w i + w n := Nat.add_lt_add_left hk _
      _ = ∑ i ∈ Finset.Ico a (n + 1), w i := (Finset.sum_Ico_succ_top ha w).symm
      _ ≤ ∑ i ∈ Finset.Ico a n', w i :=
          Finset.sum_le_sum_of_subset (Finset.Ico_subset_Ico_right hn)
      _ ≤ ∑ i ∈ Finset.Ico a n', w i + k' := Nat.le_add_right _ _
  · exact Nat.add_lt_add_left hlt _

/-- A place in one of the parts is in the row. -/
theorem place_lt_sum (ha : a ≤ n) (hk : k < w n) (hn : n < b) :
    place w a n k < ∑ i ∈ Finset.Ico a b, w i :=
  (place_lt_place ha hk (Prod.Lex.toLex_lt_toLex.2 (.inl hn))).trans_eq (Nat.add_zero _)

end Place

/-! ## Years and months -/

def IsLeap (y : ℕ) : Prop := 4 ∣ y ∧ (100 ∣ y → 400 ∣ y)

instance : DecidablePred IsLeap := fun y => inferInstanceAs (Decidable (4 ∣ y ∧ (100 ∣ y → 400 ∣ y)))

def daysInMonth (y : ℕ) : ℕ → ℕ
  | 1 => if IsLeap y then 29 else 28
  | 3 | 5 | 8 | 10 => 30
  | _ => 31

def daysInYear (y : ℕ) : ℕ := ∑ m ∈ Finset.range 12, daysInMonth y m

theorem daysInYear_eq (y : ℕ) : daysInYear y = if IsLeap y then 366 else 365 := by
  simp only [daysInYear, Finset.sum_range_succ, Finset.sum_range_zero, daysInMonth]
  split <;> rfl

/-! ## Dates -/

@[ext]
structure Date where
  year : ℕ
  month : ℕ
  day : ℕ
  month_lt : month < 12
  day_pos : 1 ≤ day
  day_le : day ≤ daysInMonth year month

namespace Date

def key (d : Date) : ℕ ×ₗ ℕ ×ₗ ℕ := toLex (d.year, toLex (d.month, d.day))

theorem key_injective : Function.Injective key := by
  intro d d' h
  obtain ⟨hyear, hmonth, hday⟩ : d.year = d'.year ∧ d.month = d'.month ∧ d.day = d'.day := by
    simpa [key] using h
  exact Date.ext hyear hmonth hday

instance : LinearOrder Date := LinearOrder.lift' key key_injective

/-- The days of the year before the date. -/
def dayOfYear (d : Date) : ℕ := ∑ m ∈ Finset.range d.month, daysInMonth d.year m + (d.day - 1)

/-- The days from the first day of the year `a` to the date: whole years, whole months
and days. -/
def daysSince (a : ℕ) (d : Date) : ℕ := ∑ y ∈ Finset.Ico a d.year, daysInYear y + d.dayOfYear

variable {a : ℕ} {d d' : Date}

theorem dayOfYear_eq (d : Date) :
    d.dayOfYear = place (daysInMonth d.year) 0 d.month (d.day - 1) := by
  rw [dayOfYear, place, Finset.range_eq_Ico]

theorem day_pred_lt (d : Date) : d.day - 1 < daysInMonth d.year d.month := by
  have hpos := d.day_pos
  have hle := d.day_le
  omega

theorem dayOfYear_lt (d : Date) : d.dayOfYear < daysInYear d.year := by
  rw [dayOfYear_eq, daysInYear, Finset.range_eq_Ico]
  exact place_lt_sum (Nat.zero_le _) d.day_pred_lt d.month_lt

theorem dayOfYear_lt_dayOfYear (hyear : d.year = d'.year)
    (h : toLex (d.month, d.day) < toLex (d'.month, d'.day)) : d.dayOfYear < d'.dayOfYear := by
  rw [dayOfYear_eq, dayOfYear_eq, ← hyear]
  refine place_lt_place (Nat.zero_le _) d.day_pred_lt ?_
  rw [Prod.Lex.toLex_lt_toLex] at h ⊢
  rcases h with hmonth | ⟨hmonth, hday⟩
  · exact .inl hmonth
  · have hpos : 1 ≤ d.day := d.day_pos
    have hpos' : 1 ≤ d'.day := d'.day_pos
    dsimp only at hday ⊢
    exact .inr ⟨hmonth, by omega⟩

theorem daysSince_lt_daysSince (ha : a ≤ d.year) (h : d < d') : d.daysSince a < d'.daysSince a := by
  refine place_lt_place ha d.dayOfYear_lt ?_
  have hkey : d.key < d'.key := h
  rcases Prod.Lex.toLex_lt_toLex.1 hkey with hyear | ⟨hyear, hrest⟩
  · exact Prod.Lex.toLex_lt_toLex.2 (.inl hyear)
  · exact Prod.Lex.toLex_lt_toLex.2 (.inr ⟨hyear, dayOfYear_lt_dayOfYear hyear hrest⟩)

end Date

/-! ## Dates with a time of day -/

@[ext]
structure Time where
  hour : ℕ
  minute : ℕ
  second : ℕ
  hour_lt : hour < 24
  minute_lt : minute < 60
  second_lt : second < 60

namespace Time

def key (t : Time) : ℕ ×ₗ ℕ ×ₗ ℕ := toLex (t.hour, toLex (t.minute, t.second))

theorem key_injective : Function.Injective key := by
  intro t t' h
  obtain ⟨hhour, hminute, hsecond⟩ :
      t.hour = t'.hour ∧ t.minute = t'.minute ∧ t.second = t'.second := by
    simpa [key] using h
  exact Time.ext hhour hminute hsecond

instance : LinearOrder Time := LinearOrder.lift' key key_injective

/-- The seconds of the day before the time. -/
def seconds (t : Time) : ℕ := 3600 * t.hour + 60 * t.minute + t.second

variable {t t' : Time}

theorem seconds_lt (t : Time) : t.seconds < 86400 := by
  have hhour := t.hour_lt
  have hminute := t.minute_lt
  have hsecond := t.second_lt
  rw [seconds]
  omega

theorem seconds_lt_seconds (h : t < t') : t.seconds < t'.seconds := by
  have hkey : t.key < t'.key := h
  have hminute := t.minute_lt
  have hsecond := t.second_lt
  rw [seconds, seconds]
  rcases Prod.Lex.toLex_lt_toLex.1 hkey with hhour | ⟨hhour, hrest⟩
  · dsimp only at hhour
    omega
  · rcases Prod.Lex.toLex_lt_toLex.1 hrest with hmin | ⟨hmin, hsec⟩
    · dsimp only at hhour hmin
      omega
    · dsimp only at hhour hmin hsec
      omega

end Time

@[ext]
structure DateTime where
  date : Date
  time : Time

namespace DateTime

def key (t : DateTime) : Date ×ₗ Time := toLex (t.date, t.time)

theorem key_injective : Function.Injective key := by
  intro t t' h
  obtain ⟨hdate, htime⟩ : t.date = t'.date ∧ t.time = t'.time := by simpa [key] using h
  exact DateTime.ext hdate htime

instance : LinearOrder DateTime := LinearOrder.lift' key key_injective

/-- The seconds from the start of the year `a`. -/
def secondsSince (a : ℕ) (t : DateTime) : ℕ := 86400 * t.date.daysSince a + t.time.seconds

variable {a : ℕ} {t t' : DateTime}

theorem secondsSince_lt_secondsSince (ha : a ≤ t.date.year) (h : t < t') :
    t.secondsSince a < t'.secondsSince a := by
  have hkey : t.key < t'.key := h
  have hlt := t.time.seconds_lt
  rw [secondsSince, secondsSince]
  rcases Prod.Lex.toLex_lt_toLex.1 hkey with hdate | ⟨hdate, htime⟩
  · have hdays := Date.daysSince_lt_daysSince ha hdate
    dsimp only at hdays
    omega
  · have hseconds := Time.seconds_lt_seconds htime
    dsimp only at hdate hseconds
    rw [hdate]
    omega

/-- The seconds are in the order of the dates. -/
theorem strictMonoOn_secondsSince (a : ℕ) :
    StrictMonoOn (secondsSince a) {t : DateTime | a ≤ t.date.year} :=
  fun _ ha _ _ h => secondsSince_lt_secondsSince ha h

end DateTime

end MyJavaExample.Lib
