import MyJavaExample.Lib.Calendar
import MyJavaExample.Lib.Int32

/-!
# The calendar of the kernel: `kernel/mktime.c`

`kernel_mktime` counts a leap day in every fourth year, and takes the months
from a table for leap years.  Against the calendar it has one day too many for
every year that is no leap year although 4 divides it; the first of them is
2100.  Numbers are not bounded here; up to January 2038 they fit into a `long`.
-/

namespace MyJavaExample.Kernel

open Lib

/-! ## The function -/

def MINUTE : ℤ := 60

def HOUR : ℤ := 60 * MINUTE

def DAY : ℤ := 24 * HOUR

def YEAR : ℤ := 365 * DAY

/-- The table assumes leap years. -/
def month : List ℤ :=
  [0,
    DAY * 31,
    DAY * (31 + 29),
    DAY * (31 + 29 + 31),
    DAY * (31 + 29 + 31 + 30),
    DAY * (31 + 29 + 31 + 30 + 31),
    DAY * (31 + 29 + 31 + 30 + 31 + 30),
    DAY * (31 + 29 + 31 + 30 + 31 + 30 + 31),
    DAY * (31 + 29 + 31 + 30 + 31 + 30 + 31 + 31),
    DAY * (31 + 29 + 31 + 30 + 31 + 30 + 31 + 31 + 30),
    DAY * (31 + 29 + 31 + 30 + 31 + 30 + 31 + 31 + 30 + 31),
    DAY * (31 + 29 + 31 + 30 + 31 + 30 + 31 + 31 + 30 + 31 + 30)]

/-- The fields of `struct tm` that are read. -/
structure Tm where
  sec : ℤ
  min : ℤ
  hour : ℤ
  mday : ℤ
  mon : ℤ
  year : ℤ

/-- `kernel_mktime`; none if `tm_mon` is no index of the table. -/
def kernelMktime (tm : Tm) : Option ℤ :=
  if tm.mon < 0 then none
  else
    month[tm.mon.toNat]?.map fun start =>
      let year := tm.year - 70
      let res := YEAR * year + DAY * (year + 1).tdiv 4
      let res := res + start
      let res := if 1 < tm.mon ∧ (year + 2).tmod 4 ≠ 0 then res - DAY else res
      let res := res + DAY * (tm.mday - 1)
      let res := res + HOUR * tm.hour
      let res := res + MINUTE * tm.min
      res + tm.sec

/-- The broken-down time of a date. -/
def Tm.ofDateTime (t : DateTime) : Tm where
  sec := t.time.second
  min := t.time.minute
  hour := t.time.hour
  mday := t.date.day
  mon := t.date.month
  year := (t.date.year : ℤ) - 1900

/-! ## The leap days that are counted -/

/-- A year with a leap day in `kernel_mktime` but not in the calendar. -/
def CountedLeap (y : ℕ) : Prop := 4 ∣ y ∧ ¬IsLeap y

instance : DecidablePred CountedLeap := fun y => inferInstanceAs (Decidable (4 ∣ y ∧ ¬IsLeap y))

/-- The days before the date that `kernel_mktime` counts and the calendar does not have. -/
def extraDays (d : Date) : ℕ :=
  {y ∈ Finset.Ico 1970 d.year | CountedLeap y}.card +
    if 1 < d.month ∧ CountedLeap d.year then 1 else 0

variable {y n m : ℕ} {d : Date} {t t' : DateTime}

theorem isLeap_or_countedLeap : IsLeap y ∨ CountedLeap y ↔ 4 ∣ y := by
  refine ⟨fun h => h.elim And.left And.left, fun hfour => ?_⟩
  by_cases hleap : IsLeap y
  · exact .inl hleap
  · exact .inr ⟨hfour, hleap⟩

/-- The years up to `n`, as `kernel_mktime` counts their days. -/
theorem sum_daysInYear (hn : 1970 ≤ n) :
    ∑ y ∈ Finset.Ico 1970 n, daysInYear y + {y ∈ Finset.Ico 1970 n | CountedLeap y}.card =
      365 * (n - 1970) + (n - 1969) / 4 := by
  rw [Finset.card_filter, ← Finset.sum_add_distrib]
  induction n, hn using Nat.le_induction with
  | base => rfl
  | succ n hn ih =>
      have hyear : daysInYear n + (if CountedLeap n then 1 else 0) = if 4 ∣ n then 366 else 365 := by
        rw [daysInYear_eq]
        by_cases hleap : IsLeap n
        · rw [if_pos hleap, if_neg fun h => h.2 hleap, if_pos hleap.1]
        · by_cases hfour : 4 ∣ n
          · rw [if_neg hleap, if_pos ⟨hfour, hleap⟩, if_pos hfour]
          · rw [if_neg hleap, if_neg fun h => hfour h.1, if_neg hfour]
      rw [Finset.sum_Ico_succ_top hn, ih, hyear]
      split <;> omega

/-- The table has the months of a leap year. -/
theorem getElem?_month_leap : ∀ m < 12,
    month[m]? = some (DAY * (∑ i ∈ Finset.range m, daysInMonth 1972 i : ℕ)) := by
  decide

/-- Any other year is a day behind a leap year after February. -/
theorem sum_daysInMonth (y m : ℕ) :
    ∑ i ∈ Finset.range m, daysInMonth y i + (if 1 < m ∧ ¬IsLeap y then 1 else 0) =
      ∑ i ∈ Finset.range m, daysInMonth 1972 i := by
  have hleap : IsLeap 1972 := by decide
  induction m with
  | zero => rfl
  | succ m ih =>
      rw [Finset.sum_range_succ, Finset.sum_range_succ, ← ih]
      by_cases hfeb : m = 1
      · subst hfeb
        by_cases hy : IsLeap y
        · simp [daysInMonth, hy, hleap]
        · simp [daysInMonth, hy, hleap]
      · have hsame : daysInMonth y m = daysInMonth 1972 m := by
          unfold daysInMonth
          split <;> first | rfl | contradiction
        have hafter : 1 < m + 1 ∧ ¬IsLeap y ↔ 1 < m ∧ ¬IsLeap y := and_congr_left fun _ => by omega
        rw [hsame, if_congr hafter rfl rfl, Nat.add_right_comm]

theorem getElem?_month (y : ℕ) (hm : m < 12) :
    month[m]? = some (DAY * (∑ i ∈ Finset.range m, daysInMonth y i : ℕ) +
      if 1 < m ∧ ¬IsLeap y then DAY else 0) := by
  rw [getElem?_month_leap m hm, ← sum_daysInMonth y m, Nat.cast_add, Int.mul_add]
  split
  · rw [Nat.cast_one, Int.mul_one]
  · rw [Nat.cast_zero, Int.mul_zero]

/-- The first magic offset: the days of the years. -/
theorem years_eq (hy : 1970 ≤ y) :
    YEAR * ((y : ℤ) - 1900 - 70) + DAY * ((y : ℤ) - 1900 - 70 + 1).tdiv 4 =
      DAY * ((∑ i ∈ Finset.Ico 1970 y, daysInYear i +
        {i ∈ Finset.Ico 1970 y | CountedLeap i}.card : ℕ) : ℤ) := by
  rw [sum_daysInYear hy, Int.tdiv_eq_ediv_of_nonneg (by omega), YEAR]
  have hquot : ((y : ℤ) - 1900 - 70 + 1) / 4 = ((y - 1969) / 4 : ℕ) := by omega
  rw [hquot, DAY, HOUR, MINUTE]
  omega

/-- The second magic offset: the table is right in a leap year, and otherwise has a
day too many after February. -/
theorem months_eq (hy : 1970 ≤ y) (res : ℤ) :
    (if 1 < (m : ℤ) ∧ ((y : ℤ) - 1900 - 70 + 2).tmod 4 ≠ 0 then
        res + (if 1 < m ∧ ¬IsLeap y then DAY else 0) - DAY
      else res + if 1 < m ∧ ¬IsLeap y then DAY else 0) =
      res + DAY * ((if 1 < m ∧ CountedLeap y then 1 else 0 : ℕ) : ℤ) := by
  have hadjust : (1 < (m : ℤ) ∧ ((y : ℤ) - 1900 - 70 + 2).tmod 4 ≠ 0) ↔
      1 < m ∧ ¬(IsLeap y ∨ CountedLeap y) := by
    rw [isLeap_or_countedLeap, Int.tmod_eq_emod_of_nonneg (by omega)]
    omega
  rw [if_congr hadjust rfl rfl]
  by_cases hleap : IsLeap y
  · rw [if_neg fun h => h.2 (.inl hleap), if_neg fun h => h.2 hleap, if_neg fun h => h.2.2 hleap]
    rfl
  · by_cases hcounted : CountedLeap y
    · simp only [hleap, hcounted, or_true, not_true, not_false_iff, and_true, and_false, if_false]
      split <;> rfl
    · simp only [hleap, hcounted, or_self, not_false_iff, and_true, and_false, if_false]
      split <;> simp

/-- `kernel_mktime` on any date since 1970. -/
theorem kernelMktime_eq (hyear : 1970 ≤ t.date.year) :
    kernelMktime (.ofDateTime t) =
      some ((t.secondsSince 1970 : ℤ) + DAY * (extraDays t.date : ℤ)) := by
  have hmonth := getElem?_month t.date.year t.date.month_lt
  have hpos := t.date.day_pos
  rw [kernelMktime, Tm.ofDateTime, if_neg (Int.not_lt.2 (Int.natCast_nonneg _)), Int.toNat_natCast,
    hmonth, Option.map_some]
  dsimp only
  rw [years_eq hyear, ← Int.add_assoc, months_eq hyear, extraDays, DateTime.secondsSince,
    Date.daysSince, Date.dayOfYear, Time.seconds, DAY, HOUR, MINUTE, Option.some.injEq]
  omega

-- The end of 29 February 2000.
example : kernelMktime ⟨59, 59, 23, 29, 1, 100⟩ = some 951868799 := by decide

/-! ## From 1970 to 2099 -/

/-- In every year up to 2099 that 4 divides there is a leap day. -/
theorem not_countedLeap (hy : 1970 ≤ y) (hlast : y ≤ 2099) : ¬CountedLeap y := by
  rintro ⟨hfour, hno⟩
  refine hno ⟨hfour, fun hcentury => ?_⟩
  omega

theorem extraDays_eq_zero_iff (hyear : 1970 ≤ d.year) :
    extraDays d = 0 ↔ d.year < 2100 ∨ d.year = 2100 ∧ d.month ≤ 1 := by
  have hcounted : CountedLeap 2100 := by decide
  rw [extraDays, Nat.add_eq_zero_iff, Finset.card_eq_zero, Finset.filter_eq_empty_iff]
  constructor
  · rintro ⟨hyears, hmonth⟩
    rcases Nat.lt_trichotomy d.year 2100 with hlt | heq | hgt
    · exact .inl hlt
    · refine .inr ⟨heq, Nat.not_lt.1 fun hm => ?_⟩
      rw [heq, if_pos ⟨hm, hcounted⟩] at hmonth
      cases hmonth
    · exact absurd hcounted (hyears (Finset.mem_Ico.2 ⟨by decide, hgt⟩))
  · intro hbefore
    refine ⟨fun y hy => ?_, if_neg ?_⟩
    · obtain ⟨hfirst, hlt⟩ := Finset.mem_Ico.1 hy
      exact not_countedLeap hfirst (by omega)
    · rintro ⟨hm, hleap⟩
      rcases hbefore with hlt | ⟨-, hm'⟩
      · exact not_countedLeap hyear (by omega) hleap
      · omega

/-- `kernel_mktime` agrees with the calendar up to the end of February 2100, and on no
later date. -/
theorem kernelMktime_eq_seconds_iff (hyear : 1970 ≤ t.date.year) :
    kernelMktime (.ofDateTime t) = some (t.secondsSince 1970 : ℤ) ↔
      t.date.year < 2100 ∨ t.date.year = 2100 ∧ t.date.month ≤ 1 := by
  rw [kernelMktime_eq hyear, ← extraDays_eq_zero_iff hyear, Option.some.injEq, DAY, HOUR, MINUTE]
  omega

/-- The dates from the first day of 1970 to the last one of 2099. -/
def kernelYears : Set DateTime := {t | 1970 ≤ t.date.year ∧ t.date.year ≤ 2099}

theorem kernelMktime_of_mem (ht : t ∈ kernelYears) :
    kernelMktime (.ofDateTime t) = some (t.secondsSince 1970 : ℤ) :=
  (kernelMktime_eq_seconds_iff ht.1).2 (.inl (Nat.lt_succ_of_le ht.2))

theorem secondsSince_lt_iff (ht : t ∈ kernelYears) (ht' : t' ∈ kernelYears) :
    t.secondsSince 1970 < t'.secondsSince 1970 ↔ t < t' :=
  (DateTime.strictMonoOn_secondsSince 1970).lt_iff_lt ht.1 ht'.1

/-- `kernel_mktime` gives the seconds since 1970 in the calendar, in the order of the dates. -/
theorem kernelMktime_calendar :
    (∀ t ∈ kernelYears, kernelMktime (.ofDateTime t) = some (t.secondsSince 1970 : ℤ)) ∧
      ∀ t ∈ kernelYears, ∀ t' ∈ kernelYears, t < t' →
        ∃ r r', kernelMktime (.ofDateTime t) = some r ∧ kernelMktime (.ofDateTime t') = some r' ∧
          r < r' := by
  refine ⟨fun t ht => kernelMktime_of_mem ht, fun t ht t' ht' h => ?_⟩
  have hlt := (secondsSince_lt_iff ht ht').2 h
  exact ⟨_, _, kernelMktime_of_mem ht, kernelMktime_of_mem ht', Int.ofNat_lt.2 hlt⟩

/-- The last second of a leap day, and the second after it. -/
def leapDayEnd : DateTime where
  date := ⟨2000, 1, 29, by decide, by decide, by decide⟩
  time := ⟨23, 59, 59, by decide, by decide, by decide⟩

def marchStart : DateTime where
  date := ⟨2000, 2, 1, by decide, by decide, by decide⟩
  time := ⟨0, 0, 0, by decide, by decide, by decide⟩

theorem kernelMktime_leapDayEnd :
    kernelMktime (.ofDateTime leapDayEnd) = some ((leapDayEnd.secondsSince 1970 : ℕ) : ℤ) ∧
      ∃ r r', kernelMktime (.ofDateTime leapDayEnd) = some r ∧
        kernelMktime (.ofDateTime marchStart) = some r' ∧ r < r' := by
  have hfirst : leapDayEnd ∈ kernelYears := ⟨by decide, by decide⟩
  have hsecond : marchStart ∈ kernelYears := ⟨by decide, by decide⟩
  exact ⟨kernelMktime_calendar.1 leapDayEnd hfirst,
    kernelMktime_calendar.2 leapDayEnd hfirst marchStart hsecond (by decide)⟩

/-! ## In a `long` -/

/-- The first second after the last one that a `long` holds. -/
def longEnd : DateTime where
  date := ⟨2038, 0, 19, by decide, by decide, by decide⟩
  time := ⟨3, 14, 8, by decide, by decide, by decide⟩

theorem longEnd_secondsSince : longEnd.secondsSince 1970 = 2 ^ 31 := by
  decide

/-- Kept in a `long`, the seconds are right until January 2038. -/
theorem toInt32_kernelMktime_iff (ht : t ∈ kernelYears) :
    (kernelMktime (.ofDateTime t)).map toInt32 = some (t.secondsSince 1970 : ℤ) ↔ t < longEnd := by
  rw [kernelMktime_of_mem ht, Option.map_some, Option.some.injEq,
    ← secondsSince_lt_iff ht ⟨by decide, by decide⟩, longEnd_secondsSince]
  constructor
  · intro heq
    have hupper := toInt32_upper (t.secondsSince 1970 : ℤ)
    omega
  · intro hlt
    exact toInt32_of_range (by omega) (by omega)

end MyJavaExample.Kernel
