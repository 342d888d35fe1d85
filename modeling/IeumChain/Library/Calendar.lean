import Mathlib.Tactic.IntervalCases

/-!
# The Gregorian calendar

A date is counted on day by day, with a leap year every four years, except in a century that
400 does not divide. The number of a day in the order of the calendar is a formula in years that
begin in March, so that the leap day is the last day of a year.
-/
namespace Calendar

def isLeap (year : ℕ) : Bool := year % 4 = 0 ∧ (year % 100 ≠ 0 ∨ year % 400 = 0)

def daysInMonth (year month : ℕ) : ℕ :=
  if month = 2 then if isLeap year then 29 else 28
  else if month = 4 ∨ month = 6 ∨ month = 9 ∨ month = 11 then 30
  else 31

theorem daysInMonth_pos (year month : ℕ) : 1 ≤ daysInMonth year month := by
  unfold daysInMonth
  split_ifs <;> decide

/-- A day of the calendar, which has no year 0. -/
structure Date where
  year : ℕ
  month : ℕ
  day : ℕ
  year_pos : 1 ≤ year
  month_pos : 1 ≤ month
  month_le : month ≤ 12
  day_pos : 1 ≤ day
  day_le : day ≤ daysInMonth year month
  deriving DecidableEq

namespace Date

/-- New Year's day. -/
def newYear (year : ℕ) (h : 1 ≤ year) : Date where
  year := year
  month := 1
  day := 1
  year_pos := h
  month_pos := Nat.one_pos
  month_le := by decide
  day_pos := Nat.one_pos
  day_le := daysInMonth_pos year 1

/-- The next day. -/
def next (d : Date) : Date :=
  if h : d.day < daysInMonth d.year d.month then
    { d with day := d.day + 1, day_pos := Nat.succ_pos _, day_le := h }
  else if h' : d.month < 12 then
    { year := d.year, month := d.month + 1, day := 1
      year_pos := d.year_pos, month_pos := Nat.succ_pos _, month_le := h'
      day_pos := le_rfl, day_le := daysInMonth_pos .. }
  else newYear (d.year + 1) (Nat.succ_pos _)

def after (d : Date) : ℕ → Date
  | 0 => d
  | n + 1 => (d.after n).next

end Date

/-! ## Years that begin in March -/

/-- The days from the first of March of year 0 to the first of March of a year. -/
def marchStart (year : ℕ) : ℕ := 365 * year + year / 4 - year / 100 + year / 400

/-- The year ends with the last day of the next February. -/
theorem marchStart_succ (year : ℕ) :
    marchStart (year + 1) = marchStart year + if isLeap (year + 1) then 366 else 365 := by
  have hle : year / 100 ≤ year / 4 := Nat.div_le_div_left (by decide) (by decide)
  have hfour : (year + 1) % 100 = 0 → (year + 1) % 4 = 0 := by omega
  have hcentury : (year + 1) % 400 = 0 → (year + 1) % 100 = 0 := by omega
  simp only [marchStart, isLeap, decide_eq_true_eq, Nat.succ_div, Nat.dvd_iff_mod_eq_zero]
  generalize (year + 1) % 4 = four, (year + 1) % 100 = century, (year + 1) % 400 = era at *
  split_ifs <;> omega

theorem marchStart_mono {x y : ℕ} (h : x ≤ y) : marchStart x ≤ marchStart y := by
  refine monotone_nat_of_le_succ (fun year => ?_) h
  rw [marchStart_succ]
  exact Nat.le_add_right ..

/-- Four hundred years are an era, and all eras have the same length. -/
theorem marchStart_era (era year : ℕ) :
    marchStart (400 * era + year) = 146097 * era + marchStart year := by
  unfold marchStart
  omega

namespace Date

def marchYear (d : Date) : ℕ := if d.month ≤ 2 then d.year - 1 else d.year

/-- March is month 0. -/
def marchMonth (d : Date) : ℕ := (d.month + 9) % 12

/-- The days since the last first of March. From March on, every five months have 153 days. -/
def marchDay (d : Date) : ℕ := (153 * d.marchMonth + 2) / 5 + (d.day - 1)

/-- The days since the first of March of year 0. -/
def dayNumber (d : Date) : ℕ := marchStart d.marchYear + d.marchDay

theorem marchMonth_lt (d : Date) : d.marchMonth < 12 := Nat.mod_lt _ (by decide)

/-- Both ways to write a date count the same months. -/
theorem marchMonth_months (d : Date) :
    12 * d.marchYear + d.marchMonth + 3 = 12 * d.year + d.month := by
  have hyear := d.year_pos
  have hmonth := d.month_pos
  have hmonth' := d.month_le
  unfold marchYear marchMonth
  split_ifs <;> omega

/-- February is the last month of a year that begins in March, and the months before it have
fixed lengths. -/
theorem daysInMonth_march (d : Date) : daysInMonth d.year d.month =
    if d.marchMonth = 11 then if isLeap (d.marchYear + 1) then 29 else 28
    else (153 * (d.marchMonth + 1) + 2) / 5 - (153 * d.marchMonth + 2) / 5 := by
  have hmonth := d.month_pos
  have hmonth' := d.month_le
  by_cases hfebruary : d.month = 2
  · have hlast : d.marchMonth = 11 := by rw [marchMonth, hfebruary]
    have hyear : d.marchYear + 1 = d.year := by
      have hmonths := d.marchMonth_months
      omega
    rw [daysInMonth, if_pos hfebruary, if_pos hlast, hyear]
  · have hnot : d.marchMonth ≠ 11 := by
      unfold marchMonth
      omega
    rw [daysInMonth, if_neg hfebruary, if_neg hnot, marchMonth]
    generalize d.month = month at *
    interval_cases month
    all_goals first | rfl | exact absurd rfl hfebruary

theorem dayNumber_next_month {d e : Date} (hlast : d.day = daysInMonth d.year d.month)
    (hfirst : e.day = 1) (hnext : 12 * e.year + e.month = 12 * d.year + d.month + 1) :
    e.dayNumber = d.dayNumber + 1 := by
  have hmonths := d.marchMonth_months
  have hmonths' := e.marchMonth_months
  have hlt := d.marchMonth_lt
  have hlt' := e.marchMonth_lt
  have hlength := d.daysInMonth_march
  have hpos := d.day_pos
  unfold dayNumber marchDay
  split_ifs at hlength with hfebruary hleap
  · have hyear : e.marchYear = d.marchYear + 1 := by omega
    rw [hyear, marchStart_succ, if_pos hleap]
    omega
  · have hyear : e.marchYear = d.marchYear + 1 := by omega
    rw [hyear, marchStart_succ, if_neg hleap]
    omega
  · have hyear : e.marchYear = d.marchYear := by omega
    have hmonth : e.marchMonth = d.marchMonth + 1 := by omega
    rw [hyear, hmonth]
    omega

theorem dayNumber_next (d : Date) : d.next.dayNumber = d.dayNumber + 1 := by
  have hday := d.day_pos
  have hlast := d.day_le
  have hmonth := d.month_le
  unfold next
  split_ifs with h h'
  · simp only [dayNumber, marchDay, marchYear, marchMonth]
    omega
  · exact dayNumber_next_month (by omega) rfl rfl
  · refine dayNumber_next_month (by omega) rfl ?_
    show 12 * (d.year + 1) + 1 = 12 * d.year + d.month + 1
    omega

theorem dayNumber_after (d : Date) (n : ℕ) : (d.after n).dayNumber = d.dayNumber + n := by
  induction n with
  | zero => rfl
  | succ n ih => rw [after, dayNumber_next, ih, Nat.add_assoc]

/-- The month can be read off the day of the year. -/
theorem marchMonth_of_marchDay (d : Date) : (5 * d.marchDay + 2) / 153 = d.marchMonth := by
  have hlt := d.marchMonth_lt
  have hlength := d.daysInMonth_march
  have hday := d.day_le
  unfold marchDay
  split_ifs at hlength <;> omega

/-- No day lies behind the end of its year. -/
theorem dayNumber_lt (d : Date) : d.dayNumber < marchStart (d.marchYear + 1) := by
  have hlt := d.marchMonth_lt
  have hlength := d.daysInMonth_march
  have hday := d.day_le
  rw [marchStart_succ]
  unfold dayNumber marchDay
  split_ifs at hlength ⊢ <;> omega

end Date

end Calendar
