import IeumChain.Library.Calendar
import IeumChain.Periods

/-!
# Periods and the calendar

The formula for the month of a timestamp gives the month of the date on which the timestamp
falls when days are counted one by one from the first of January 1970.
-/
namespace IeumChain

open Text PaddedNames Calendar

namespace Period

/-- The first and the last day of each year of an era fall into that year. -/
theorem yoe_ends : ∀ year < 400,
    yoe (marchStart year) = year ∧ yoe (marchStart (year + 1) - 1) = year := by
  decide +kernel

theorem yoe_eq {year doe : ℕ} (hyear : year < 400) (hfirst : marchStart year ≤ doe)
    (hlast : doe < marchStart (year + 1)) : yoe doe = year := by
  obtain ⟨hlow, hhigh⟩ := yoe_ends year hyear
  apply le_antisymm
  · calc yoe doe ≤ yoe (marchStart (year + 1) - 1) := yoe_mono (by omega)
      _ = year := hhigh
  · calc year = yoe (marchStart year) := hlow.symm
      _ ≤ yoe doe := yoe_mono hfirst

/-- On a day of the calendar the formula gives its year and its month. -/
theorem civilFromDays_dayNumber {d : Date} {days : ℕ} (h : d.dayNumber = days + 719468) :
    civilFromDays days = (d.year, d.month) := by
  have hsplit := Nat.div_add_mod d.marchYear 400
  have hyear : d.marchYear % 400 < 400 := Nat.mod_lt _ (by decide)
  have hlt := d.dayNumber_lt
  generalize d.marchYear / 400 = era, d.marchYear % 400 = year at *
  have hlength : marchStart (year + 1) ≤ marchStart 400 := marchStart_mono hyear
  have hera : marchStart 400 = 146097 := rfl
  rw [← hsplit, Nat.add_assoc, marchStart_era] at hlt
  have hnumber : d.dayNumber = 146097 * era + (marchStart year + d.marchDay) := by
    rw [Date.dayNumber, ← hsplit, marchStart_era, Nat.add_assoc]
  generalize hdoe : marchStart year + d.marchDay = doe at *
  have hdiv : (days + 719468) / 146097 = era := by omega
  have hrest : days + 719468 - era * 146097 = doe := by omega
  have hyoe : yoe doe = year := yoe_eq hyear (by omega) (by omega)
  have hdoy : doy doe = d.marchDay := by
    unfold marchStart at hdoe
    unfold doy
    rw [hyoe]
    omega
  have hmp : mp doe = d.marchMonth := by
    rw [mp, hdoy, d.marchMonth_of_marchDay]
  have hmonths := d.marchMonth_months
  have hmonth := d.month_pos
  have hmonth' := d.month_le
  have hmarch := d.marchMonth_lt
  simp only [civilFromDays, hdiv, hrest, hyoe, hmp]
  refine Prod.ext ?_ ?_
  · dsimp only
    split_ifs <;> omega
  · dsimp only
    split_ifs <;> omega

end Period

/-- The first day of Unix time. -/
def epoch : Date := .newYear 1970 (by decide)

/-- The date in Greenwich, from the seconds of Unix time. -/
def dateOf (timestamp : ℕ) : Date := epoch.after (timestamp / 86400)

theorem civilFromDays_dateOf (timestamp : ℕ) : Period.civilFromDays (timestamp / 86400) =
    ((dateOf timestamp).year, (dateOf timestamp).month) := by
  apply Period.civilFromDays_dayNumber
  have hepoch : epoch.dayNumber = 719468 := rfl
  rw [dateOf, Date.dayNumber_after, hepoch, Nat.add_comm]

/-- Later timestamps have later dates, or the same month. -/
theorem dateOf_months_mono {s t : ℕ} (h : s ≤ t) :
    12 * (dateOf s).year + (dateOf s).month ≤ 12 * (dateOf t).year + (dateOf t).month := by
  have hmonths := Period.months_le_months (Nat.div_le_div_right (c := 86400) h)
  simpa only [Period.months, civilFromDays_dateOf] using hmonths

/-- The period names the year and the month of the date of the timestamp, and both grow with it. -/
theorem periodFromTimestamp_date (timestamp : ℕ) :
    periodFromTimestamp timestamp = padded 4 (dateOf timestamp).year ++
        padded 2 (dateOf timestamp).month ++ "M" ∧
      1 ≤ (dateOf timestamp).month ∧ (dateOf timestamp).month ≤ 12 ∧
      ∀ later, timestamp ≤ later → (dateOf timestamp).year < (dateOf later).year ∨
        (dateOf timestamp).year = (dateOf later).year ∧
          (dateOf timestamp).month ≤ (dateOf later).month := by
  refine ⟨?_, (dateOf timestamp).month_pos, (dateOf timestamp).month_le, ?_⟩
  · rw [periodFromTimestamp, civilFromDays_dateOf]
  · intro later h
    have hmonths := dateOf_months_mono h
    have hmonth := (dateOf later).month_le
    have hmonth' := (dateOf timestamp).month_pos
    omega

end IeumChain
