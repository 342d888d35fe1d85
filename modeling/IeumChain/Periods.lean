import IeumChain.Library.PaddedNames

/-!
# Archive periods

The archive is cut at months. The month of a timestamp is computed from the number of days
since 1 March of year 0: the day within an era of 400 years, the year within the era, the day
within a year that begins in March, and from that the month.
-/
namespace IeumChain

open Text PaddedNames

namespace Period

/-- The year within the era, of a day within the era. -/
def yoe (doe : ℕ) : ℕ := (doe - doe / 1460 + doe / 36524 - doe / 146096) / 365

def doy (doe : ℕ) : ℕ := doe - (365 * yoe doe + yoe doe / 4 - yoe doe / 100)

/-- The month, where March is month 0. -/
def mp (doe : ℕ) : ℕ := (5 * doy doe + 2) / 153

/-- Year and month. A timestamp is not negative, and so is nothing here. -/
def civilFromDays (days : ℕ) : ℕ × ℕ :=
  let z := days + 719468
  let era := z / 146097
  let doe := z - era * 146097
  let year := yoe doe + era * 400
  let month := if mp doe < 10 then mp doe + 3 else mp doe - 9
  (if month ≤ 2 then year + 1 else year, month)

end Period

def periodFromTimestamp (timestamp : ℕ) : String :=
  let (year, month) := Period.civilFromDays (timestamp / 86400)
  padded 4 year ++ padded 2 month ++ "M"

namespace Period

theorem yoe_le {doe : ℕ} (h : doe < 146097) : yoe doe ≤ 399 := by
  unfold yoe
  omega

theorem yoe_mono {d e : ℕ} (h : d ≤ e) : yoe d ≤ yoe e := by
  refine monotone_nat_of_le_succ (fun n => ?_) h
  unfold yoe
  omega

/-- Four years are 1461 days, but a century has one day less, and the last one of the era not. -/
theorem doy_le {doe : ℕ} (h : doe < 146097) : doy doe ≤ 365 := by
  unfold doy yoe
  have hcentury : doe / 36524 ≤ 4 := by omega
  have hlast : doe / 146096 ≤ 1 := by omega
  have hyear : (doe - doe / 1460 + doe / 36524 - doe / 146096) / 365 / 100 =
      min (doe / 36524) 3 := by omega
  rw [hyear]
  generalize hc : doe / 36524 = century at *
  generalize hl : doe / 146096 = last at *
  interval_cases century <;> interval_cases last <;> omega

theorem mp_le {d : ℕ} (h : d < 146097) : mp d ≤ 11 := by
  have hdoy := doy_le h
  unfold mp
  omega

/-- Months since March of the first year of an era. -/
theorem months_mono {d e : ℕ} (h : d ≤ e) (he : e < 146097) :
    12 * yoe d + mp d ≤ 12 * yoe e + mp e := by
  have hmonth := mp_le (h.trans_lt he)
  rcases (yoe_mono h).lt_or_eq with hlt | heq
  · omega
  · have hday : doy d ≤ doy e := by
      unfold doy
      rw [heq]
      omega
    have hmp : mp d ≤ mp e := Nat.div_le_div_right (by omega)
    omega

/-- Months since year 0. -/
def months (days : ℕ) : ℕ := 12 * (civilFromDays days).1 + (civilFromDays days).2

theorem month_range (days : ℕ) : 1 ≤ (civilFromDays days).2 ∧ (civilFromDays days).2 ≤ 12 := by
  have hmonth := mp_le (d := days + 719468 - (days + 719468) / 146097 * 146097) (by omega)
  simp only [civilFromDays]
  split_ifs <;> omega

theorem months_eq (days : ℕ) : months days =
    4800 * ((days + 719468) / 146097) +
      (12 * yoe (days + 719468 - (days + 719468) / 146097 * 146097) +
        mp (days + 719468 - (days + 719468) / 146097 * 146097)) + 3 := by
  have hmonth := mp_le (d := days + 719468 - (days + 719468) / 146097 * 146097) (by omega)
  simp only [months, civilFromDays]
  split_ifs <;> omega

theorem months_le_months {d e : ℕ} (h : d ≤ e) : months d ≤ months e := by
  rw [months_eq, months_eq]
  have hera : (d + 719468) / 146097 ≤ (e + 719468) / 146097 := Nat.div_le_div_right (by omega)
  have hd : d + 719468 - (d + 719468) / 146097 * 146097 < 146097 := by omega
  have he : e + 719468 - (e + 719468) / 146097 * 146097 < 146097 := by omega
  rcases hera.lt_or_eq with hlt | heq
  · have hyear := yoe_le hd
    have hmonth := mp_le hd
    omega
  · have hmono := months_mono (d := d + 719468 - (d + 719468) / 146097 * 146097)
      (e := e + 719468 - (e + 719468) / 146097 * 146097) (by omega) he
    omega

/-- The first second of the year 10000. -/
def yearTenThousand : ℕ := 253402300800

theorem year_lt {timestamp : ℕ} (h : timestamp < yearTenThousand) :
    (civilFromDays (timestamp / 86400)).1 < 10 ^ 4 := by
  have hday : timestamp / 86400 ≤ 2932896 := by
    unfold yearTenThousand at h
    omega
  have hlast : months 2932896 = 12 * 9999 + 12 := by decide
  have hmonths := months_le_months hday
  have hmonth := (month_range (timestamp / 86400)).1
  rw [hlast, months] at hmonths
  omega

theorem toList_period (timestamp : ℕ) : (periodFromTimestamp timestamp).toList =
    (padded 4 (civilFromDays (timestamp / 86400)).1).toList ++
      ((padded 2 (civilFromDays (timestamp / 86400)).2).toList ++ ['M']) := by
  simp only [periodFromTimestamp, String.toList_append, List.append_assoc]
  rfl

theorem length_period {timestamp : ℕ} (h : timestamp < yearTenThousand) :
    (periodFromTimestamp timestamp).toList.length = 7 := by
  have hmonth := (month_range (timestamp / 86400)).2
  rw [toList_period, List.length_append, List.length_append,
    length_padded (by decide) (year_lt h), length_padded (by decide) (by omega)]
  rfl

/-- Periods sort like times. -/
theorem period_le {s t : ℕ} (hst : s ≤ t) (ht : t < yearTenThousand) :
    periodFromTimestamp s = periodFromTimestamp t ∨
      (periodFromTimestamp s).toList < (periodFromTimestamp t).toList := by
  have hmonths := months_le_months (Nat.div_le_div_right (c := 86400) hst)
  have hyear := year_lt ht
  have hyear' := year_lt (hst.trans_lt ht)
  have hmonth := month_range (s / 86400)
  have hmonth' := month_range (t / 86400)
  unfold months at hmonths
  rcases hmonths.lt_or_eq with hlt | heq
  · refine .inr ?_
    rw [toList_period, toList_period, append_lt_append_iff
      (by rw [length_padded (by decide) hyear, length_padded (by decide) hyear'])]
    rcases Nat.lt_or_ge (civilFromDays (s / 86400)).1 (civilFromDays (t / 86400)).1 with
      hless | hge
    · exact .inl (padded_lt (by decide) hless hyear)
    · have hsame : (civilFromDays (s / 86400)).1 = (civilFromDays (t / 86400)).1 := by omega
      refine .inr ⟨by rw [hsame], ?_⟩
      rw [append_lt_append_iff
        (by rw [length_padded (by decide) (by omega), length_padded (by decide) (by omega)])]
      exact .inl (padded_lt (by decide) (by omega) (by omega))
  · refine .inl ?_
    have hsame : civilFromDays (s / 86400) = civilFromDays (t / 86400) :=
      Prod.ext (by omega) (by omega)
    rw [periodFromTimestamp, periodFromTimestamp, hsame]

end Period

example : periodFromTimestamp 951782400 = "200002M" := by decide

end IeumChain
