import IeumChain.Rewards
import Mathlib.Algebra.BigOperators.Group.Finset.Basic
import Mathlib.Algebra.Order.BigOperators.Group.Finset
import Mathlib.Order.Interval.Finset.Nat

/-!
# Yearly and daily budgets of the node emission

A year of the emission starts at the genesis instant, in the afternoon of a UTC day, while
rewards are keyed by UTC days. The 365 days of a full year touch 366 reward epochs, and each of
them is given a 365th of the year's budget. The last year ends with a UTC day and is cut into as
many parts as it touches epochs.
-/
namespace IeumChain

namespace NodeEmission

/-- The number of parts into which the budget of a year is divided. -/
def yearDays (year : ℕ) : ℕ :=
  let start := rewardActivationUnix + year * halvingSeconds
  let stop := min (start + halvingSeconds - 1) rewardEndUnix
  (stop - start + 1 + (rewardEpochSeconds - 1)) / rewardEpochSeconds

theorem halvingIndex_eq_some {timestamp year : ℕ} :
    halvingIndex timestamp = some year ↔
      (rewardActivationUnix ≤ timestamp ∧ timestamp ≤ rewardEndUnix) ∧
        (timestamp - rewardActivationUnix) / halvingSeconds = year := by
  unfold halvingIndex
  split_ifs with h
  · simp only [Option.some.injEq, h, true_and, and_self]
  · simp only [h, false_and]

theorem dailyBudget_of_year {timestamp year : ℕ} (h : halvingIndex timestamp = some year) :
    dailyBudget timestamp = annualBudget year / yearDays year := by
  simp only [dailyBudget, h, yearDays]

theorem year_lt {timestamp year : ℕ} (h : halvingIndex timestamp = some year) :
    year < rewardYearCount := by
  obtain ⟨⟨-, hend⟩, hyear⟩ := halvingIndex_eq_some.1 h
  have hle : (timestamp - rewardActivationUnix) / halvingSeconds ≤
      (rewardEndUnix - rewardActivationUnix) / halvingSeconds :=
    Nat.div_le_div_right (Nat.sub_le_sub_right hend _)
  rw [rewardYearCount]
  omega

/-- Every day of a year has the same budget. -/
theorem sum_dailyBudget {year : ℕ} {times : Finset ℕ}
    (hyear : ∀ t ∈ times, halvingIndex t = some year) :
    ∑ t ∈ times, dailyBudget t = times.card * (annualBudget year / yearDays year) :=
  Finset.sum_const_nat fun t ht => dailyBudget_of_year (hyear t ht)

/-- With a remainder below the quotient one part more than there are is too much. -/
theorem mul_div_le_iff {a d n : ℕ} (h : a % d < a / d) : n * (a / d) ≤ a ↔ n ≤ d := by
  have hdiv : d * (a / d) + a % d = a := Nat.div_add_mod a d
  constructor
  · intro hle
    by_contra hn
    have hmul : (d + 1) * (a / d) ≤ n * (a / d) := Nat.mul_le_mul_right _ (by omega)
    rw [Nat.add_mul, one_mul] at hmul
    omega
  · intro hn
    have hmul : n * (a / d) ≤ d * (a / d) := Nat.mul_le_mul_right _ hn
    omega

theorem yearDays_full {year : ℕ} (h : year + 1 < rewardYearCount) : yearDays year = 365 := by
  have hcount : rewardYearCount = 15 := by decide
  have hyear : year < 14 := by omega
  interval_cases year <;> decide

theorem annualBudget_mod_lt {year : ℕ} (h : year + 1 < rewardYearCount) :
    annualBudget year % 365 < annualBudget year / 365 := by
  have hcount : rewardYearCount = 15 := by decide
  have hyear : year < 14 := by omega
  interval_cases year <;> decide +kernel

/-- The last year has one part for each epoch it touches. -/
theorem card_last_year {times : Finset ℕ}
    (hyear : ∀ t ∈ times, halvingIndex t = some (rewardYearCount - 1))
    (hepochs : Set.InjOn (· / rewardEpochSeconds) (times : Set ℕ)) :
    times.card ≤ yearDays (rewardYearCount - 1) := by
  have hmaps : ∀ t ∈ times, t / rewardEpochSeconds ∈ Finset.Icc 25795 25932 := by
    intro t ht
    obtain ⟨⟨hstart, hend⟩, hindex⟩ := halvingIndex_eq_some.1 (hyear t ht)
    have hcount : rewardYearCount - 1 = 14 := by decide
    rw [hcount] at hindex
    simp only [rewardActivationUnix, ieumMainnetGenesisTime, rewardEndUnix, halvingSeconds,
      rewardEpochSeconds] at hstart hend hindex
    rw [Finset.mem_Icc, rewardEpochSeconds]
    omega
  have hcard := Finset.card_le_card_of_injOn _ hmaps hepochs
  have hdays : yearDays (rewardYearCount - 1) = 138 := by decide
  rw [Nat.card_Icc] at hcard
  rw [hdays]
  exact hcard

/-- The budgets of distinct reward epochs of one year stay within the budget of the year exactly
if the year is the last one or at most 365 epochs are paid. -/
theorem daily_budgets_within_year_iff {year : ℕ} {times : Finset ℕ}
    (hyear : ∀ t ∈ times, halvingIndex t = some year)
    (hepochs : Set.InjOn (· / rewardEpochSeconds) (times : Set ℕ)) :
    ∑ t ∈ times, dailyBudget t ≤ annualBudget year ↔
      year + 1 = rewardYearCount ∨ times.card ≤ 365 := by
  rw [sum_dailyBudget hyear]
  rcases Nat.lt_trichotomy (year + 1) rewardYearCount with hfull | hlast | hafter
  · rw [yearDays_full hfull, mul_div_le_iff (annualBudget_mod_lt hfull)]
    simp only [hfull.ne, false_or]
  · obtain rfl : year = rewardYearCount - 1 := by omega
    have hcard := card_last_year hyear hepochs
    have hle : times.card * (annualBudget (rewardYearCount - 1) / yearDays (rewardYearCount - 1)) ≤
        annualBudget (rewardYearCount - 1) :=
      (Nat.mul_le_mul_right _ hcard).trans (Nat.mul_div_le _ _)
    simp only [hlast, hle, true_or]
  · have hempty : times = ∅ := by
      refine Finset.eq_empty_of_forall_notMem fun t ht => ?_
      have hlt := year_lt (hyear t ht)
      omega
    simp only [hempty, Finset.card_empty, Nat.zero_mul, Nat.zero_le, or_true]

/-- The first and the second day of the emission. -/
theorem daily_budgets_within_year_iff_two :
    ∑ t ∈ ({1787238000, 1787324400} : Finset ℕ), dailyBudget t ≤ annualBudget 0 ↔
      0 + 1 = rewardYearCount ∨ ({1787238000, 1787324400} : Finset ℕ).card ≤ 365 :=
  daily_budgets_within_year_iff (by decide) (by
    intro t ht s hs h
    simp only [Finset.coe_insert, Finset.coe_singleton, Set.mem_insert_iff,
      Set.mem_singleton_iff] at ht hs
    simp only [rewardEpochSeconds] at h
    omega)

/-- One time in each of the 366 epochs of the first year: every day at the hour of the genesis,
and the last second of the year. -/
def firstYearTimes : Finset ℕ :=
  (Finset.range 366).image fun day =>
    min (rewardActivationUnix + day * rewardEpochSeconds)
      (rewardActivationUnix + halvingSeconds - 1)

theorem epoch_firstYearTime {day : ℕ} (h : day < 366) :
    min (rewardActivationUnix + day * rewardEpochSeconds)
        (rewardActivationUnix + halvingSeconds - 1) / rewardEpochSeconds =
      rewardActivationUnix / rewardEpochSeconds + day := by
  simp only [rewardActivationUnix, ieumMainnetGenesisTime, rewardEpochSeconds, halvingSeconds]
  omega

/-- Paid once in every epoch of the first year, the daily budgets exceed the year's. -/
theorem first_year_exceeds_budget :
    ¬∀ (year : ℕ) (times : Finset ℕ), (∀ t ∈ times, halvingIndex t = some year) →
      Set.InjOn (· / rewardEpochSeconds) (times : Set ℕ) →
        ∑ t ∈ times, dailyBudget t ≤ annualBudget year := by
  intro hall
  have hyear : ∀ t ∈ firstYearTimes, halvingIndex t = some 0 := by
    intro t ht
    obtain ⟨day, -, rfl⟩ := Finset.mem_image.1 ht
    rw [halvingIndex_eq_some]
    simp only [rewardActivationUnix, ieumMainnetGenesisTime, rewardEndUnix, rewardEpochSeconds,
      halvingSeconds]
    omega
  have hepochs : Set.InjOn (· / rewardEpochSeconds) (firstYearTimes : Set ℕ) := by
    intro t ht s hs h
    obtain ⟨day, hday, rfl⟩ := Finset.mem_image.1 ht
    obtain ⟨day', hday', rfl⟩ := Finset.mem_image.1 hs
    simp only [epoch_firstYearTime (Finset.mem_range.1 hday),
      epoch_firstYearTime (Finset.mem_range.1 hday')] at h
    rw [Nat.add_left_cancel h]
  have hcard : firstYearTimes.card = 366 := by
    refine (Finset.card_image_of_injOn ?_).trans (Finset.card_range 366)
    intro day hday day' hday' h
    have hepoch := congrArg (· / rewardEpochSeconds) h
    simp only [Finset.coe_range, Set.mem_Iio] at hday hday'
    simp only [epoch_firstYearTime hday, epoch_firstYearTime hday'] at hepoch
    exact Nat.add_left_cancel hepoch
  have hsum := hall 0 firstYearTimes hyear hepochs
  rw [sum_dailyBudget hyear, hcard] at hsum
  revert hsum
  decide +kernel

end NodeEmission

end IeumChain
