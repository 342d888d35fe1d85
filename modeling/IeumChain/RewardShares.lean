import IeumChain.Library.Budget
import IeumChain.Rewards

/-!
# Daily rewards as shares of a budget

The loops over validators, holders and delegators differ in when they look at what is
left of the day's maximum. All three pay the same: shares out of a budget, in order.
-/
namespace IeumChain

open Text MachineWords FiniteMap

def EventPayment.ofShare (s : Address × ℕ) : EventPayment := { address := s.1, amount := s.2 }

namespace ValidatorInterest

/-- The interest of the validators that hold the minimum. -/
def shares (p : Policy) (validators : List Validator) (balances : HashMap Address ℕ) :
    List (Address × ℕ) :=
  if p.enabled = false ∨ p.annualRateBps = 0 then []
  else
    ((validators.insertionSort (·.id ≤ ·.id)).filter
      fun v => p.minimumBalance ≤ getD balances v.id 0).map
        fun v => (v.id, dailyInterest p.annualRateBps (getD balances v.id 0))

theorem paymentLoop_eq (p : Policy) (balances : HashMap Address ℕ) (remaining : ℕ)
    (validators : List Validator) :
    paymentLoop p balances remaining validators =
      (Budget.pay remaining ((validators.filter
        fun v => p.minimumBalance ≤ getD balances v.id 0).map
          fun v => (v.id, dailyInterest p.annualRateBps (getD balances v.id 0)))).map
        EventPayment.ofShare := by
  induction validators generalizing remaining with
  | nil => rfl
  | cons v rest ih =>
      simp only [paymentLoop, List.filter_cons]
      by_cases hlow : getD balances v.id 0 < p.minimumBalance
      · have hskip : ¬(p.minimumBalance ≤ getD balances v.id 0) := not_le.2 hlow
        simp only [hlow, hskip, true_or, if_true, decide_false]
        exact ih remaining
      · have htake : p.minimumBalance ≤ getD balances v.id 0 := not_lt.1 hlow
        simp only [hlow, htake, false_or, decide_true, if_true, List.map_cons, Budget.pay]
        by_cases hspent : remaining = 0
        · subst hspent
          simp [ih]
        · rw [if_neg hspent]
          split_ifs with hpos
          · rw [List.map_cons, ih]
            rfl
          · exact ih remaining

theorem calculatePayments_eq (p : Policy) (validators : List Validator)
    (balances : HashMap Address ℕ) :
    calculatePayments p validators balances =
      (Budget.pay p.maximumDailyTotal (shares p validators balances)).map EventPayment.ofShare := by
  unfold calculatePayments shares
  split_ifs
  · rfl
  · exact paymentLoop_eq ..

end ValidatorInterest

namespace HolderRewards

/-- The reward of the accounts that take part, in the order of their addresses. -/
def shares (p : Policy) (balances : HashMap Address ℕ) (excluded : Finset String) :
    List (Address × ℕ) :=
  if p.enabled = false ∨ p.annualRateBps = 0 then []
  else
    (((balances.entries.filter fun e => eligible p excluded e.1 e.2).map
      fun e => (lowercase e.1, e.2)).insertionSort (·.1 ≤ ·.1)).map
        fun a => (a.1, round12 (saturatingMul u128Max a.2 p.annualRateBps / 10000 / 365))

theorem paymentLoop_eq (p : Policy) (remaining : ℕ) (accounts : List (Address × ℕ)) :
    paymentLoop p remaining accounts =
      (Budget.pay remaining (accounts.map fun a =>
        (a.1, round12 (saturatingMul u128Max a.2 p.annualRateBps / 10000 / 365)))).map
        EventPayment.ofShare := by
  induction accounts generalizing remaining with
  | nil => rfl
  | cons account rest ih =>
      simp only [paymentLoop, List.map_cons, Budget.pay]
      split_ifs with hpos hdone hspent
      · rw [hdone, Budget.pay_zero]
        rfl
      · rw [List.map_cons, ih]
        rfl
      · rw [hspent, Budget.pay_zero]
        rfl
      · exact ih remaining

theorem calculatePayments_eq (p : Policy) (balances : HashMap Address ℕ)
    (excluded : Finset String) :
    calculatePayments p balances excluded =
      (Budget.pay p.maximumDailyTotal (shares p balances excluded)).map EventPayment.ofShare := by
  unfold calculatePayments shares
  split_ifs
  · rfl
  · exact paymentLoop_eq ..

end HolderRewards

namespace Staking

/-- The reward of the delegators, in the order of their addresses. -/
def shares (s : StakingState) (annualRateBps : ℕ) : List (Address × ℕ) :=
  (((s.delegations.map (·.delegator)).dedup).insertionSort (· ≤ ·)).map fun d =>
    (d, saturatingAdd u128Max (saturatingMul u128Max (stakeOf s d) annualRateBps / 10000 / 365)
      500000 / 1000000 * 1000000)

theorem rewardLoop_eq (annualRateBps remaining : ℕ) (stakes : List (Address × ℕ)) :
    rewardLoop annualRateBps remaining stakes =
      (Budget.pay remaining (stakes.map fun a =>
        (a.1, saturatingAdd u128Max (saturatingMul u128Max a.2 annualRateBps / 10000 / 365)
          500000 / 1000000 * 1000000))).map EventPayment.ofShare := by
  induction stakes generalizing remaining with
  | nil => rfl
  | cons stake rest ih =>
      simp only [rewardLoop, List.map_cons, Budget.pay]
      split_ifs with hspent hpos hpos
      · omega
      · rw [hspent, Budget.pay_zero]
        rfl
      · rw [List.map_cons, ih]
        rfl
      · exact ih remaining

theorem calculateRewards_eq (s : StakingState) (annualRateBps maximumDailyTotal : ℕ) :
    calculateRewards s annualRateBps maximumDailyTotal =
      (Budget.pay maximumDailyTotal (shares s annualRateBps)).map EventPayment.ofShare := by
  rw [calculateRewards, rewardLoop_eq, shares, List.map_map]
  rfl

end Staking

end IeumChain
