import IeumChain.RewardShares

/-!
# The daily cap

The three calculators pay every recipient one day of simple interest on what it holds, until the
day's maximum is spent. No product saturates for amounts within the supply.
-/
namespace IeumChain

open Text MachineWords FiniteMap

/-- Rounds half up to a multiple of a million. -/
def roundHalfUp (value : ℕ) : ℕ := (value + 500000) / 1000000 * 1000000

/-- A day's share of a yearly rate in hundredths of a percent. -/
def dailyReward (annualRateBps amount : ℕ) : ℕ :=
  roundHalfUp (amount * annualRateBps / (10000 * 365))

/-- Positive payments of what is due, each in full or cut to what those before it have left. -/
structure WithinCap (cap : ℕ) (due : Address → ℕ → Prop) (payments : List EventPayment) : Prop where
  positive : ∀ payment ∈ payments, 0 < payment.amount
  capped : (payments.map (·.amount)).sum ≤ cap
  inFull : ∀ before payment after, payments = before ++ payment :: after →
    ∃ full, due payment.address full ∧
      payment.amount = min full (cap - (before.map (·.amount)).sum)

theorem withinCap_pay {cap : ℕ} {due : Address → ℕ → Prop} {shares : List (Address × ℕ)}
    (hdue : ∀ share ∈ shares, due share.1 share.2) :
    WithinCap cap due ((Budget.pay cap shares).map EventPayment.ofShare) where
  positive payment hpayment := by
    obtain ⟨share, hshare, rfl⟩ := List.mem_map.1 hpayment
    exact Budget.pos_of_mem_pay hshare
  capped := by
    rw [List.map_map]
    exact Budget.sum_pay_le cap shares
  inFull before payment after h := by
    obtain ⟨paid, rest, hpay, rfl, hrest⟩ := List.map_eq_append_iff.1 h
    obtain ⟨share, later, rfl, rfl, rfl⟩ := List.map_eq_cons_iff.1 hrest
    obtain ⟨full, hmem, hamount⟩ := Budget.mem_of_pay_eq hpay
    refine ⟨full, hdue _ hmem, ?_⟩
    rw [List.map_map]
    exact hamount

/-- Within the supply the computed share is the exact one, for every rate of 32 bits. -/
theorem computed_share_eq {amount annualRateBps : ℕ} (hamount : amount ≤ ieumMaxSupply)
    (hrate : annualRateBps < 2 ^ 32) :
    saturatingAdd u128Max (saturatingMul u128Max amount annualRateBps / 10000 / 365) 500000 /
      1000000 * 1000000 = dailyReward annualRateBps amount := by
  have hfits : amount * annualRateBps + 500000 ≤ u128Max :=
    (Nat.add_le_add_right (Nat.mul_le_mul hamount hrate.le) _).trans (by decide)
  have hday : amount * annualRateBps / (10000 * 365) + 500000 ≤ u128Max :=
    (Nat.add_le_add_right (Nat.div_le_self _ _) _).trans hfits
  rw [saturatingMul_of_le (Nat.le_of_add_right_le hfits), Nat.div_div_eq_div_mul, saturatingAdd,
    min_eq_left hday, dailyReward, roundHalfUp]

namespace ValidatorInterest

theorem calculatePayments_withinCap {p : Policy} (hp : p.validate = .ok ())
    (validators : List Validator) {balances : HashMap Address ℕ}
    (hsupply : total balances ≤ ieumMaxSupply) :
    WithinCap p.maximumDailyTotal
      (fun address full => full = dailyReward p.annualRateBps (getD balances address 0))
      (calculatePayments p validators balances) := by
  simp only [Policy.validate, Outcome.check_bind_eq_ok, Outcome.reject_eq_ok, not_lt] at hp
  rw [calculatePayments_eq]
  refine withinCap_pay fun share hshare => ?_
  unfold shares at hshare
  split_ifs at hshare
  · cases hshare
  · obtain ⟨v, -, rfl⟩ := List.mem_map.1 hshare
    exact computed_share_eq ((getD_le_total balances v.id).trans hsupply)
      (hp.1.trans_lt (by decide))

end ValidatorInterest

namespace HolderRewards

theorem calculatePayments_withinCap {p : Policy} (hp : p.validate = .ok ())
    {balances : HashMap Address ℕ} (hsupply : total balances ≤ ieumMaxSupply)
    (excluded : Finset String) :
    WithinCap p.maximumDailyTotal
      (fun address full => ∃ account, lowercase account = address ∧
        full = dailyReward p.annualRateBps (getD balances account 0))
      (calculatePayments p balances excluded) := by
  simp only [Policy.validate, Outcome.check_bind_eq_ok, Outcome.reject_eq_ok, not_lt] at hp
  rw [calculatePayments_eq]
  refine withinCap_pay fun share hshare => ?_
  unfold shares at hshare
  split_ifs at hshare
  · cases hshare
  · obtain ⟨account, haccount, rfl⟩ := List.mem_map.1 hshare
    rw [List.mem_insertionSort] at haccount
    obtain ⟨entry, hentry, rfl⟩ := List.mem_map.1 haccount
    have hbalance : getD balances entry.1 0 = entry.2 := by
      rw [getD, AList.mem_lookup_iff.2 (List.mem_of_mem_filter hentry), Option.getD_some]
    refine ⟨entry.1, rfl, ?_⟩
    rw [hbalance]
    exact computed_share_eq (hbalance ▸ (getD_le_total balances entry.1).trans hsupply)
      (hp.2.1.trans_lt (by decide))

end HolderRewards

namespace Staking

/-- All that a delegator has in its positions. -/
def delegatedBy (s : StakingState) (delegator : Address) : ℕ :=
  ((s.delegations.filter (·.delegator = delegator)).map (·.amount)).sum

theorem delegatedBy_le (s : StakingState) (delegator : Address) :
    delegatedBy s delegator ≤ s.delegatedTotal :=
  (List.filter_sublist.map _).sum_le_sum fun _ _ => Nat.zero_le _

theorem calculateRewards_withinCap {s : StakingState} (hsupply : s.delegatedTotal ≤ ieumMaxSupply)
    {annualRateBps : ℕ} (hrate : annualRateBps < 2 ^ 32) (maximumDailyTotal : ℕ) :
    WithinCap maximumDailyTotal
      (fun address full => full = dailyReward annualRateBps (delegatedBy s address))
      (calculateRewards s annualRateBps maximumDailyTotal) := by
  rw [calculateRewards_eq]
  refine withinCap_pay fun share hshare => ?_
  obtain ⟨delegator, -, rfl⟩ := List.mem_map.1 hshare
  have hle := (delegatedBy_le s delegator).trans hsupply
  have hstake : stakeOf s delegator = delegatedBy s delegator := by
    have hfits : delegatedBy s delegator ≤ u128Max := hle.trans (by decide)
    rw [stakeOf, foldl_saturatingAdd DelegationPosition.amount _ (Nat.zero_le _), Nat.zero_add]
    exact min_eq_left hfits
  dsimp only
  rw [hstake, computed_share_eq hle hrate]

end Staking

/-- All three calculators respect their cap, for amounts within the supply. -/
theorem rewards_within_cap :
    (∀ (p : ValidatorInterest.Policy) (validators : List Validator) (balances : HashMap Address ℕ),
      p.validate = .ok () → total balances ≤ ieumMaxSupply →
      WithinCap p.maximumDailyTotal
        (fun address full => full = dailyReward p.annualRateBps (getD balances address 0))
        (ValidatorInterest.calculatePayments p validators balances)) ∧
    (∀ (p : HolderRewards.Policy) (balances : HashMap Address ℕ) (excluded : Finset String),
      p.validate = .ok () → total balances ≤ ieumMaxSupply →
      WithinCap p.maximumDailyTotal
        (fun address full => ∃ account, lowercase account = address ∧
          full = dailyReward p.annualRateBps (getD balances account 0))
        (HolderRewards.calculatePayments p balances excluded)) ∧
    ∀ (s : StakingState) (annualRateBps maximumDailyTotal : ℕ),
      s.delegatedTotal ≤ ieumMaxSupply → annualRateBps < 2 ^ 32 →
      WithinCap maximumDailyTotal
        (fun address full => full = dailyReward annualRateBps (Staking.delegatedBy s address))
        (Staking.calculateRewards s annualRateBps maximumDailyTotal) :=
  ⟨fun _ validators _ hp hsupply =>
      ValidatorInterest.calculatePayments_withinCap hp validators hsupply,
    fun _ _ excluded hp hsupply => HolderRewards.calculatePayments_withinCap hp hsupply excluded,
    fun _ _ maximumDailyTotal hsupply hrate =>
      Staking.calculateRewards_withinCap hsupply hrate maximumDailyTotal⟩

/-! Two accounts with the same amount: the second one is paid half of its interest. -/

namespace CappedDay

def cap : ℕ := 3 * ieumBaseUnit / 20

def interest : ValidatorInterest.Policy :=
  { enabled := true, annualRateBps := 500, minimumBalance := ieumBaseUnit
    maximumDailyTotal := cap }

def campaign : HolderRewards.Policy :=
  { HolderRewards.Policy.default with
    enabled := true, startsAt := 1, endsAt := 2, annualRateBps := 500
    minimumBalance := ieumBaseUnit, maximumDailyTotal := cap }

def validators : List Validator := [⟨"0xb", 1⟩, ⟨"0xa", 1⟩]

def balances : HashMap Address ℕ :=
  collect [("0xb", 730 * ieumBaseUnit), ("0xa", 730 * ieumBaseUnit)]

def staking : StakingState where
  delegations := [⟨"0xb", "0xv", 700 * ieumBaseUnit, 0⟩, ⟨"0xa", "0xv", 730 * ieumBaseUnit, 0⟩,
    ⟨"0xb", "0xw", 30 * ieumBaseUnit, 0⟩]
  unbonding := []
  appliedSlashes := []

def payments : List EventPayment := [⟨"0xa", ieumBaseUnit / 10⟩, ⟨"0xb", ieumBaseUnit / 20⟩]

theorem calculated_payments :
    ValidatorInterest.calculatePayments interest validators balances = payments ∧
      HolderRewards.calculatePayments campaign balances ∅ = payments ∧
      Staking.calculateRewards staking 500 cap = payments := by
  decide +kernel

theorem rewards_within_cap_day :
    WithinCap cap (fun address full => full = dailyReward 500 (getD balances address 0)) payments ∧
    WithinCap cap (fun address full => ∃ account, lowercase account = address ∧
      full = dailyReward 500 (getD balances account 0)) payments ∧
    WithinCap cap (fun address full => full = dailyReward 500 (Staking.delegatedBy staking address))
      payments := by
  obtain ⟨hinterest, hcampaign, hstaking⟩ := calculated_payments
  obtain ⟨validatorsCapped, holdersCapped, delegatorsCapped⟩ := rewards_within_cap
  have hsupply : total balances ≤ ieumMaxSupply := by decide +kernel
  refine ⟨?_, ?_, ?_⟩
  · have h := validatorsCapped interest validators balances rfl hsupply
    rwa [hinterest] at h
  · have h := holdersCapped campaign balances ∅ rfl hsupply
    rwa [hcampaign] at h
  · have h := delegatorsCapped staking 500 cap (by decide) (by decide)
    rwa [hstaking] at h

end CappedDay

end IeumChain
