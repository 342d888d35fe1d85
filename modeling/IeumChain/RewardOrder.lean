import IeumChain.Library.KeyedLists
import IeumChain.Library.TiedShares
import IeumChain.LedgerKeys
import IeumChain.RewardShares

/-!
# Holder rewards and the order of the map

Addresses are put in lowercase before they are sorted, so the ledger may hold two accounts for
one address of the payment list. Between these the order of the map decides, and with it what
is paid when the day's maximum is near.
-/
namespace IeumChain

namespace HolderRewards

open Text MachineWords FiniteMap KeyedLists

/-- The reward of one day before the maximum. -/
def dailyReward (p : Policy) (balance : ℕ) : ℕ :=
  round12 (saturatingMul u128Max balance p.annualRateBps / 10000 / 365)

/-- The rewards of the accounts that take part, as the map lists them. -/
def rewards (p : Policy) (excluded : Finset String)
    (entries : List (Sigma fun _ : Address => ℕ)) : List (Address × ℕ) :=
  (entries.filter fun e => eligible p excluded e.1 e.2).map
    fun e => (lowercase e.1, dailyReward p e.2)

theorem shares_eq (p : Policy) (balances : HashMap Address ℕ) (excluded : Finset String)
    (hactive : ¬(p.enabled = false ∨ p.annualRateBps = 0)) :
    shares p balances excluded = Budget.sorted (rewards p excluded balances.entries) := by
  have hrewards : rewards p excluded balances.entries =
      ((balances.entries.filter fun e => eligible p excluded e.1 e.2).map
        fun e => (lowercase e.1, e.2)).map fun a => (a.1, dailyReward p a.2) := by
    rw [List.map_map]
    rfl
  rw [shares, if_neg hactive, hrewards, Budget.sorted]
  simp only [dailyReward]
  exact List.map_insertionSort (·.1 ≤ ·.1) (·.1 ≤ ·.1)
    (fun a : Address × ℕ =>
      (a.1, round12 (saturatingMul u128Max a.2 p.annualRateBps / 10000 / 365)))
    _ fun _ _ _ _ => Iff.rfl

theorem ofShare_injective : Function.Injective EventPayment.ofShare := by
  intro a b h
  obtain ⟨haddress, hamount⟩ := EventPayment.mk.inj h
  exact Prod.ext haddress hamount

/-- Every order of the rewards comes from an order of the map. -/
theorem exists_perm_of_rewards {p : Policy} {excluded : Finset String}
    {entries : List (Sigma fun _ : Address => ℕ)} {listed : List (Address × ℕ)}
    (h : listed.Perm (rewards p excluded entries)) :
    ∃ entries', entries'.Perm entries ∧ rewards p excluded entries' = listed :=
  exists_perm_of_filter_map h

/-- Payments as a function of the order in which the map lists its entries. -/
theorem calculatePayments_entries {p : Policy} (hactive : ¬(p.enabled = false ∨ p.annualRateBps = 0))
    (balances balances' : HashMap Address ℕ) (excluded : Finset String) :
    calculatePayments p balances excluded = calculatePayments p balances' excluded ↔
      Budget.pay p.maximumDailyTotal (Budget.sorted (rewards p excluded balances.entries)) =
        Budget.pay p.maximumDailyTotal (Budget.sorted (rewards p excluded balances'.entries)) := by
  rw [calculatePayments_eq, calculatePayments_eq, shares_eq _ _ _ hactive,
    shares_eq _ _ _ hactive]
  exact (List.map_injective_iff.2 ofShare_injective).eq_iff

/-- Two accounts for one address with different rewards: the smaller one is nothing, or what the
addresses before them leave of the day's maximum is no more than it. -/
def OrderFree (p : Policy) (balances : HashMap Address ℕ) (excluded : Finset String) : Prop :=
  p.enabled = false ∨ p.annualRateBps = 0 ∨
    Budget.OrderFree p.maximumDailyTotal (rewards p excluded balances.entries)

theorem OrderFree.perm {p : Policy} {balances balances' : HashMap Address ℕ}
    {excluded : Finset String} (h : OrderFree p balances excluded)
    (hperm : balances.entries.Perm balances'.entries) : OrderFree p balances' excluded :=
  h.imp id (Or.imp id fun hfree => hfree.perm ((hperm.filter _).map _))

/-- The payments are the same for every order of the map exactly then. -/
theorem payments_orderFree_iff (p : Policy) (balances : HashMap Address ℕ)
    (excluded : Finset String) :
    (∀ balances' : HashMap Address ℕ, balances'.entries.Perm balances.entries →
      calculatePayments p balances' excluded = calculatePayments p balances excluded) ↔
        OrderFree p balances excluded := by
  rw [OrderFree, ← or_assoc]
  by_cases hactive : p.enabled = false ∨ p.annualRateBps = 0
  · simp [calculatePayments, hactive]
  · rw [or_iff_right hactive, ← Budget.pay_sorted_perm_iff]
    constructor
    · intro h listed hlisted
      obtain ⟨entries, hperm, rfl⟩ := exists_perm_of_rewards hlisted
      have hnodup : entries.NodupKeys := (List.perm_nodupKeys hperm).2 balances.nodupKeys
      exact (calculatePayments_entries hactive ⟨entries, hnodup⟩ balances excluded).1 (h _ hperm)
    · intro h balances' hperm
      rw [calculatePayments_entries hactive]
      exact h _ ((hperm.filter _).map _)

end HolderRewards

/-! An account under two keys, as a transfer to its mixed-case form leaves it. -/

namespace Spelling

open HolderRewards FiniteMap

def rewarding : Policy := { Policy.default with enabled := true, startsAt := 1, endsAt := 2 }

def split : HashMap Address ℕ :=
  (AList.insert stored (2000 * ieumBaseUnit) ∅).insert shown (1000 * ieumBaseUnit)

def split' : HashMap Address ℕ :=
  (AList.insert shown (1000 * ieumBaseUnit) ∅).insert stored (2000 * ieumBaseUnit)

/-- The two rewards of the account come in the order of the map. -/
theorem rewards_in_map_order :
    rewarding.validate = .ok () ∧ split'.entries.Perm split.entries ∧
      calculatePayments rewarding split' ∅ ≠ calculatePayments rewarding split ∅ := by
  refine ⟨rfl, .swap _ _ _, ?_⟩
  decide

end Spelling

end IeumChain
