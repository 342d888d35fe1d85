import IeumChain.Rewards
import IeumChain.TrafficRewards

/-!
# Settlement of the daily node rewards

The budget of a day is split over the eligible nodes by their points. Shares are rounded down
and the last node takes what is left, so a settlement pays exactly its pool.
-/
namespace IeumChain

namespace NodeEmission

open MachineWords
open TrafficRewards (LotteryPayment)

def rewardActivationHeight : ℕ := 100
def normalNodeWeightBps : ℕ := 10000
def mainNodeWeightBps : ℕ := 15000
def mainNodePeerIds : List String := ["", "", "", ""]

def isRewardActive (height timestamp : ℕ) : Bool :=
  rewardActivationHeight ≤ height ∧ rewardActivationUnix ≤ timestamp ∧ timestamp ≤ rewardEndUnix

def remainingBudget (distributed : ℕ) : ℕ :=
  totalNodeEmission - min distributed totalNodeEmission

def isMainNode (peerId : String) : Bool := peerId ≠ "" ∧ peerId ∈ mainNodePeerIds

def nodeWeight (node : TrafficRewards.EligibleNode) : ℕ :=
  max node.points 1 * if isMainNode node.peerId then mainNodeWeightBps else normalNodeWeightBps

/-- A share of zero is not paid. -/
def addPayment (node : TrafficRewards.EligibleNode) (amount : ℕ) (payments : List LotteryPayment) :
    List LotteryPayment :=
  if 0 < amount then
    { peerId := node.peerId, rewardAddress := node.rewardAddress, amount } :: payments
  else payments

/-- The nodes after those to which `assigned` went; `none` where the source leaves its words. -/
def settleLoop (pool totalWeight : ℕ) :
    ℕ → List TrafficRewards.EligibleNode → Option (List LotteryPayment)
  | _, [] => some []
  | assigned, node :: rest => do
      let amount ←
        if rest = [] then checkedSub pool assigned
        else checkedDiv (saturatingMul u128Max pool (nodeWeight node)) totalWeight
      let assigned ← checkedAdd u128Max assigned amount
      let payments ← settleLoop pool totalWeight assigned rest
      pure (addPayment node amount payments)

/-- The previous block hash is digested and dropped. The sum of the weights never leaves 128
bits in the source. -/
def settleDailyRewards (height timestamp : ℕ) (_previousBlockHash : String)
    (alreadyDistributed : ℕ) (eligible : List TrafficRewards.EligibleNode) :
    Option (List LotteryPayment) :=
  if isRewardActive height timestamp = false ∨ eligible = [] then some []
  else
    let pool := min (dailyBudget timestamp) (remainingBudget alreadyDistributed)
    if pool = 0 then some []
    else
      let nodes := eligible.insertionSort (·.peerId ≤ ·.peerId)
      settleLoop pool (nodes.map nodeWeight).sum 0 nodes

/-! ## One settlement -/

def settledTotal (payments : List LotteryPayment) : ℕ := (payments.map (·.amount)).sum

theorem nodeWeight_pos (node : TrafficRewards.EligibleNode) : 0 < nodeWeight node := by
  have hpoints : 0 < max node.points 1 := Nat.lt_of_lt_of_le Nat.one_pos (le_max_right _ _)
  unfold nodeWeight
  split_ifs
  · exact Nat.mul_pos hpoints (by decide)
  · exact Nat.mul_pos hpoints (by decide)

theorem settledTotal_addPayment (node : TrafficRewards.EligibleNode) (amount : ℕ)
    (payments : List LotteryPayment) :
    settledTotal (addPayment node amount payments) = amount + settledTotal payments := by
  unfold addPayment
  split_ifs with h
  · rfl
  · obtain rfl : amount = 0 := by omega
    rw [Nat.zero_add]

/-- What was assigned and the exact shares of the remaining nodes stay within the pool; then the
loop assigns the pool to the last unit. -/
theorem settleLoop_eq {pool totalWeight assigned : ℕ} {nodes : List TrafficRewards.EligibleNode}
    (hnodes : nodes ≠ []) (hpool : pool ≤ u128Max) (hweight : 0 < totalWeight)
    (h : assigned * totalWeight + pool * (nodes.map nodeWeight).sum ≤ pool * totalWeight) :
    ∃ payments, settleLoop pool totalWeight assigned nodes = some payments ∧
      assigned + settledTotal payments = pool := by
  have hle : ∀ {a : ℕ}, a * totalWeight ≤ pool * totalWeight → a ≤ pool :=
    fun hmul => Nat.le_of_mul_le_mul_right hmul hweight
  induction nodes generalizing assigned with
  | nil => exact absurd rfl hnodes
  | cons node rest ih =>
      rw [List.map_cons, List.sum_cons, Nat.mul_add] at h
      by_cases hrest : rest = []
      · subst hrest
        have hassigned : assigned ≤ pool := hle ((Nat.le_add_right _ _).trans h)
        have hadd : checkedAdd u128Max assigned (pool - assigned) = some pool :=
          checkedAdd_eq_some.2 ⟨Nat.add_sub_cancel' hassigned, hpool⟩
        refine ⟨addPayment node (pool - assigned) [], ?_, ?_⟩
        · simp only [settleLoop, if_true, checkedSub_of_le hassigned, hadd, Option.bind_eq_bind,
            Option.bind_some, Option.pure_def]
        · rw [settledTotal_addPayment]
          exact Nat.add_sub_cancel' hassigned
      · set amount := saturatingMul u128Max pool (nodeWeight node) / totalWeight with hamount
        have hshare : amount * totalWeight ≤ pool * nodeWeight node :=
          (Nat.div_mul_le_self _ _).trans (min_le_left _ _)
        have hinvariant : (assigned + amount) * totalWeight + pool * (rest.map nodeWeight).sum ≤
            pool * totalWeight := by
          rw [Nat.add_mul]
          omega
        have hassigned : assigned + amount ≤ pool :=
          hle ((Nat.le_add_right _ _).trans hinvariant)
        have hadd : checkedAdd u128Max assigned amount = some (assigned + amount) :=
          checkedAdd_eq_some.2 ⟨rfl, hassigned.trans hpool⟩
        obtain ⟨payments, hloop, hsum⟩ := ih hrest hinvariant
        refine ⟨addPayment node amount payments, ?_, ?_⟩
        · simp only [settleLoop, if_neg hrest, checkedDiv_of_pos hweight, ← hamount, hadd, hloop,
            Option.bind_eq_bind, Option.bind_some, Option.pure_def]
        · rw [settledTotal_addPayment]
          omega

theorem settleDailyRewards_eq {height timestamp : ℕ} (previousBlockHash : String)
    (alreadyDistributed : ℕ) {eligible : List TrafficRewards.EligibleNode}
    (hactive : isRewardActive height timestamp = true) (hne : eligible ≠ []) :
    ∃ payments,
      settleDailyRewards height timestamp previousBlockHash alreadyDistributed eligible =
        some payments ∧
      settledTotal payments = min (dailyBudget timestamp) (remainingBudget alreadyDistributed) := by
  set pool := min (dailyBudget timestamp) (remainingBudget alreadyDistributed) with hpool
  have hstart : ¬(isRewardActive height timestamp = false ∨ eligible = []) := by
    simp only [hactive, hne, Bool.true_eq_false, or_self, not_false_eq_true]
  by_cases hzero : pool = 0
  · refine ⟨[], ?_, hzero.symm⟩
    simp only [settleDailyRewards, if_neg hstart, ← hpool, if_pos hzero]
  · set nodes := eligible.insertionSort (·.peerId ≤ ·.peerId) with hnodes
    have hperm : nodes.Perm eligible := List.perm_insertionSort _ _
    have hsorted : nodes ≠ [] := fun hnil => hne (hnil ▸ hperm).nil_eq.symm
    have hfits : pool ≤ u128Max :=
      ((min_le_right _ _).trans (Nat.sub_le _ _)).trans (by decide : totalNodeEmission ≤ u128Max)
    have hweight : 0 < (nodes.map nodeWeight).sum := by
      obtain ⟨node, rest, heq⟩ := List.exists_cons_of_ne_nil hsorted
      have hpos := nodeWeight_pos node
      rw [heq, List.map_cons, List.sum_cons]
      omega
    have hstarted : 0 * (nodes.map nodeWeight).sum + pool * (nodes.map nodeWeight).sum ≤
        pool * (nodes.map nodeWeight).sum := by
      rw [Nat.zero_mul, Nat.zero_add]
    obtain ⟨payments, hloop, hsum⟩ := settleLoop_eq hsorted hfits hweight hstarted
    refine ⟨payments, ?_, by rwa [Nat.zero_add] at hsum⟩
    simp only [settleDailyRewards, if_neg hstart, ← hpool, if_neg hzero, ← hnodes, hloop]

/-! ## Sequences of settlements -/

structure Settlement where
  height : ℕ
  timestamp : ℕ
  previousBlockHash : String
  eligible : List TrafficRewards.EligibleNode

/-- What has been distributed in the end, each settlement being told what went before. -/
def distributedAfter : ℕ → List Settlement → Option ℕ
  | distributed, [] => some distributed
  | distributed, s :: rest => do
      let payments ←
        settleDailyRewards s.height s.timestamp s.previousBlockHash distributed s.eligible
      distributedAfter (distributed + settledTotal payments) rest

/-- A settlement on any day, active or not, leaves the total within the cap. -/
theorem settleDailyRewards_within_cap {distributed : ℕ} (h : distributed ≤ totalNodeEmission)
    (s : Settlement) :
    ∃ payments,
      settleDailyRewards s.height s.timestamp s.previousBlockHash distributed s.eligible =
        some payments ∧
      distributed + settledTotal payments ≤ totalNodeEmission := by
  by_cases hidle : isRewardActive s.height s.timestamp = false ∨ s.eligible = []
  · exact ⟨[], if_pos hidle, h⟩
  · rw [not_or, Bool.not_eq_false] at hidle
    obtain ⟨payments, hsettle, hsum⟩ :=
      settleDailyRewards_eq s.previousBlockHash distributed hidle.1 hidle.2
    refine ⟨payments, hsettle, ?_⟩
    have hle : settledTotal payments ≤ remainingBudget distributed := hsum ▸ min_le_right _ _
    rw [remainingBudget, min_eq_left h] at hle
    omega

theorem distributedAfter_within_cap {distributed : ℕ} (h : distributed ≤ totalNodeEmission)
    (settlements : List Settlement) :
    ∃ total, distributedAfter distributed settlements = some total ∧
      total ≤ totalNodeEmission := by
  induction settlements generalizing distributed with
  | nil => exact ⟨distributed, rfl, h⟩
  | cons s rest ih =>
      obtain ⟨payments, hsettle, hcap⟩ := settleDailyRewards_within_cap h s
      obtain ⟨total, hrest, htotal⟩ := ih hcap
      refine ⟨total, ?_, htotal⟩
      rw [distributedAfter, hsettle, Option.bind_eq_bind, Option.bind_some, hrest]

theorem nodeWeight_le {node : TrafficRewards.EligibleNode} (h : node.points ≤ u64Max) :
    nodeWeight node ≤ u64Max * mainNodeWeightBps := by
  have hpoints : max node.points 1 ≤ u64Max := max_le h (by decide)
  refine Nat.mul_le_mul hpoints ?_
  split_ifs
  · exact le_rfl
  · decide

/-- The weights of any list that a memory can hold add up within 128 bits. -/
theorem sum_nodeWeight_le {nodes : List TrafficRewards.EligibleNode}
    (hpoints : ∀ n ∈ nodes, n.points ≤ u64Max) (hlength : nodes.length ≤ 2 ^ 50) :
    (nodes.map nodeWeight).sum ≤ u128Max := by
  have hsum := List.sum_le_card_nsmul (nodes.map nodeWeight) (u64Max * mainNodeWeightBps) (by
    intro w hw
    obtain ⟨n, hn, rfl⟩ := List.mem_map.1 hw
    exact nodeWeight_le (hpoints n hn))
  rw [List.length_map] at hsum
  calc (nodes.map nodeWeight).sum
      ≤ nodes.length * (u64Max * mainNodeWeightBps) := hsum
    _ ≤ 2 ^ 50 * (u64Max * mainNodeWeightBps) := Nat.mul_le_mul_right _ hlength
    _ ≤ u128Max := by decide

/-- On an active day a settlement with nodes pays exactly the smaller of the day's budget and
what remains of the emission, without leaving the words; whatever settlements follow one
another, the total stays within the emission. -/
theorem settlements_within_cap :
    (∀ (height timestamp : ℕ) (previousBlockHash : String) (alreadyDistributed : ℕ)
        (eligible : List TrafficRewards.EligibleNode),
      isRewardActive height timestamp = true → eligible ≠ [] →
        ∃ payments,
          settleDailyRewards height timestamp previousBlockHash alreadyDistributed eligible =
            some payments ∧
          (payments.map (·.amount)).sum =
            min (dailyBudget timestamp) (remainingBudget alreadyDistributed)) ∧
    (∀ settlements : List Settlement,
      ∃ total, distributedAfter 0 settlements = some total ∧ total ≤ totalNodeEmission) ∧
    ∀ eligible : List TrafficRewards.EligibleNode,
      (∀ n ∈ eligible, n.points ≤ u64Max) → eligible.length ≤ 2 ^ 50 →
        (eligible.map nodeWeight).sum ≤ u128Max := by
  refine ⟨?_, ?_, ?_⟩
  · intro height timestamp previousBlockHash alreadyDistributed eligible hactive hne
    exact settleDailyRewards_eq previousBlockHash alreadyDistributed hactive hne
  · intro settlements
    exact distributedAfter_within_cap (Nat.zero_le _) settlements
  · intro eligible hpoints hlength
    exact sum_nodeWeight_le hpoints hlength

/-- A day with two nodes, one of the largest number of points. -/
theorem settlements_within_cap_two :
    let eligible : List TrafficRewards.EligibleNode := [⟨"b", "22", u64Max, 3⟩, ⟨"a", "11", 1, 3⟩]
    ∃ payments, settleDailyRewards 100 1787238000 "aa" 0 eligible = some payments ∧
      (payments.map (·.amount)).sum = min (dailyBudget 1787238000) (remainingBudget 0) :=
  settlements_within_cap.1 100 1787238000 "aa" 0 _ (by decide) (by decide)

end NodeEmission

end IeumChain
