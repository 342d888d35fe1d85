import IeumChain.Conservation
import IeumChain.Penalties
import IeumChain.RewardShares

/-!
# What built-in rewards take from the foundation

The daily rewards of a block are recomputed by every node and stay within their daily
maxima. The two rewards for the first validators and the first hundred nodes are only
checked for identifiers, registrations and signatures; their amounts are the proposer's.
-/
namespace IeumChain

open Outcome FiniteMap MachineWords

/-! ## Payments out of the foundation account -/

def paidTotal (payments : List EventPayment) : ℕ := (payments.map (·.amount)).sum

theorem paidTotal_equal {α : Type} (receivers : List α) (address : α → Address) (amount : ℕ) :
    paidTotal (receivers.map fun r => { address := address r, amount }) =
      receivers.length * amount := by
  simp [paidTotal, Function.comp_def]

/-- The payments that leave the account; one to the foundation itself changes nothing. -/
def outgoing (payments : List EventPayment) : ℕ :=
  paidTotal (payments.filter fun p => canonicalAddress p.address ≠ foundationFeeAddress)

theorem outgoing_le (payments : List EventPayment) : outgoing payments ≤ paidTotal payments := by
  have hsublist : List.Sublist
      (payments.filter fun p => canonicalAddress p.address ≠ foundationFeeAddress) payments :=
    List.filter_sublist
  exact (hsublist.map EventPayment.amount).sum_le_sum fun _ _ => Nat.zero_le _

theorem transferFromFoundation_balance {b b' : HashMap Address ℕ} {p : EventPayment}
    (h : transferFromFoundation b p.address p.amount = .ok b') :
    getD b' foundationFeeAddress 0 + outgoing [p] = getD b foundationFeeAddress 0 := by
  simp only [transferFromFoundation, check_bind_eq_ok, reject_eq_ok, not_lt] at h
  obtain ⟨hcovered, hcredit⟩ := h
  have hself := getD_insert_self b foundationFeeAddress
    (getD b foundationFeeAddress 0 - p.amount) 0
  rw [creditBalance_getD hcredit, hself]
  by_cases hreceiver : canonicalAddress p.address = foundationFeeAddress
  · have hnone : outgoing [p] = 0 := by simp [outgoing, paidTotal, hreceiver]
    rw [if_pos hreceiver, hnone]
    omega
  · have hall : outgoing [p] = p.amount := by simp [outgoing, paidTotal, hreceiver]
    rw [if_neg hreceiver, hall]
    omega

theorem outgoing_append (xs ys : List EventPayment) :
    outgoing (xs ++ ys) = outgoing xs + outgoing ys := by
  simp [outgoing, paidTotal]

theorem payFromFoundation_balance {b b' : HashMap Address ℕ} {payments : List EventPayment}
    (h : payFromFoundation b payments = .ok b') :
    getD b' foundationFeeAddress 0 + outgoing payments = getD b foundationFeeAddress 0 := by
  induction payments generalizing b with
  | nil =>
      simp only [payFromFoundation, List.foldlM_nil, pure_eq_ok] at h
      subst h
      rfl
  | cons p payments ih =>
      simp only [payFromFoundation, List.foldlM_cons, bind_eq_ok] at h
      obtain ⟨b₁, hfirst, hrest⟩ := h
      have h₁ := transferFromFoundation_balance hfirst
      have h₂ := ih hrest
      have hparts : outgoing (p :: payments) = outgoing [p] + outgoing payments :=
        outgoing_append [p] payments
      omega

/-- Payments that the account covers go through. -/
theorem payFromFoundation_ok {b : HashMap Address ℕ} {payments : List EventPayment}
    (htotal : total b ≤ u128Max) (hcovered : paidTotal payments ≤ getD b foundationFeeAddress 0) :
    ∃ b', payFromFoundation b payments = .ok b' := by
  induction payments generalizing b with
  | nil => exact ⟨b, rfl⟩
  | cons p payments ih =>
      simp only [paidTotal, List.map_cons, List.sum_cons] at hcovered
      have hfirst : p.amount ≤ getD b foundationFeeAddress 0 := by omega
      have hdebit := total_debit hfirst
      obtain ⟨b₁, hb₁⟩ : ∃ b₁, transferFromFoundation b p.address p.amount = .ok b₁ := by
        simp only [transferFromFoundation, check_bind_eq_ok, reject_eq_ok, not_lt]
        have hle := getD_le_total
          (b.insert foundationFeeAddress (getD b foundationFeeAddress 0 - p.amount))
          (canonicalAddress p.address)
        unfold creditBalance
        split_ifs with hzero
        · exact ⟨_, hfirst, rfl⟩
        · simp only [bind_eq_ok, okOr_eq_ok, checkedAdd_eq_some]
          exact ⟨_, hfirst, _, ⟨rfl, by omega⟩, rfl⟩
      have hbalance := transferFromFoundation_balance hb₁
      have houtgoing : outgoing [p] ≤ p.amount := by simpa [paidTotal] using outgoing_le [p]
      obtain ⟨b', hb'⟩ := ih (b := b₁) (by rw [transferFromFoundation_total hb₁]; exact htotal)
        (by simp only [paidTotal]; omega)
      refine ⟨b', ?_⟩
      simp only [payFromFoundation, List.foldlM_cons, bind_eq_ok]
      exact ⟨b₁, hb₁, hb'⟩

/-! ## Daily maxima -/

/-- Shares never exceed the budget they are paid from. -/
theorem paidTotal_pay (budget : ℕ) (shares : List (Address × ℕ)) :
    paidTotal ((Budget.pay budget shares).map EventPayment.ofShare) ≤ budget := by
  rw [paidTotal, List.map_map]
  exact Budget.sum_pay_le budget shares

/-- The last share absorbs the remainder. -/
theorem NodeEmission.paidTotal_splitPool (pool each assigned : ℕ) (addresses : List Address)
    (h : assigned + each * addresses.length ≤ pool) :
    paidTotal (splitPool pool each assigned addresses) + assigned ≤ pool := by
  induction addresses generalizing assigned with
  | nil =>
      simp only [splitPool, paidTotal, List.map_nil, List.sum_nil]
      omega
  | cons address rest ih =>
      cases rest with
      | nil =>
          simp only [splitPool, paidTotal, List.map_cons, List.map_nil, List.sum_cons,
            List.sum_nil]
          omega
      | cons next rest =>
          have hroom : assigned + each + each * (next :: rest).length ≤ pool := by
            rw [List.length_cons, mul_add, mul_one] at h
            omega
          have hrest := ih (assigned + each) hroom
          simp only [splitPool, paidTotal, List.map_cons, List.sum_cons] at hrest ⊢
          omega

theorem NodeEmission.paidTotal_calculateServicePayments [Crypto] {timestamp : ℕ}
    {attestations : List NodeServiceAttestation} {validators : List Validator}
    {validatorPeerIds : Finset String} {staking : StakingState} {foundationBalance : ℕ}
    {payments : List EventPayment}
    (h : calculateServicePayments timestamp attestations validators validatorPeerIds staking
      foundationBalance = .ok payments) : paidTotal payments ≤ serviceDailyPoolCap := by
  rw [calculateServicePayments, check_bind_eq_ok] at h
  obtain ⟨-, h⟩ := h
  dsimp only at h
  split_ifs at h
  · cases h
    exact Nat.zero_le _
  · cases h
    exact Nat.zero_le _
  · cases h
    have hsplit := paidTotal_splitPool (servicePool timestamp foundationBalance)
      (servicePool timestamp foundationBalance / (eligibleNodes timestamp attestations validators
        validatorPeerIds staking).length) 0
      ((eligibleNodes timestamp attestations validators validatorPeerIds staking).map
        (·.rewardAddress)) (by
          rw [List.length_map, zero_add, mul_comm]
          exact Nat.mul_div_le _ _)
    have hpool : servicePool timestamp foundationBalance ≤ serviceDailyPoolCap :=
      le_trans (min_le_left _ _) (min_le_right _ _)
    exact le_trans (le_trans (Nat.le_add_right _ _) hsplit) hpool

/-! ## Built-in rewards of a block -/

inductive RewardKind
  | bootstrap
  | milestone
  | interest
  | holder
  | delegation
  | service
  deriving Repr, DecidableEq

def rewardKind : ScheduledEventAction → Option RewardKind
  | .bootstrapValidatorReward _ _ => some .bootstrap
  | .nodeMilestoneReward _ _ => some .milestone
  | .validatorDailyInterest _ _ _ _ => some .interest
  | .holderDailyReward _ _ _ _ => some .holder
  | .delegationDailyReward _ _ _ _ => some .delegation
  | .nodeServiceDailyReward _ _ _ _ => some .service
  | _ => none

/-- What the events list for one kind of reward. -/
def listed (kind : RewardKind) (events : List ScheduledEvent) : ℕ :=
  ((events.filter fun e => rewardKind e.action = some kind).map fun e =>
    outgoing (foundationPayments e.action)).sum

theorem listed_cons (kind : RewardKind) (e : ScheduledEvent) (events : List ScheduledEvent) :
    listed kind (e :: events) =
      (if rewardKind e.action = some kind then outgoing (foundationPayments e.action) else 0) +
        listed kind events := by
  by_cases h : rewardKind e.action = some kind
  · simp [listed, h]
  · simp [listed, h]

/-- A kind of reward occurs at most once, because its identifier does. -/
theorem listed_le {kind : RewardKind} {events : List ScheduledEvent} (id : String) {limit : ℕ}
    (hnodup : (events.map (·.id)).Nodup)
    (h : ∀ e ∈ events, rewardKind e.action = some kind →
      e.id = id ∧ outgoing (foundationPayments e.action) ≤ limit) : listed kind events ≤ limit := by
  have hmem : ∀ e ∈ events.filter (fun e => rewardKind e.action = some kind),
      e.id = id ∧ outgoing (foundationPayments e.action) ≤ limit := by
    intro e he
    rw [List.mem_filter, decide_eq_true_eq] at he
    exact h e he.1 he.2
  have hdistinct : ((events.filter fun e => rewardKind e.action = some kind).map (·.id)).Nodup :=
    hnodup.sublist (List.filter_sublist.map _)
  unfold listed
  generalize events.filter (fun e => rewardKind e.action = some kind) = found at hmem hdistinct ⊢
  cases found with
  | nil => exact Nat.zero_le _
  | cons a found =>
      cases found with
      | nil => simpa using (hmem a (List.mem_singleton_self a)).2
      | cons b found =>
          have ha := (hmem a (by simp)).1
          have hb := (hmem b (by simp)).1
          simp [ha, hb] at hdistinct

section
variable [Crypto]

/-- What built-in rewards take out of the foundation account, read off the ledgers before and
after each of them. -/
def rewardOutflow (blockTimestamp : ℕ) : Ledger → List ScheduledEvent → ℕ
  | _, [] => 0
  | l, e :: rest =>
      match applySystemEvent blockTimestamp l e with
      | .error _ => 0
      | .ok l' =>
          (if rewardKind e.action = none then 0
            else l.balanceOf foundationFeeAddress - l'.balanceOf foundationFeeAddress) +
            rewardOutflow blockTimestamp l' rest

/-- The events of a block run on the ledger that its transactions leave. -/
def Blockchain.rewardOutflow (c : Blockchain) (b : Block) : ℕ :=
  match applyTransactions c.chainId b.transactions b.producer c.toLedger b.timestamp with
  | .error _ => 0
  | .ok l => IeumChain.rewardOutflow b.timestamp l b.systemEvents

theorem applySystemEvent_balance {blockTimestamp : ℕ} {l l' : Ledger} {e : ScheduledEvent}
    (hkind : rewardKind e.action ≠ none) (h : applySystemEvent blockTimestamp l e = .ok l') :
    l'.balanceOf foundationFeeAddress + outgoing (foundationPayments e.action) =
      l.balanceOf foundationFeeAddress := by
  simp only [applySystemEvent, check_bind_eq_ok] at h
  obtain ⟨-, -, -, h⟩ := h
  cases haction : e.action with
  | doubleVoteSlash evidence penaltyBps =>
      rw [haction] at hkind
      exact absurd rfl hkind
  | _ =>
      rw [haction] at h
      simp only [applyAction, bind_eq_ok, pure_eq_ok] at h
      obtain ⟨balances, hpaid, rfl⟩ := h
      exact payFromFoundation_balance hpaid

/-- The outflow is the sum of what the events list. -/
theorem rewardOutflow_eq {blockTimestamp : ℕ} {l l' : Ledger} {events : List ScheduledEvent}
    (h : applySystemEvents events blockTimestamp l = .ok l') :
    rewardOutflow blockTimestamp l events =
      listed .bootstrap events + listed .milestone events + listed .interest events +
        listed .holder events + listed .delegation events + listed .service events := by
  induction events generalizing l with
  | nil => rfl
  | cons e rest ih =>
      simp only [applySystemEvents, List.foldlM_cons, bind_eq_ok] at h
      obtain ⟨l₁, he, hrest⟩ := h
      have htail := ih hrest
      simp only [rewardOutflow, he, listed_cons]
      cases hkind : rewardKind e.action with
      | none =>
          simp only [if_true, reduceCtorEq, if_false]
          omega
      | some kind =>
          have hbalance := applySystemEvent_balance (by simp [hkind]) he
          cases kind <;> simp only [reduceCtorEq, if_true, if_false, Option.some.injEq] <;> omega

/-- The identifier that a built-in reward has in a block with this time. -/
def rewardId (timestamp : ℕ) : RewardKind → String
  | .bootstrap => bootstrapRewardId
  | .milestone => nodeMilestoneRewardId
  | .interest => ValidatorInterest.eventId timestamp
  | .holder => HolderRewards.eventId timestamp
  | .delegation => Staking.rewardEventId timestamp
  | .service => NodeEmission.serviceEventId (timestamp / NodeEmission.rewardEpochSeconds)

/-- What a kind of reward may take: four times ten and a hundred times one coin, and the daily
maxima. -/
def ConsensusRuntime.rewardLimit (rt : ConsensusRuntime) : RewardKind → ℕ
  | .bootstrap => 4 * (10 * ieumBaseUnit)
  | .milestone => 100 * ieumBaseUnit
  | .interest => rt.validatorInterestPolicy.maximumDailyTotal
  | .holder => rt.holderRewardPolicy.maximumDailyTotal
  | .delegation => rt.validatorInterestPolicy.maximumDailyTotal
  | .service => NodeEmission.serviceDailyPoolCap

/-- What all built-in rewards of one block may take together. -/
def ConsensusRuntime.outflowLimit (rt : ConsensusRuntime) : ℕ :=
  4 * (10 * ieumBaseUnit) + 100 * ieumBaseUnit +
    2 * rt.validatorInterestPolicy.maximumDailyTotal + rt.holderRewardPolicy.maximumDailyTotal +
    NodeEmission.serviceDailyPoolCap

/-- Rewards whose payments every node computes itself. -/
def RewardKind.recomputed : RewardKind → Bool
  | .bootstrap => false
  | .milestone => false
  | _ => true

theorem ConsensusRuntime.checkBuiltInEvent_of_reward {rt : ConsensusRuntime} {block : Block}
    {e : ScheduledEvent} {kind : RewardKind} (hkind : rewardKind e.action = some kind)
    (h : rt.checkEvent block e = .ok ()) : rt.checkBuiltInEvent block e = .ok () := by
  have hnot : isConfigured e.action = false := by
    cases haction : e.action <;> rw [haction] at hkind <;> first | rfl | cases hkind
  rw [checkEvent, if_neg (by rw [hnot]; exact Bool.false_ne_true), check_bind_eq_ok] at h
  exact h.1

/-- An accepted reward has the identifier of its kind and, if it is recomputed, stays within
the limit of its kind. -/
theorem ConsensusRuntime.checkEvent_reward {rt : ConsensusRuntime} {block : Block}
    {e : ScheduledEvent} {kind : RewardKind} (hkind : rewardKind e.action = some kind)
    (h : rt.checkEvent block e = .ok ()) :
    e.id = rewardId block.timestamp kind ∧
      (kind.recomputed = true → outgoing (foundationPayments e.action) ≤ rt.rewardLimit kind) := by
  have hbuiltIn := checkBuiltInEvent_of_reward hkind h
  cases haction : e.action with
  | bootstrapValidatorReward registrations amount =>
      rw [haction] at hkind
      cases hkind
      simp only [checkBuiltInEvent, haction, check_bind_eq_ok, reject_eq_ok, not_not] at hbuiltIn
      exact ⟨hbuiltIn.1, fun hfalse => by cases hfalse⟩
  | nodeMilestoneReward registrations amount =>
      rw [haction] at hkind
      cases hkind
      simp only [checkBuiltInEvent, haction, reject_eq_ok, not_not] at hbuiltIn
      exact ⟨hbuiltIn, fun hfalse => by cases hfalse⟩
  | validatorDailyInterest snapshotHeight policyHash annualRateBps payments =>
      rw [haction] at hkind
      cases hkind
      simp only [checkBuiltInEvent, haction, check_bind_eq_ok, reject_eq_ok, not_not,
        not_or] at hbuiltIn
      obtain ⟨hid, -, -, -, -, hpayments⟩ := hbuiltIn
      refine ⟨hid, fun _ => (outgoing_le _).trans ?_⟩
      rw [foundationPayments, hpayments]
      rw [ValidatorInterest.calculatePayments_eq]
      exact paidTotal_pay ..
  | holderDailyReward snapshotHeight policyHash annualRateBps payments =>
      rw [haction] at hkind
      cases hkind
      simp only [checkBuiltInEvent, haction, check_bind_eq_ok, reject_eq_ok, not_not,
        not_or] at hbuiltIn
      obtain ⟨hid, -, -, -, -, -, hpayments⟩ := hbuiltIn
      refine ⟨hid, fun _ => (outgoing_le _).trans ?_⟩
      rw [foundationPayments, hpayments]
      rw [HolderRewards.calculatePayments_eq]
      exact paidTotal_pay ..
  | delegationDailyReward snapshotHeight policyHash annualRateBps payments =>
      rw [haction] at hkind
      cases hkind
      simp only [checkBuiltInEvent, haction, check_bind_eq_ok, reject_eq_ok, not_not,
        not_or] at hbuiltIn
      obtain ⟨hid, -, -, -, -, hpayments⟩ := hbuiltIn
      refine ⟨hid, fun _ => (outgoing_le _).trans ?_⟩
      rw [foundationPayments, hpayments]
      rw [Staking.calculateRewards_eq]
      exact paidTotal_pay ..
  | nodeServiceDailyReward snapshotHeight epoch attestations payments =>
      rw [haction] at hkind
      cases hkind
      simp only [checkBuiltInEvent, haction, bind_eq_ok, exists_const, reject_eq_ok, not_not,
        not_or] at hbuiltIn
      obtain ⟨hid, expected, hexpected, -, hepoch, hpayments⟩ := hbuiltIn
      refine ⟨by rw [hid, hepoch]; rfl, fun _ => (outgoing_le _).trans ?_⟩
      rw [foundationPayments, hpayments]
      exact NodeEmission.paidTotal_calculateServicePayments hexpected
  | _ =>
      rw [haction] at hkind
      cases hkind

/-- What the recomputed rewards of a block leave of their limits. -/
def ConsensusRuntime.unspent (rt : ConsensusRuntime) (events : List ScheduledEvent) : ℕ :=
  (rt.rewardLimit .interest - listed .interest events) +
    (rt.rewardLimit .holder - listed .holder events) +
    (rt.rewardLimit .delegation - listed .delegation events) +
    (rt.rewardLimit .service - listed .service events)

section
variable {rt : ConsensusRuntime} {unixNow : Option ℕ} {b : Block} {c' : Blockchain}

theorem Blockchain.rewardOutflow_eq (h : rt.chain.applyBlock b = .ok c') :
    rt.chain.rewardOutflow b =
      listed .bootstrap b.systemEvents + listed .milestone b.systemEvents +
        listed .interest b.systemEvents + listed .holder b.systemEvents +
        listed .delegation b.systemEvents + listed .service b.systemEvents := by
  obtain ⟨-, -, -, l, hl, -⟩ := applyBlock_eq_ok.1 h
  obtain ⟨l₁, htransactions, hevents, -⟩ := execute_eq_ok.1 hl
  rw [rewardOutflow, htransactions]
  exact IeumChain.rewardOutflow_eq hevents

theorem ConsensusRuntime.listed_le_rewardLimit
    (hvalid : rt.validateScheduledBlock unixNow b = .ok ()) (happly : rt.chain.applyBlock b = .ok c')
    (kind : RewardKind) (hkind : kind.recomputed = true) :
    listed kind b.systemEvents ≤ rt.rewardLimit kind := by
  obtain ⟨-, now, -, -, -, -, -, hevents⟩ := validateScheduledBlock_eq_ok.1 hvalid
  refine listed_le (rewardId b.timestamp kind) (applyBlock_executed happly).1 fun e he hreward => ?_
  have hchecked := checkEvent_reward hreward (hevents e he)
  exact ⟨hchecked.1, hchecked.2 hkind⟩

theorem ConsensusRuntime.rewardOutflow_add_unspent
    (hvalid : rt.validateScheduledBlock unixNow b = .ok ())
    (happly : rt.chain.applyBlock b = .ok c') :
    rt.chain.rewardOutflow b + rt.unspent b.systemEvents + 4 * (10 * ieumBaseUnit) +
        100 * ieumBaseUnit =
      listed .bootstrap b.systemEvents + listed .milestone b.systemEvents + rt.outflowLimit := by
  have hinterest := listed_le_rewardLimit hvalid happly .interest rfl
  have hholder := listed_le_rewardLimit hvalid happly .holder rfl
  have hdelegation := listed_le_rewardLimit hvalid happly .delegation rfl
  have hservice := listed_le_rewardLimit hvalid happly .service rfl
  rw [Blockchain.rewardOutflow_eq happly]
  simp only [outflowLimit, unspent, rewardLimit] at hinterest hholder hdelegation hservice ⊢
  omega

/-- Built-in rewards stay within their common limit exactly if the amounts that the proposer
chose for the first validators and nodes fit beside what the recomputed rewards leave. -/
theorem ConsensusRuntime.rewardOutflow_le_iff
    (hvalid : rt.validateScheduledBlock unixNow b = .ok ())
    (happly : rt.chain.applyBlock b = .ok c') :
    rt.chain.rewardOutflow b ≤ rt.outflowLimit ↔
      listed .bootstrap b.systemEvents + listed .milestone b.systemEvents ≤
        4 * (10 * ieumBaseUnit) + 100 * ieumBaseUnit + rt.unspent b.systemEvents := by
  have hbalance := rewardOutflow_add_unspent hvalid happly
  omega

/-- The amounts that an honest proposer writes are small enough. -/
theorem ConsensusRuntime.rewardOutflow_le_of_amounts
    (hvalid : rt.validateScheduledBlock unixNow b = .ok ())
    (happly : rt.chain.applyBlock b = .ok c')
    (hbootstrap : ∀ e ∈ b.systemEvents, ∀ registrations amount,
      e.action = .bootstrapValidatorReward registrations amount → amount ≤ 10 * ieumBaseUnit)
    (hmilestone : ∀ e ∈ b.systemEvents, ∀ registrations amount,
      e.action = .nodeMilestoneReward registrations amount → amount ≤ ieumBaseUnit) :
    rt.chain.rewardOutflow b ≤ rt.outflowLimit := by
  obtain ⟨-, now, -, -, -, -, -, hevents⟩ := validateScheduledBlock_eq_ok.1 hvalid
  obtain ⟨hnodup, happlied, -⟩ := applyBlock_executed happly
  have hfirst : listed .bootstrap b.systemEvents ≤ 4 * (10 * ieumBaseUnit) := by
    refine listed_le bootstrapRewardId hnodup fun e he hkind => ?_
    refine ⟨(checkEvent_reward hkind (hevents e he)).1, (outgoing_le _).trans ?_⟩
    have hwell := (happlied e he).1
    cases haction : e.action with
    | bootstrapValidatorReward registrations amount =>
        have hamount := hbootstrap e he registrations amount haction
        simp only [ScheduledEvent.validate, haction, validateAction, check_bind_eq_ok,
          reject_eq_ok, not_or, not_not] at hwell
        rw [foundationPayments, paidTotal_equal, hwell.2.2.1.1]
        omega
    | _ =>
        rw [haction] at hkind
        cases hkind
  have hhundred : listed .milestone b.systemEvents ≤ 100 * ieumBaseUnit := by
    refine listed_le nodeMilestoneRewardId hnodup fun e he hkind => ?_
    refine ⟨(checkEvent_reward hkind (hevents e he)).1, (outgoing_le _).trans ?_⟩
    have hwell := (happlied e he).1
    cases haction : e.action with
    | nodeMilestoneReward registrations amount =>
        have hamount := hmilestone e he registrations amount haction
        simp only [ScheduledEvent.validate, haction, validateAction, check_bind_eq_ok,
          reject_eq_ok, not_or, not_not] at hwell
        rw [foundationPayments, paidTotal_equal, hwell.2.2.1.1]
        omega
    | _ =>
        rw [haction] at hkind
        cases hkind
  have hbalance := rewardOutflow_add_unspent hvalid happly
  omega

end

end

/-! Four validators and a block that rewards them with an amount of the proposer's choice. -/

namespace Quartet

local instance outflowCrypto : Crypto := StandIn.crypto StandIn.digest

def members : List Validator := [1, 2, 3, 4].map fun n => ⟨StandIn.address n, 1⟩

def chain : Blockchain :=
  Blockchain.withChainId 21005 [(foundationFeeAddress, 4000 * ieumBaseUnit)]

def started : Except String ConsensusRuntime :=
  ConsensusRuntime.withSigner chain members (StandIn.address 1) ⟨1, 1, 1⟩ 0

theorem nodup_addresses : ([1, 2, 3, 4].map StandIn.address).Nodup := by
  have hne : ∀ n ∈ [1, 2, 3, 4], ∀ m ∈ [1, 2, 3, 4], n ≠ m →
      StandIn.address n ≠ StandIn.address m := by
    intro n hn m hm h
    apply StandIn.address_ne
    revert n m
    decide
  refine List.Nodup.map_on ?_ (by decide)
  intro n hn m hm heq
  by_contra h
  exact hne n hn m hm h heq

theorem members_ok : ∃ c, BftConsensus.new members = .ok c := by
  have hids : (members.map (·.id)) = [1, 2, 3, 4].map StandIn.address := rfl
  exact BftConsensus.new_ok (by simp [members] : members ≠ []) (by simp [members])
    (by rw [hids]; exact nodup_addresses)

theorem started_ok : ∃ rt, started = .ok rt := by
  obtain ⟨c, hc⟩ := members_ok
  simp only [started, ConsensusRuntime.withSigner, bind_eq_ok]
  exact ⟨_, c, hc, rfl⟩

theorem started_spec {rt : ConsensusRuntime} (h : started = .ok rt) :
    rt.chain = chain ∧ rt.validators = members ∧ rt.eventSchedule.events = [] ∧
      rt.upgradeSchedule.upgrades = [] ∧
      rt.outflowLimit = 3240 * ieumBaseUnit := by
  simp only [started, ConsensusRuntime.withSigner, bind_eq_ok, pure_eq_ok] at h
  obtain ⟨c, -, rfl⟩ := h
  refine ⟨rfl, rfl, rfl, rfl, ?_⟩
  simp only [ConsensusRuntime.outflowLimit, ValidatorInterest.Policy.default,
    HolderRewards.Policy.default, NodeEmission.serviceDailyPoolCap]
  omega

def registration (n : ℕ) : ValidatorRegistration :=
  { validatorId := StandIn.address n, peerId := Text.decimal n
    signatureHex := StandIn.sign n
      (ValidatorRegistration.bytesToSign (StandIn.address n) (Text.decimal n)) }

def reward (amount : ℕ) : ScheduledEvent :=
  { id := bootstrapRewardId, executeAt := 1
    action := .bootstrapValidatorReward ([1, 2, 3, 4].map registration) amount }

def rewardBlock (amount : ℕ) : Block :=
  (Block.new 1 chain.tipHash 5 (StandIn.address 1) []).withSystemEvents [reward amount]

theorem validate_reward {amount : ℕ} (h : 0 < amount) : (reward amount).validate = .ok () := by
  have hverify : ∀ n, verifySignature (registration n).validatorId
      (ValidatorRegistration.bytesToSign (registration n).validatorId (registration n).peerId)
      (registration n).signatureHex = .ok () := fun n => StandIn.verifySignature_sign _ n _
  have hpeers : ([4, 3, 2, 1].map fun n => (registration n).peerId).Nodup := by decide
  have haddresses : ([4, 3, 2, 1].map fun n => (registration n).validatorId).Nodup :=
    List.nodup_reverse.2 nodup_addresses
  simp only [ScheduledEvent.validate, check_bind_eq_ok, reject_eq_ok]
  refine ⟨by simp [reward]; decide, by simp [reward], ?_⟩
  simp only [reward, validateAction, check_bind_eq_ok, reject_eq_ok]
  refine ⟨by simp; omega, ?_⟩
  simp only [List.map_cons, List.map_nil, List.nodup_cons, List.mem_cons, List.not_mem_nil, or_false,
    not_or] at hpeers haddresses
  obtain ⟨⟨h43, h42, h41⟩, ⟨h32, h31⟩, h21, -⟩ := hpeers
  obtain ⟨⟨h43', h42', h41'⟩, ⟨h32', h31'⟩, h21', -⟩ := haddresses
  simp [validateBootstrapRegistrations, hverify, h43, h42, h41, h32, h31, h21, h43', h42', h41',
    h32', h31', h21']

theorem validateScheduledBlock_reward {rt : ConsensusRuntime} (hrt : started = .ok rt) {amount : ℕ}
    (h : 0 < amount) : rt.validateScheduledBlock (some 10) (rewardBlock amount) = .ok () := by
  obtain ⟨hchain, hvalidators, hschedule, hupgrades, -⟩ := started_spec hrt
  refine ConsensusRuntime.validateScheduledBlock_eq_ok.2 ⟨?_, 10, rfl, ?_, ?_, ?_, ?_, ?_⟩
  · rw [hchain]
    exact Nat.zero_le _
  · have hdrift : 5 ≤ saturatingAdd u64Max 10 maxClockDriftSeconds := by decide
    exact hdrift
  · have hneeds : needsStaking (reward amount).action = false := rfl
    simp [rewardBlock, Block.withSystemEvents, Block.sealed, Block.new, hneeds]
  · intro tx htx
    cases htx
  · rw [EventSchedule.due, hschedule]
    rfl
  · intro e he
    obtain rfl : e = reward amount := List.mem_singleton.1 he
    have hexecuted : rt.chain.executedEvents = ∅ := by
      rw [hchain]
      rfl
    have hids : (([1, 2, 3, 4].map registration).map (·.validatorId)) =
        rt.validators.map (·.id) := by
      rw [hvalidators]
      rfl
    have hnot : isConfigured (reward amount).action = false := rfl
    rw [ConsensusRuntime.checkEvent, if_neg (by rw [hnot]; exact Bool.false_ne_true), hexecuted]
    simp only [check_bind_eq_ok, validate_reward h, reject_eq_ok]
    refine ⟨?_, trivial, Finset.notMem_empty _⟩
    simp only [ConsensusRuntime.checkBuiltInEvent, reward, check_bind_eq_ok, reject_eq_ok, hids]
    simp

theorem paidTotal_reward (amount : ℕ) :
    paidTotal (foundationPayments (reward amount).action) = 4 * amount := paidTotal_equal ..

/-- No validator is the foundation. -/
theorem outgoing_reward (amount : ℕ) :
    outgoing (foundationPayments (reward amount).action) = 4 * amount := by
  have hfoundation : Text.startsWith foundationFeeAddress "0x" = true := by decide
  rw [outgoing, List.filter_eq_self.2, paidTotal_reward]
  intro p hp
  obtain ⟨r, hr, rfl⟩ := List.mem_map.1 hp
  obtain ⟨n, -, rfl⟩ := List.mem_map.1 hr
  have hmarker : Text.startsWith (StandIn.address n) "0x" = false := StandIn.startsWith_address n
  have hcanonical : canonicalAddress (StandIn.address n) = StandIn.address n := by
    rw [canonicalAddress, hmarker]
    rfl
  refine decide_eq_true fun heq => ?_
  have hsame : StandIn.address n = foundationFeeAddress := hcanonical.symm.trans heq
  rw [hsame, hfoundation] at hmarker
  cases hmarker

/-- Everything that the foundation can pay is paid. -/
theorem applyBlock_reward {amount : ℕ} (hpos : 0 < amount)
    (h : amount ≤ 1000 * ieumBaseUnit) : ∃ c', chain.applyBlock (rewardBlock amount) = .ok c' := by
  have htotal : chain.total = 4000 * ieumBaseUnit := rfl
  have hliquid : total chain.balances = 4000 * ieumBaseUnit := rfl
  have hbalance : getD chain.balances foundationFeeAddress 0 = 4000 * ieumBaseUnit := rfl
  have hmax : 4000 * ieumBaseUnit ≤ u128Max := by decide
  obtain ⟨balances, hpaid⟩ := payFromFoundation_ok (hliquid ▸ hmax)
    (by rw [paidTotal_reward amount, hbalance]; omega)
  have hevent : ∃ l, applySystemEvent 5 chain.toLedger (reward amount) = .ok l := by
    simp only [applySystemEvent, check_bind_eq_ok, validate_reward hpos, reject_eq_ok]
    refine ⟨{ chain.toLedger with
      balances, executedEvents := insert (reward amount).id chain.executedEvents }, trivial,
      by simp [reward], Finset.notMem_empty _, ?_⟩
    simp only [reward, applyAction, bind_eq_ok]
    exact ⟨balances, hpaid, rfl⟩
  obtain ⟨l, hl⟩ := hevent
  have hcap : validateSupplyCap l = .ok () := by
    apply validateSupplyCap_eq_ok.2
    rw [applySystemEvent_total hl, htotal]
    simp only [ieumMaxSupply]
    omega
  have hevents : applySystemEvents [reward amount] 5 chain.toLedger = .ok l := by
    rw [applySystemEvents, List.foldlM_cons, hl, bind_eq_ok]
    exact ⟨l, rfl, rfl⟩
  have hexecute : chain.execute (rewardBlock amount) = .ok l :=
    Blockchain.execute_eq_ok.2 ⟨chain.toLedger, rfl, hevents, hcap⟩
  exact ⟨_, Blockchain.applyBlock_eq_ok.2
    ⟨rfl, rfl, Block.withSystemEvents_hash _ _, l, hexecute, rfl⟩⟩

theorem listed_reward (amount : ℕ) :
    listed .bootstrap (rewardBlock amount).systemEvents = 4 * amount := by
  have houtgoing := outgoing_reward amount
  simpa [listed, rewardBlock, Block.withSystemEvents, Block.sealed, reward, rewardKind] using
    houtgoing

/-- A thousand coins for each of four validators are accepted. -/
theorem reward_above_limit :
    ∃ rt c', started = .ok rt ∧
      rt.validateScheduledBlock (some 10) (rewardBlock (1000 * ieumBaseUnit)) = .ok () ∧
      rt.chain.applyBlock (rewardBlock (1000 * ieumBaseUnit)) = .ok c' ∧
      rt.outflowLimit < rt.chain.rewardOutflow (rewardBlock (1000 * ieumBaseUnit)) := by
  have hpos : 0 < 1000 * ieumBaseUnit := by decide
  obtain ⟨rt, hrt⟩ : ∃ rt, started = .ok rt := started_ok
  obtain ⟨hchain, -, -, -, hlimit⟩ := started_spec hrt
  obtain ⟨c', happly⟩ := applyBlock_reward hpos le_rfl
  rw [← hchain] at happly
  refine ⟨rt, c', hrt, validateScheduledBlock_reward hrt hpos, happly, ?_⟩
  rw [Blockchain.rewardOutflow_eq happly, listed_reward, hlimit]
  omega

/-- Ten coins for each of them are within the limit. -/
theorem rewardOutflow_le_iff_ten :
    ∃ rt c', started = .ok rt ∧
      rt.validateScheduledBlock (some 10) (rewardBlock (10 * ieumBaseUnit)) = .ok () ∧
      rt.chain.applyBlock (rewardBlock (10 * ieumBaseUnit)) = .ok c' ∧
      rt.chain.rewardOutflow (rewardBlock (10 * ieumBaseUnit)) ≤ rt.outflowLimit := by
  have hpos : 0 < 10 * ieumBaseUnit := by decide
  obtain ⟨rt, hrt⟩ : ∃ rt, started = .ok rt := started_ok
  obtain ⟨c', happly⟩ := applyBlock_reward hpos (by omega)
  rw [← (started_spec hrt).1] at happly
  have hvalid := validateScheduledBlock_reward hrt hpos
  refine ⟨rt, c', hrt, hvalid, happly, (ConsensusRuntime.rewardOutflow_le_iff hvalid happly).2 ?_⟩
  have hnone : listed .milestone (rewardBlock (10 * ieumBaseUnit)).systemEvents = 0 := rfl
  rw [listed_reward, hnone]
  omega

end Quartet

end IeumChain
