import IeumChain.RewardOrder
import IeumChain.ServicePool

/-!
# Which nodes agree on a block

Two nodes with the same chain and the same rules agree on a block exactly if a check that they
share fails, or if the rewards in it are right for both or for neither. Which rewards are right
is stated without the loops that compute them: by whose turn it is among the public nodes, and
by the rewards of the holders in the order in which the balances are listed.
-/
namespace IeumChain

open Text Outcome FiniteMap

namespace NodeEmission

/-- Equal shares of a pool, the remainder of the division with the last one. -/
def equalShares (pool count : ℕ) : List ℕ :=
  List.replicate (count - 1) (pool / count) ++ [pool - (count - 1) * (pool / count)]

/-- The payments are equal shares for the nodes whose turn it is, in their order. -/
def PaysInTurn (timestamp : ℕ) (attestations : List NodeServiceAttestation)
    (validators : List Validator) (validatorPeerIds : Finset String) (staking : StakingState)
    (pool : ℕ) (payments : List EventPayment) : Prop :=
  ∃ nodes : List EligibleNode, nodes.Pairwise (fun a b => a.key < b.key) ∧
    (∀ n, n ∈ nodes ↔
      InTurn timestamp staking (accepted timestamp attestations validators validatorPeerIds) n) ∧
    payments = if pool = 0 then []
      else List.zipWith EventPayment.mk (nodes.map (·.rewardAddress)) (equalShares pool nodes.length)

theorem splitPool_eq (pool each assigned : ℕ) (address : Address) (rest : List Address) :
    splitPool pool each assigned (address :: rest) =
      List.zipWith EventPayment.mk (address :: rest)
        (List.replicate rest.length each ++ [pool - (assigned + rest.length * each)]) := by
  induction rest generalizing assigned address with
  | nil => simp [splitPool]
  | cons next rest ih =>
      have hsum : assigned + each + rest.length * each =
          assigned + (rest.length + 1) * each := by
        rw [add_mul, one_mul, add_assoc, add_comm each]
      rw [splitPool, ih, hsum, List.length_cons, List.replicate_succ, List.cons_append,
        List.zipWith_cons_cons]
      exact List.cons_ne_nil _ _

theorem splitPool_equalShares {nodes : List EligibleNode} (hne : nodes ≠ []) (pool : ℕ) :
    splitPool pool (pool / nodes.length) 0 (nodes.map (·.rewardAddress)) =
      List.zipWith EventPayment.mk (nodes.map (·.rewardAddress))
        (equalShares pool nodes.length) := by
  obtain ⟨first, rest, rfl⟩ := List.exists_cons_of_ne_nil hne
  rw [List.map_cons, splitPool_eq, List.length_map, zero_add]
  rfl

theorem eligibleNodes_strict {timestamp : ℕ} {attestations : List NodeServiceAttestation}
    {validators : List Validator} {validatorPeerIds : Finset String} {staking : StakingState} :
    (eligibleNodes timestamp attestations validators validatorPeerIds staking).Pairwise
      fun a b => a.key < b.key := by
  rw [eligibleNodes_eq]
  exact candidates_strict.sublist (Proposer.capGroups_sublist [] _)

/-- There is one list of the nodes whose turn it is. -/
theorem eq_eligibleNodes {timestamp : ℕ} {attestations : List NodeServiceAttestation}
    {validators : List Validator} {validatorPeerIds : Finset String} {staking : StakingState}
    {nodes : List EligibleNode} (hstrict : nodes.Pairwise fun a b => a.key < b.key)
    (hmem : ∀ n, n ∈ nodes ↔
      InTurn timestamp staking (accepted timestamp attestations validators validatorPeerIds) n) :
    nodes = eligibleNodes timestamp attestations validators validatorPeerIds staking := by
  have hperm : nodes.Perm
      (eligibleNodes timestamp attestations validators validatorPeerIds staking) := by
    refine (List.perm_ext_iff_of_nodup ?_ ?_).2 fun n => (hmem n).trans mem_eligibleNodes.symm
    · exact hstrict.imp fun hlt heq => absurd (heq ▸ hlt) (lt_irrefl _)
    · exact eligibleNodes_strict.imp fun hlt heq => absurd (heq ▸ hlt) (lt_irrefl _)
  refine hperm.eq_of_pairwise ?_ hstrict eligibleNodes_strict
  intro a b _ _ hab hba
  exact absurd hba (lt_asymm hab)

theorem calculateServicePayments_iff [Crypto] {timestamp : ℕ}
    {attestations : List NodeServiceAttestation} {validators : List Validator}
    {validatorPeerIds : Finset String} {staking : StakingState} {foundationBalance : ℕ}
    {payments : List EventPayment} :
    calculateServicePayments timestamp attestations validators validatorPeerIds staking
        foundationBalance = .ok payments ↔
      (∀ a ∈ attestations, a.verify = .ok ()) ∧
        PaysInTurn timestamp attestations validators validatorPeerIds staking
          (servicePool timestamp foundationBalance) payments := by
  rw [calculateServicePayments_eq_ok]
  refine and_congr_right fun _ => ?_
  -- With nobody in turn there are no payments either way.
  have hlists : ∀ nodes : List EligibleNode,
      (if nodes = [] ∨ servicePool timestamp foundationBalance = 0 then []
        else splitPool (servicePool timestamp foundationBalance)
          (servicePool timestamp foundationBalance / nodes.length) 0
          (nodes.map (·.rewardAddress))) =
      if servicePool timestamp foundationBalance = 0 then []
        else List.zipWith EventPayment.mk (nodes.map (·.rewardAddress))
          (equalShares (servicePool timestamp foundationBalance) nodes.length) := by
    intro nodes
    by_cases hnone : nodes = []
    · subst hnone
      simp
    · simp only [hnone, false_or, splitPool_equalShares hnone]
  constructor
  · intro h
    exact ⟨_, eligibleNodes_strict, fun n => mem_eligibleNodes, h.trans (hlists _)⟩
  · rintro ⟨nodes, hstrict, hmem, hpayments⟩
    rw [eq_eligibleNodes hstrict hmem] at hpayments
    exact hpayments.trans (hlists _).symm

end NodeEmission

namespace HolderRewards

/-- The payments are the rewards of the accounts in the order of their lowercase addresses, those
of one address in the order of the map, each cut to what those before it leave of the day's
maximum. -/
def PaysInOrder (p : Policy) (balances : HashMap Address ℕ) (payments : List EventPayment) : Prop :=
  let listed := Budget.sorted (rewards p {foundationFeeAddress} balances.entries)
  payments = if p.enabled = false ∨ p.annualRateBps = 0 then []
    else ((List.range listed.length).filterMap (Budget.cut p.maximumDailyTotal listed)).map
      EventPayment.ofShare

theorem paysInOrder_iff {p : Policy} {balances : HashMap Address ℕ} {payments : List EventPayment} :
    PaysInOrder p balances payments ↔
      payments = calculatePayments p balances {foundationFeeAddress} := by
  by_cases hactive : p.enabled = false ∨ p.annualRateBps = 0
  · simp [PaysInOrder, calculatePayments, hactive]
  · rw [PaysInOrder, calculatePayments_eq, shares_eq _ _ _ hactive, Budget.pay_eq_filterMap]
    simp only [hactive, if_false]

end HolderRewards

namespace ConsensusRuntime

section
variable [Crypto]

/-- The rewards in the block are right for a node that has heard this gossip and lists its
balances in this order. -/
structure RightRewards (rt : ConsensusRuntime) (block : Block) : Prop where
  holders : ∀ e ∈ block.systemEvents, ∀ snapshotHeight policyHash annualRateBps payments,
    e.action = .holderDailyReward snapshotHeight policyHash annualRateBps payments →
    HolderRewards.PaysInOrder rt.holderRewardPolicy rt.chain.balances payments
  services : ∀ e ∈ block.systemEvents, ∀ snapshotHeight epoch attestations payments,
    e.action = .nodeServiceDailyReward snapshotHeight epoch attestations payments →
    NodeEmission.PaysInTurn block.timestamp attestations rt.validators rt.validatorPeerIds
      rt.chain.staking
      (NodeEmission.servicePool block.timestamp (rt.chain.balanceOf foundationFeeAddress)) payments

/-- The attestations of a service event are verified with the event. -/
theorem verified_of_checkShared {rt : ConsensusRuntime} {block : Block} {e : ScheduledEvent}
    {snapshotHeight epoch : ℕ} {attestations : List NodeServiceAttestation}
    {payments : List EventPayment}
    (haction : e.action = .nodeServiceDailyReward snapshotHeight epoch attestations payments)
    (h : rt.checkShared block e = .ok ()) : ∀ a ∈ attestations, a.verify = .ok () := by
  simp only [checkShared, haction, check_bind_eq_ok] at h
  obtain ⟨-, -, hvalidate, -⟩ := h
  simp only [ScheduledEvent.validate, haction, validateAction, check_bind_eq_ok,
    checkAll_eq_ok] at hvalidate
  obtain ⟨-, -, -, hattested, -⟩ := hvalidate
  exact fun a ha => (hattested a ha).1

theorem validateScheduledBlock_iff_rightRewards {rt : ConsensusRuntime} {unixNow : Option ℕ}
    {block : Block} :
    rt.validateScheduledBlock unixNow block = .ok () ↔
      rt.PassesSharedChecks unixNow block ∧ rt.RightRewards block := by
  rw [validateScheduledBlock_iff]
  refine and_congr_right fun hshared => ?_
  constructor
  · rintro ⟨hholders, hservice⟩
    refine ⟨?_, ?_⟩
    · intro e he snapshotHeight policyHash annualRateBps payments haction
      exact HolderRewards.paysInOrder_iff.2 (hholders e he _ _ _ _ haction)
    · intro e he snapshotHeight epoch attestations payments haction
      exact (NodeEmission.calculateServicePayments_iff.1 (hservice e he _ _ _ _ haction)).2
  · intro hright
    refine ⟨?_, ?_⟩
    · intro e he snapshotHeight policyHash annualRateBps payments haction
      exact HolderRewards.paysInOrder_iff.1 (hright.holders e he _ _ _ _ haction)
    · intro e he snapshotHeight epoch attestations payments haction
      have hverified := verified_of_checkShared haction (hshared.events e he)
      exact NodeEmission.calculateServicePayments_iff.2
        ⟨hverified, hright.services e he _ _ _ _ haction⟩

end

end ConsensusRuntime

namespace SameRules

section
variable [Crypto] {rt rt' : ConsensusRuntime} {unixNow : Option ℕ} {block : Block}

/-- When nodes that may differ in gossip and in the order of their maps agree on a block. -/
theorem same_verdict_iff (h : SameRules rt rt') (unixNow : Option ℕ) (block : Block) :
    (rt.validateScheduledBlock unixNow block = .ok () ↔
      rt'.validateScheduledBlock unixNow block = .ok ()) ↔
    (rt.PassesSharedChecks unixNow block → (rt.RightRewards block ↔ rt'.RightRewards block)) := by
  have hshared : rt.PassesSharedChecks unixNow block ↔ rt'.PassesSharedChecks unixNow block :=
    ⟨h.passesSharedChecks, h.symm.passesSharedChecks⟩
  rw [ConsensusRuntime.validateScheduledBlock_iff_rightRewards,
    ConsensusRuntime.validateScheduledBlock_iff_rightRewards, ← hshared]
  exact and_congr_right_iff

omit [Crypto] in
theorem rightRewards (h : SameRules rt rt')
    (hcounts : ∀ e ∈ block.systemEvents, ∀ snapshotHeight epoch attestations payments,
      e.action = .nodeServiceDailyReward snapshotHeight epoch attestations payments →
      ∀ a ∈ attestations, (a.peerId ∈ rt.validatorPeerIds ↔ a.peerId ∈ rt'.validatorPeerIds))
    (hfree : HolderRewards.OrderFree rt.holderRewardPolicy rt.chain.balances
      {foundationFeeAddress})
    (hright : rt.RightRewards block) : rt'.RightRewards block := by
  refine ⟨?_, ?_⟩
  · intro e he snapshotHeight policyHash annualRateBps payments haction
    have hpayments := HolderRewards.paysInOrder_iff.1 (hright.holders e he _ _ _ _ haction)
    rw [← h.holderRewardPolicy, HolderRewards.paysInOrder_iff, hpayments]
    exact ((HolderRewards.payments_orderFree_iff _ _ _).2 hfree _ h.chain.balances.symm).symm
  · intro e he snapshotHeight epoch attestations payments haction
    have hsame : NodeEmission.accepted block.timestamp attestations rt'.validators
        rt.validatorPeerIds = NodeEmission.accepted block.timestamp attestations rt'.validators
          rt'.validatorPeerIds := by
      refine List.filter_congr fun a ha => ?_
      have hpeer := hcounts e he _ _ _ _ haction a ha
      simp only [NodeEmission.counts, hpeer]
    have hservice := hright.services e he _ _ _ _ haction
    rw [h.validators, h.chain.staking, h.chain.balanceOf] at hservice
    unfold NodeEmission.PaysInTurn at hservice ⊢
    rwa [hsame] at hservice

/-- Nodes agree in particular on every block whose service events pay for no node that they
classify differently, if their holders' rewards do not depend on the order of the map. -/
theorem same_verdict_of_alike (h : SameRules rt rt')
    (hcounts : ∀ e ∈ block.systemEvents, ∀ snapshotHeight epoch attestations payments,
      e.action = .nodeServiceDailyReward snapshotHeight epoch attestations payments →
      ∀ a ∈ attestations, (a.peerId ∈ rt.validatorPeerIds ↔ a.peerId ∈ rt'.validatorPeerIds))
    (hfree : HolderRewards.OrderFree rt.holderRewardPolicy rt.chain.balances
      {foundationFeeAddress}) :
    rt.validateScheduledBlock unixNow block = .ok () ↔
      rt'.validateScheduledBlock unixNow block = .ok () := by
  have hfree' : HolderRewards.OrderFree rt'.holderRewardPolicy rt'.chain.balances
      {foundationFeeAddress} := by
    rw [← h.holderRewardPolicy]
    exact hfree.perm h.chain.balances
  rw [ConsensusRuntime.validateScheduledBlock_iff_rightRewards,
    ConsensusRuntime.validateScheduledBlock_iff_rightRewards]
  constructor
  · rintro ⟨hshared, hright⟩
    exact ⟨h.passesSharedChecks hshared, h.rightRewards hcounts hfree hright⟩
  · rintro ⟨hshared, hright⟩
    refine ⟨h.symm.passesSharedChecks hshared, h.symm.rightRewards ?_ hfree' hright⟩
    intro e he snapshotHeight epoch attestations payments haction a ha
    exact (hcounts e he _ _ _ _ haction a ha).symm

end

end SameRules

/-! The node that one has heard of as a validator and the other has not. -/

namespace Quartet

attribute [local instance] verdictCrypto

open NodeEmission ConsensusRuntime

theorem chain_serviceNode {peers peers' : Finset String} {rt rt' : ConsensusRuntime}
    (h : serviceNode peers = .ok rt) (h' : serviceNode peers' = .ok rt') : rt.chain = rt'.chain := by
  obtain ⟨⟨c, hc, hchain⟩, -⟩ := serviceNode_spec h
  obtain ⟨⟨c', hc', hchain'⟩, -⟩ := serviceNode_spec h'
  cases hc.symm.trans hc'
  exact hchain.trans hchain'.symm

theorem sameRules_serviceNode {peers peers' : Finset String} {rt rt' : ConsensusRuntime}
    (h : serviceNode peers = .ok rt) (h' : serviceNode peers' = .ok rt') : SameRules rt rt' := by
  have hcontents : rt.chain.SameContents rt'.chain := chain_serviceNode h h' ▸ .refl _
  obtain ⟨-, -, -, -, hvalidators, -, hevents, hupgrades, hinterest, hholder⟩ := serviceNode_spec h
  obtain ⟨-, -, -, -, hvalidators', -, hevents', hupgrades', hinterest', hholder'⟩ :=
    serviceNode_spec h'
  exact ⟨hcontents, hvalidators.trans hvalidators'.symm, hevents.trans hevents'.symm,
    hinterest.trans hinterest'.symm, hholder.trans hholder'.symm,
    hupgrades.trans hupgrades'.symm⟩

theorem passesSharedChecks_service {peers : Finset String} {rt : ConsensusRuntime}
    (h : serviceNode peers = .ok rt) :
    rt.PassesSharedChecks (some serviceTime) (serviceBlock rt.chain) := by
  obtain ⟨-, hledger, hheight, htip, -, -, hschedule, hupgrades, -, -⟩ := serviceNode_spec h
  have hexecuted : rt.chain.executedEvents = ∅ := by
    rw [hledger]
    rfl
  refine ⟨?_, ⟨serviceTime, rfl, ?_⟩, ?_, ?_, ?_, ?_⟩
  · rw [htip]
    exact Nat.zero_le _
  · have hdrift : serviceTime ≤ MachineWords.saturatingAdd MachineWords.u64Max serviceTime
        maxClockDriftSeconds := by
      decide
    exact hdrift
  · have hversion : UpgradeSchedule.versionAt { upgrades := [⟨"v3", 0, 3⟩] } 2 = 3 := by decide
    rw [hupgrades]
    rintro ⟨hlow, -⟩
    exact absurd hlow (hversion ▸ lt_irrefl 3)
  · intro tx htx
    cases htx
  · rw [EventSchedule.due, hschedule]
    rfl
  · intro e he
    obtain rfl : e = service := List.mem_singleton.1 he
    have hvalidate := validate_service
    simp only [checkShared, service, check_bind_eq_ok, reject_eq_ok, hheight,
      hexecuted] at hvalidate ⊢
    exact ⟨by simp, by simp [serviceBlock, Block.withSystemEvents, Block.sealed, Block.new],
      hvalidate, by simp⟩

theorem rightRewards_service {peers : Finset String} {rt : ConsensusRuntime}
    (h : serviceNode peers = .ok rt) :
    rt.RightRewards (serviceBlock rt.chain) ↔
      calculateServicePayments serviceTime ([1, 2, 3].map attestation) members peers
        serviceSnapshot.staking 5 = .ok [⟨operator, 5⟩] := by
  obtain ⟨-, hledger, -, -, hvalidators, hpeers, -, -, -, -⟩ := serviceNode_spec h
  have hfoundation : rt.chain.balanceOf foundationFeeAddress = 5 := by
    rw [hledger]
    decide
  have hstaking : rt.chain.staking = serviceSnapshot.staking := by
    rw [hledger]
    rfl
  have hverified : ∀ a ∈ [1, 2, 3].map attestation, a.verify = .ok () := by
    intro a ha
    obtain ⟨n, -, rfl⟩ := List.mem_map.1 ha
    exact verify_attestation n
  constructor
  · intro hright
    have hservices := hright.services service (List.mem_singleton.2 rfl) _ _ _ _ rfl
    rw [hvalidators, hpeers, hfoundation, hstaking] at hservices
    exact calculateServicePayments_iff.2 ⟨hverified, hservices⟩
  · intro hpayments
    refine ⟨?_, ?_⟩
    · intro e he
      obtain rfl : e = service := List.mem_singleton.1 he
      rintro _ _ _ _ ⟨⟩
    · intro e he
      obtain rfl : e = service := List.mem_singleton.1 he
      rintro _ _ _ _ ⟨⟩
      rw [hvalidators, hpeers, hfoundation, hstaking]
      exact (calculateServicePayments_iff.1 hpayments).2

/-- Gossip decides: the same block is accepted by one node and refused by the other. -/
theorem verdicts_differ :
    ∃ rt rt', serviceNode ∅ = .ok rt ∧ serviceNode {"p"} = .ok rt' ∧ SameRules rt rt' ∧
      rt.validateScheduledBlock (some serviceTime) (serviceBlock rt.chain) = .ok () ∧
      rt'.validateScheduledBlock (some serviceTime) (serviceBlock rt.chain) ≠ .ok () := by
  obtain ⟨rt, hrt⟩ := serviceNode_ok ∅
  obtain ⟨rt', hrt'⟩ := serviceNode_ok {"p"}
  refine ⟨rt, rt', hrt, hrt', sameRules_serviceNode hrt hrt', ?_, ?_⟩
  · exact validateScheduledBlock_iff_rightRewards.2 ⟨passesSharedChecks_service hrt,
      (rightRewards_service hrt).2 (payments_unheard (.inl rfl))⟩
  · rw [chain_serviceNode hrt hrt']
    intro hvalid
    have hright := (validateScheduledBlock_iff_rightRewards.1 hvalid).2
    have hpayments := payments_heard.symm.trans ((rightRewards_service hrt').1 hright)
    cases hpayments

/-- A peer that nobody attests makes no difference, one that is attested does. -/
theorem same_verdict_iff_unattested :
    ∃ rt rt' rt'', serviceNode ∅ = .ok rt ∧ serviceNode {"q"} = .ok rt' ∧
      serviceNode {"p"} = .ok rt'' ∧
      (rt.validateScheduledBlock (some serviceTime) (serviceBlock rt.chain) = .ok () ↔
        rt'.validateScheduledBlock (some serviceTime) (serviceBlock rt.chain) = .ok ()) ∧
      ¬(rt.validateScheduledBlock (some serviceTime) (serviceBlock rt.chain) = .ok () ↔
        rt''.validateScheduledBlock (some serviceTime) (serviceBlock rt.chain) = .ok ()) := by
  obtain ⟨rt, hrt⟩ := serviceNode_ok ∅
  obtain ⟨rt', hrt'⟩ := serviceNode_ok {"q"}
  obtain ⟨rt'', hrt''⟩ := serviceNode_ok {"p"}
  have hright := (rightRewards_service hrt).2 (payments_unheard (.inl rfl))
  refine ⟨rt, rt', rt'', hrt, hrt', hrt'',
    (SameRules.same_verdict_iff (sameRules_serviceNode hrt hrt') _ _).2 ?_, fun hsame => ?_⟩
  · intro _
    have hright' := (rightRewards_service hrt').2 (payments_unheard (.inr rfl))
    rw [← chain_serviceNode hrt hrt'] at hright'
    exact iff_of_true hright hright'
  · have hright'' := ((SameRules.same_verdict_iff (sameRules_serviceNode hrt hrt'') _ _).1 hsame
      (passesSharedChecks_service hrt)).1 hright
    rw [chain_serviceNode hrt hrt''] at hright''
    have hpayments := payments_heard.symm.trans ((rightRewards_service hrt'').1 hright'')
    cases hpayments

end Quartet

/-! One account under two keys, listed in two orders. -/

namespace Spelling

open HolderRewards ConsensusRuntime

local instance listedCrypto : Crypto := StandIn.crypto StandIn.digest

def listedSnapshot (balances : HashMap Address ℕ) : StateSnapshot :=
  { chainId := 21005, genesisCommitment := "", height := 1, blockHash := (Block.genesisAt 0).hash
    stateHash := "", balances, nextNonces := ∅, executedEvents := ∅, staking := StakingState.empty }

/-- A node that has restored the balances and knows the campaign. -/
def listingNode (balances : HashMap Address ℕ) : Except String ConsensusRuntime := do
  let c ← Blockchain.fromSnapshotWithStaking (listedSnapshot balances)
  let rt ← withSigner c Quartet.members (StandIn.address 1) ⟨1, 1, 1⟩ 0
  pure { rt with holderRewardPolicy := rewarding }

def listedEvent : ScheduledEvent :=
  { id := eventId 2, executeAt := 1
    action := .holderDailyReward 1 rewarding.hash rewarding.annualRateBps
      (calculatePayments rewarding split {foundationFeeAddress}) }

def listedBlock (c : Blockchain) : Block :=
  (Block.new 2 c.tipHash 2 (StandIn.address 1) []).withSystemEvents [listedEvent]

theorem payments_split : calculatePayments rewarding split {foundationFeeAddress} =
    [⟨stored, 136986301370000000⟩, ⟨stored, 273972602740000000⟩] := by decide +kernel

theorem payments_split' : calculatePayments rewarding split' {foundationFeeAddress} =
    [⟨stored, 273972602740000000⟩, ⟨stored, 136986301370000000⟩] := by decide +kernel

theorem validate_listedEvent : listedEvent.validate = .ok () := by
  have hhash : isPolicyHash rewarding.hash = true :=
    Proposer.isPolicyHash_sha256Hex StandIn.length_digest _
  have hid : listedEvent.id = "ieum-holder-reward-v1-0" := by decide
  simp only [ScheduledEvent.validate, check_bind_eq_ok, reject_eq_ok, hid]
  refine ⟨by decide, by simp [listedEvent], ?_⟩
  simp only [listedEvent, validateAction, check_bind_eq_ok, reject_eq_ok, hhash, payments_split]
  exact ⟨by decide, by decide⟩

theorem listingNode_spec {balances : HashMap Address ℕ} {rt : ConsensusRuntime}
    (h : listingNode balances = .ok rt) :
    Blockchain.fromSnapshotWithStaking (listedSnapshot balances) = .ok rt.chain ∧
      rt.validators = Quartet.members ∧ rt.eventSchedule = { events := [] } ∧
      rt.upgradeSchedule = { upgrades := [] } ∧
      rt.validatorInterestPolicy = ValidatorInterest.Policy.default ∧
      rt.holderRewardPolicy = rewarding := by
  simp only [listingNode, withSigner, bind_eq_ok, pure_eq_ok] at h
  obtain ⟨c, hc, _, ⟨b, -, rfl⟩, rfl⟩ := h
  exact ⟨hc, rfl, rfl, rfl, rfl, rfl⟩

theorem listingNode_ok {balances : HashMap Address ℕ}
    (hcap : (listedSnapshot balances).ledger.total ≤ ieumMaxSupply) :
    ∃ rt, listingNode balances = .ok rt := by
  have hsize : (trimHexMarkers (Block.genesisAt 0).hash).utf8ByteSize = 64 := by decide
  obtain ⟨b, hb⟩ := Quartet.members_ok
  simp only [listingNode, Blockchain.fromSnapshotWithStaking, withSigner, bind_eq_ok]
  refine ⟨_, _, ⟨(), reject_eq_ok.2 (not_not.2 hsize), (), validateSupplyCap_eq_ok.2 hcap, rfl⟩, _,
    ⟨b, hb, rfl⟩, rfl⟩

theorem sameRules_listingNode {balances balances' : HashMap Address ℕ}
    (hperm : balances.entries.Perm balances'.entries) {rt rt' : ConsensusRuntime}
    (h : listingNode balances = .ok rt) (h' : listingNode balances' = .ok rt') :
    SameRules rt rt' := by
  obtain ⟨hchain, hvalidators, hevents, hupgrades, hinterest, hholder⟩ := listingNode_spec h
  obtain ⟨hchain', hvalidators', hevents', hupgrades', hinterest', hholder'⟩ := listingNode_spec h'
  have hcontents : rt.chain.SameContents rt'.chain := by
    simp only [Blockchain.fromSnapshotWithStaking, check_bind_eq_ok, pure_eq_ok] at hchain hchain'
    obtain ⟨-, -, hchain⟩ := hchain
    obtain ⟨-, -, hchain'⟩ := hchain'
    rw [← hchain, ← hchain']
    exact ⟨rfl, rfl, rfl, hperm, hperm, .refl _, rfl, rfl⟩
  exact ⟨hcontents, hvalidators.trans hvalidators'.symm, hevents.trans hevents'.symm,
    hinterest.trans hinterest'.symm, hholder.trans hholder'.symm,
    hupgrades.trans hupgrades'.symm⟩

theorem passesSharedChecks_listed {rt : ConsensusRuntime} (h : listingNode split = .ok rt) :
    rt.PassesSharedChecks (some 2) (listedBlock rt.chain) := by
  obtain ⟨hchain, -, hevents, -, -, hholder⟩ := listingNode_spec h
  simp only [Blockchain.fromSnapshotWithStaking, check_bind_eq_ok, pure_eq_ok] at hchain
  obtain ⟨-, -, hchain⟩ := hchain
  have htip : rt.chain.tip.timestamp = 0 := by rw [← hchain]; rfl
  have hheight : rt.chain.tipHeight = 1 := by rw [← hchain]; rfl
  have hid : rt.chain.chainId = 21005 := by rw [← hchain]; rfl
  have hexecuted : rt.chain.executedEvents = ∅ := by rw [← hchain]; rfl
  refine ⟨?_, ⟨2, rfl, ?_⟩, ?_, ?_, ?_, ?_⟩
  · rw [htip]
    exact Nat.zero_le _
  · have hdrift : 2 ≤ MachineWords.saturatingAdd MachineWords.u64Max 2 maxClockDriftSeconds := by
      decide
    exact hdrift
  · rintro ⟨-, ⟨tx, htx, -⟩ | ⟨e, he, hstaking⟩⟩
    · cases htx
    · rw [List.mem_singleton.1 he] at hstaking
      cases hstaking
  · intro tx htx
    cases htx
  · rw [EventSchedule.due, hevents]
    rfl
  · intro e he
    obtain rfl : e = listedEvent := List.mem_singleton.1 he
    have hvalidate := validate_listedEvent
    have htime : (listedBlock rt.chain).timestamp = 2 := rfl
    have hdaily : ValidatorInterest.mainnetDailyRewardActive 21005 2 = true := by decide
    have hcampaign : rewarding.active 2 = true := by decide
    have hagrees : ¬(1 ≠ rt.chain.tipHeight ∨
        ¬ValidatorInterest.mainnetDailyRewardActive rt.chain.chainId 2 ∨
        ¬rt.holderRewardPolicy.active 2 ∨ rewarding.hash ≠ rt.holderRewardPolicy.hash ∨
        rewarding.annualRateBps ≠ rt.holderRewardPolicy.annualRateBps) := by
      rw [hheight, hid, hholder, hdaily, hcampaign]
      simp
    have hfresh : listedEvent.id ∉ rt.chain.executedEvents := by
      rw [hexecuted]
      exact Finset.notMem_empty _
    have haction : listedEvent.action = .holderDailyReward 1 rewarding.hash
        rewarding.annualRateBps (calculatePayments rewarding split {foundationFeeAddress}) := rfl
    simp only [checkShared, haction, check_bind_eq_ok, reject_eq_ok, htime]
    exact ⟨not_not.2 rfl, hagrees, hvalidate, hfresh⟩

theorem rightRewards_listed {balances : HashMap Address ℕ} {rt : ConsensusRuntime} (c : Blockchain)
    (h : listingNode balances = .ok rt) :
    rt.RightRewards (listedBlock c) ↔
      calculatePayments rewarding split {foundationFeeAddress} =
        calculatePayments rewarding balances {foundationFeeAddress} := by
  obtain ⟨hchain, -, -, -, -, hholder⟩ := listingNode_spec h
  have hbalances : rt.chain.balances = balances := by
    rw [(fromSnapshotWithStaking_spec hchain).2]
    rfl
  rw [← paysInOrder_iff, ← hholder, ← hbalances]
  constructor
  · intro hright
    have hholders := hright.holders listedEvent (List.mem_singleton.2 rfl) _ _ _ _ rfl
    rwa [← hholder] at hholders
  · intro hpays
    refine ⟨?_, ?_⟩
    · intro e he
      obtain rfl : e = listedEvent := List.mem_singleton.1 he
      rintro _ _ _ _ ⟨⟩
      rwa [← hholder]
    · intro e he
      obtain rfl : e = listedEvent := List.mem_singleton.1 he
      rintro _ _ _ _ ⟨⟩

/-- The order of the map decides: nodes with the same entries disagree on the rewards. -/
theorem order_decides :
    ∃ rt rt', listingNode split = .ok rt ∧ listingNode split' = .ok rt' ∧ SameRules rt rt' ∧
      rt.validateScheduledBlock (some 2) (listedBlock rt.chain) = .ok () ∧
      rt'.validateScheduledBlock (some 2) (listedBlock rt.chain) ≠ .ok () := by
  obtain ⟨rt, hrt⟩ := @listingNode_ok split (by decide)
  obtain ⟨rt', hrt'⟩ := @listingNode_ok split' (by decide)
  refine ⟨rt, rt', hrt, hrt', sameRules_listingNode (.swap _ _ _) hrt hrt', ?_, fun hvalid => ?_⟩
  · exact validateScheduledBlock_iff_rightRewards.2
      ⟨passesSharedChecks_listed hrt, (rightRewards_listed _ hrt).2 rfl⟩
  · have hright := (validateScheduledBlock_iff_rightRewards.1 hvalid).2
    have hsame := (rightRewards_listed _ hrt').1 hright
    rw [payments_split, payments_split'] at hsame
    exact absurd hsame (by decide)

end Spelling

end IeumChain
