import IeumChain.Outflow

/-!
# The checks that nodes share

The checks before a vote read the chain, the validators, the schedule and the policies,
which nodes share. Two of the rewards also depend on what nodes do not share: who is paid for
running a public node depends on the peer identifiers of the validators, which every node
collects from gossip, and the rewards of holders are listed in the order in which the map of
the balances has its entries. All other checks have one outcome on all nodes.
-/
namespace IeumChain

open ByteCodec Text Outcome MachineWords FiniteMap

/-- The same chain. Maps are the same if they have the same entries, in whatever order. -/
structure Blockchain.SameContents (c c' : Blockchain) : Prop where
  chainId : c.chainId = c'.chainId
  genesisCommitment : c.genesisCommitment = c'.genesisCommitment
  blocks : c.blocks = c'.blocks
  initialBalances : c.initialBalances.entries.Perm c'.initialBalances.entries
  balances : c.balances.entries.Perm c'.balances.entries
  nextNonces : c.nextNonces.entries.Perm c'.nextNonces.entries
  executedEvents : c.executedEvents = c'.executedEvents
  staking : c.staking = c'.staking

/-- Two nodes that may have heard different gossip and may list their maps differently. -/
structure SameRules (rt rt' : ConsensusRuntime) : Prop where
  chain : rt.chain.SameContents rt'.chain
  validators : rt.validators = rt'.validators
  eventSchedule : rt.eventSchedule = rt'.eventSchedule
  validatorInterestPolicy : rt.validatorInterestPolicy = rt'.validatorInterestPolicy
  holderRewardPolicy : rt.holderRewardPolicy = rt'.holderRewardPolicy
  upgradeSchedule : rt.upgradeSchedule = rt'.upgradeSchedule

namespace ConsensusRuntime

section
variable [Crypto]

/-- What is checked of an event besides the payments to holders and for public nodes. -/
def checkShared (rt : ConsensusRuntime) (block : Block) (e : ScheduledEvent) :
    Except String Unit :=
  match e.action with
  | .holderDailyReward snapshotHeight policyHash annualRateBps _ => do
      reject (e.id ≠ HolderRewards.eventId block.timestamp)
        "보유 응원 보상 이벤트 ID가 올바르지 않습니다."
      reject (snapshotHeight ≠ rt.chain.tipHeight ∨
          ¬ValidatorInterest.mainnetDailyRewardActive rt.chain.chainId block.timestamp ∨
          ¬rt.holderRewardPolicy.active block.timestamp ∨
          policyHash ≠ rt.holderRewardPolicy.hash ∨
          annualRateBps ≠ rt.holderRewardPolicy.annualRateBps)
        "보유 응원 보상이 로컬 정책과 snapshot 계산 결과에 일치하지 않습니다."
      e.validate
      reject (e.id ∈ rt.chain.executedEvents) ("이벤트 " ++ e.id ++ "는 이미 실행됐습니다.")
  | .nodeServiceDailyReward snapshotHeight epoch _ _ => do
      reject (e.id ≠ NodeEmission.serviceEventId epoch)
        "공개 노드 일일 보상 이벤트 ID가 올바르지 않습니다."
      reject (snapshotHeight ≠ rt.chain.tipHeight ∨
          epoch ≠ block.timestamp / NodeEmission.rewardEpochSeconds)
        "공개 노드 일일 보상이 담보·서비스 증명 계산과 일치하지 않습니다."
      e.validate
      reject (e.id ∈ rt.chain.executedEvents) ("이벤트 " ++ e.id ++ "는 이미 실행됐습니다.")
  | _ => rt.checkEvent block e

/-- Every check that has one outcome on all nodes. -/
structure PassesSharedChecks (rt : ConsensusRuntime) (unixNow : Option ℕ) (block : Block) :
    Prop where
  notEarlier : rt.chain.tip.timestamp ≤ block.timestamp
  notFuture : ∃ now, unixNow = some now ∧
    block.timestamp ≤ saturatingAdd u64Max now maxClockDriftSeconds
  version : ¬(rt.upgradeSchedule.versionAt block.height < 3 ∧
    ((∃ tx ∈ block.transactions, tx.action.isTransfer = false) ∨
      ∃ e ∈ block.systemEvents, needsStaking e.action = true))
  targets : ∀ tx ∈ block.transactions, ∀ validator, tx.action = .delegate validator →
    rt.isValidator validator = true
  scheduled : (block.systemEvents.filter fun e => isConfigured e.action) =
    rt.eventSchedule.due block.timestamp rt.chain.executedEvents
  events : ∀ e ∈ block.systemEvents, rt.checkShared block e = .ok ()

/-- The payments to holders are those that this node computes. -/
def ListsHolderPayments (rt : ConsensusRuntime) (block : Block) : Prop :=
  ∀ e ∈ block.systemEvents, ∀ snapshotHeight policyHash annualRateBps payments,
    e.action = .holderDailyReward snapshotHeight policyHash annualRateBps payments →
    payments = HolderRewards.calculatePayments rt.holderRewardPolicy rt.chain.balances
      {foundationFeeAddress}

/-- The payments for public nodes are those that this node computes. -/
def ListsServicePayments (rt : ConsensusRuntime) (block : Block) : Prop :=
  ∀ e ∈ block.systemEvents, ∀ snapshotHeight epoch attestations payments,
    e.action = .nodeServiceDailyReward snapshotHeight epoch attestations payments →
    NodeEmission.calculateServicePayments block.timestamp attestations rt.validators
      rt.validatorPeerIds rt.chain.staking (rt.chain.balanceOf foundationFeeAddress) =
        .ok payments

theorem checkEvent_eq_ok {rt : ConsensusRuntime} {block : Block} {e : ScheduledEvent} :
    rt.checkEvent block e = .ok () ↔
      rt.checkShared block e = .ok () ∧
        (∀ snapshotHeight policyHash annualRateBps payments,
          e.action = .holderDailyReward snapshotHeight policyHash annualRateBps payments →
          payments = HolderRewards.calculatePayments rt.holderRewardPolicy rt.chain.balances
            {foundationFeeAddress}) ∧
        ∀ snapshotHeight epoch attestations payments,
          e.action = .nodeServiceDailyReward snapshotHeight epoch attestations payments →
          NodeEmission.calculateServicePayments block.timestamp attestations rt.validators
            rt.validatorPeerIds rt.chain.staking (rt.chain.balanceOf foundationFeeAddress) =
              .ok payments := by
  unfold checkShared
  split
  case h_1 snapshotHeight policyHash annualRateBps payments haction =>
    have hbuiltIn : isConfigured e.action = false := by
      rw [haction]
      rfl
    rw [checkEvent, if_neg (by simp [hbuiltIn])]
    simp only [checkBuiltInEvent, haction, bind_eq_ok, exists_const, reject_eq_ok, not_or, not_not]
    constructor
    · rintro ⟨⟨hid, hheight, hdaily, hcampaign, hhash, hrate, hlisted⟩, hvalid, hfresh⟩
      refine ⟨⟨hid, ⟨hheight, hdaily, hcampaign, hhash, hrate⟩, hvalid, hfresh⟩, ?_, ?_⟩
      · rintro _ _ _ _ ⟨⟩
        exact hlisted
      · rintro _ _ _ _ ⟨⟩
    · rintro ⟨⟨hid, ⟨hheight, hdaily, hcampaign, hhash, hrate⟩, hvalid, hfresh⟩, hlisted, -⟩
      exact ⟨⟨hid, hheight, hdaily, hcampaign, hhash, hrate, hlisted _ _ _ _ rfl⟩, hvalid, hfresh⟩
  case h_2 snapshotHeight epoch attestations payments haction =>
    have hbuiltIn : isConfigured e.action = false := by
      rw [haction]
      rfl
    rw [checkEvent, if_neg (by simp [hbuiltIn])]
    simp only [checkBuiltInEvent, haction, bind_eq_ok, exists_const, reject_eq_ok, not_or, not_not]
    constructor
    · rintro ⟨⟨hid, expected, hexpected, hheight, hepoch, hlisted⟩, hvalid, hfresh⟩
      subst hlisted
      refine ⟨⟨hid, ⟨hheight, hepoch⟩, hvalid, hfresh⟩, ?_, ?_⟩
      · rintro _ _ _ _ ⟨⟩
      · rintro _ _ _ _ ⟨⟩
        exact hexpected
    · rintro ⟨⟨hid, ⟨hheight, hepoch⟩, hvalid, hfresh⟩, -, hlisted⟩
      exact ⟨⟨hid, payments, hlisted _ _ _ _ rfl, hheight, hepoch, rfl⟩, hvalid, hfresh⟩
  case h_3 hholder hservice =>
    constructor
    · intro h
      refine ⟨h, ?_, ?_⟩
      · intro snapshotHeight policyHash annualRateBps payments haction
        exact absurd haction (hholder snapshotHeight policyHash annualRateBps payments)
      · intro snapshotHeight epoch attestations payments haction
        exact absurd haction (hservice snapshotHeight epoch attestations payments)
    · exact And.left

/-- A block passes exactly if it passes the shared checks and lists the payments that this node
computes. -/
theorem validateScheduledBlock_iff {rt : ConsensusRuntime} {unixNow : Option ℕ} {block : Block} :
    rt.validateScheduledBlock unixNow block = .ok () ↔
      rt.PassesSharedChecks unixNow block ∧ rt.ListsHolderPayments block ∧
        rt.ListsServicePayments block := by
  rw [validateScheduledBlock_eq_ok]
  constructor
  · intro ⟨hearlier, now, hnow, hfuture, hversion, htargets, hscheduled, hevents⟩
    refine ⟨⟨hearlier, ⟨now, hnow, hfuture⟩, hversion, htargets, hscheduled, ?_⟩, ?_, ?_⟩
    · intro e he
      exact (checkEvent_eq_ok.1 (hevents e he)).1
    · intro e he
      exact (checkEvent_eq_ok.1 (hevents e he)).2.1
    · intro e he
      exact (checkEvent_eq_ok.1 (hevents e he)).2.2
  · intro ⟨⟨hearlier, ⟨now, hnow, hfuture⟩, hversion, htargets, hscheduled, hevents⟩, hholders,
      hservice⟩
    refine ⟨hearlier, now, hnow, hfuture, hversion, htargets, hscheduled, ?_⟩
    intro e he
    exact checkEvent_eq_ok.2 ⟨hevents e he, hholders e he, hservice e he⟩

end

end ConsensusRuntime

namespace Blockchain.SameContents

variable {c c' : Blockchain}

theorem refl (c : Blockchain) : c.SameContents c := ⟨rfl, rfl, rfl, .refl _, .refl _, .refl _, rfl, rfl⟩

theorem symm (h : c.SameContents c') : c'.SameContents c :=
  ⟨h.chainId.symm, h.genesisCommitment.symm, h.blocks.symm, h.initialBalances.symm,
    h.balances.symm, h.nextNonces.symm, h.executedEvents.symm, h.staking.symm⟩

theorem tip (h : c.SameContents c') : c.tip = c'.tip := by
  simp only [Blockchain.tip, h.blocks]

theorem tipHeight (h : c.SameContents c') : c.tipHeight = c'.tipHeight := by
  rw [Blockchain.tipHeight, h.tip, Blockchain.tipHeight]

theorem balanceOf (h : c.SameContents c') (address : Address) :
    c.balanceOf address = c'.balanceOf address := getD_perm h.balances address 0

end Blockchain.SameContents

/-- Interest is looked up validator by validator, so the order of the balances does not matter. -/
theorem ValidatorInterest.calculatePayments_perm (p : Policy) (validators : List Validator)
    {balances balances' : HashMap Address ℕ} (h : balances.entries.Perm balances'.entries) :
    calculatePayments p validators balances = calculatePayments p validators balances' := by
  simp only [calculatePayments_eq, shares, getD_perm h]

namespace SameRules

variable {rt rt' : ConsensusRuntime}

theorem symm (h : SameRules rt rt') : SameRules rt' rt :=
  ⟨h.chain.symm, h.validators.symm, h.eventSchedule.symm, h.validatorInterestPolicy.symm,
    h.holderRewardPolicy.symm, h.upgradeSchedule.symm⟩

section
variable [Crypto]

theorem checkShared (h : SameRules rt rt') (block : Block) (e : ScheduledEvent) :
    rt.checkShared block e = rt'.checkShared block e := by
  unfold ConsensusRuntime.checkShared
  split
  case h_1 =>
    rw [h.chain.tipHeight, h.chain.chainId, h.chain.executedEvents, h.holderRewardPolicy]
  case h_2 => rw [h.chain.tipHeight, h.chain.executedEvents]
  case h_3 hholder hservice =>
    unfold ConsensusRuntime.checkEvent ConsensusRuntime.checkBuiltInEvent
    simp only [ConsensusRuntime.isValidator, h.chain.tipHeight, h.chain.chainId,
      h.chain.executedEvents, h.chain.staking, h.validators, h.validatorInterestPolicy,
      ValidatorInterest.calculatePayments_perm _ _ h.chain.balances]
    cases haction : e.action with
    | holderDailyReward snapshotHeight policyHash annualRateBps payments =>
        exact absurd haction (hholder snapshotHeight policyHash annualRateBps payments)
    | nodeServiceDailyReward snapshotHeight epoch attestations payments =>
        exact absurd haction (hservice snapshotHeight epoch attestations payments)
    | _ => rfl

theorem passesSharedChecks (h : SameRules rt rt') {unixNow : Option ℕ} {block : Block}
    (hpasses : rt.PassesSharedChecks unixNow block) : rt'.PassesSharedChecks unixNow block := by
  refine ⟨?_, hpasses.notFuture, h.upgradeSchedule ▸ hpasses.version, ?_, ?_, ?_⟩
  · rw [← h.chain.tip]
    exact hpasses.notEarlier
  · simpa only [ConsensusRuntime.isValidator, h.validators] using hpasses.targets
  · simpa only [h.eventSchedule, h.chain.executedEvents] using hpasses.scheduled
  · intro e he
    rw [← h.checkShared]
    exact hpasses.events e he

end

end SameRules

/-! One public node, attested by three of four validators. A node that has heard a validator
register with the same peer identifier pays nothing for it. -/

namespace Quartet

local instance verdictCrypto : Crypto := StandIn.crypto StandIn.digest

def operator : Address := "0x1111111111111111111111111111111111111111"

def serviceTime : ℕ := ieumMainnetGenesisTime

def serviceSnapshot : StateSnapshot :=
  { chainId := 21005, genesisCommitment := "", height := 1, blockHash := (Block.genesisAt 0).hash
    stateHash := "", balances := collect [(foundationFeeAddress, 5)], nextNonces := ∅
    executedEvents := ∅
    staking :=
      { StakingState.empty with
        delegations := [{ delegator := operator, validator := StandIn.address 1
                          amount := NodeEmission.serviceBond, delegatedAt := 0 }] } }

def attestation (n : ℕ) : NodeServiceAttestation :=
  let a : NodeServiceAttestation :=
    { peerId := "p", rewardAddress := operator
      epoch := serviceTime / NodeEmission.rewardEpochSeconds, observedAt := serviceTime
      uptimeBps := 10000, networkGroup := "g", validatorId := StandIn.address n
      signatureHex := "" }
  { a with signatureHex := StandIn.sign n a.bytesToSign }

def service : ScheduledEvent :=
  { id := NodeEmission.serviceEventId (serviceTime / NodeEmission.rewardEpochSeconds)
    executeAt := 1
    action := .nodeServiceDailyReward 1 (serviceTime / NodeEmission.rewardEpochSeconds)
      ([1, 2, 3].map attestation) [⟨operator, 5⟩] }

def serviceBlock (c : Blockchain) : Block :=
  (Block.new 2 c.tipHash serviceTime (StandIn.address 1) []).withSystemEvents [service]

/-- A node on the restored chain, with staking switched on and the peers it has heard of. -/
def serviceNode (peers : Finset String) : Except String ConsensusRuntime := do
  let c ← Blockchain.fromSnapshotWithStaking serviceSnapshot
  let rt ← ConsensusRuntime.withSigner c members (StandIn.address 1) ⟨1, 1, 1⟩ 0
  pure { rt with upgradeSchedule := { upgrades := [⟨"v3", 0, 3⟩] }, validatorPeerIds := peers }

theorem verify_attestation (n : ℕ) : (attestation n).verify = .ok () := by
  rw [NodeServiceAttestation.verify, check_bind_eq_ok, reject_eq_ok]
  exact ⟨by simp [attestation]; decide, StandIn.verifySignature_sign _ n _⟩

theorem validate_service : service.validate = .ok () := by
  have hverify := verify_attestation
  simp only [ScheduledEvent.validate, check_bind_eq_ok, reject_eq_ok]
  refine ⟨by decide, by simp [service], ?_⟩
  simp only [service, validateAction, check_bind_eq_ok, reject_eq_ok, checkAll_eq_ok]
  refine ⟨by simp; decide, ?_, by decide⟩
  intro a ha
  obtain ⟨n, -, rfl⟩ := List.mem_map.1 ha
  exact ⟨hverify n, by simp [attestation]⟩

theorem payments_unheard {peers : Finset String} (h : peers = ∅ ∨ peers = {"q"}) :
    NodeEmission.calculateServicePayments serviceTime ([1, 2, 3].map attestation) members peers
      serviceSnapshot.staking 5 = .ok [⟨operator, 5⟩] := by
  have hnodes : NodeEmission.eligibleNodes serviceTime ([1, 2, 3].map attestation) members peers
      serviceSnapshot.staking = [⟨"p", operator, "g"⟩] := by
    obtain rfl | rfl := h <;> decide
  have hpool : NodeEmission.servicePool serviceTime 5 = 5 := by decide
  have hverified : checkAll NodeServiceAttestation.verify ([1, 2, 3].map attestation) = .ok () := by
    simp [verify_attestation]
  rw [NodeEmission.calculateServicePayments, hverified, hnodes, hpool]
  rfl

theorem payments_heard :
    NodeEmission.calculateServicePayments serviceTime ([1, 2, 3].map attestation) members {"p"}
      serviceSnapshot.staking 5 = .ok [] := by
  have hnodes : NodeEmission.eligibleNodes serviceTime ([1, 2, 3].map attestation) members {"p"}
      serviceSnapshot.staking = [] := by decide
  have hverified : checkAll NodeServiceAttestation.verify ([1, 2, 3].map attestation) = .ok () := by
    simp [verify_attestation]
  rw [NodeEmission.calculateServicePayments, hverified, hnodes]
  rfl

theorem serviceNode_ok (peers : Finset String) : ∃ rt, serviceNode peers = .ok rt := by
  obtain ⟨c, hc⟩ := isOk_iff.1
    (by decide : Except.isOk (Blockchain.fromSnapshotWithStaking serviceSnapshot) = true)
  obtain ⟨b, hb⟩ := members_ok
  simp only [serviceNode, ConsensusRuntime.withSigner, bind_eq_ok]
  exact ⟨_, c, hc, _, ⟨b, hb, rfl⟩, rfl⟩

theorem serviceNode_spec {peers : Finset String} {rt : ConsensusRuntime}
    (h : serviceNode peers = .ok rt) :
    (∃ c, Blockchain.fromSnapshotWithStaking serviceSnapshot = .ok c ∧ rt.chain = c) ∧
      rt.chain.toLedger = serviceSnapshot.ledger ∧ rt.chain.tipHeight = 1 ∧
      rt.chain.tip.timestamp = 0 ∧ rt.validators = members ∧ rt.validatorPeerIds = peers ∧
      rt.eventSchedule = { events := [] } ∧
      rt.upgradeSchedule = { upgrades := [⟨"v3", 0, 3⟩] } ∧
      rt.validatorInterestPolicy = ValidatorInterest.Policy.default ∧
      rt.holderRewardPolicy = HolderRewards.Policy.default := by
  simp only [serviceNode, ConsensusRuntime.withSigner, bind_eq_ok, pure_eq_ok] at h
  obtain ⟨c, hc, _, ⟨b, -, rfl⟩, rfl⟩ := h
  have hrestored := hc
  simp only [Blockchain.fromSnapshotWithStaking, check_bind_eq_ok, pure_eq_ok] at hrestored
  obtain ⟨-, -, hrestored⟩ := hrestored
  refine ⟨⟨c, hc, rfl⟩, ?_⟩
  subst hrestored
  exact ⟨rfl, rfl, rfl, rfl, rfl, rfl, rfl, rfl, rfl⟩

end Quartet

end IeumChain
