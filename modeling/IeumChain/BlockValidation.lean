import IeumChain.Consensus

/-!
# Checks on a block before voting

The state of a consensus node, and the checks a block has to pass before the node
votes for it or takes it from a peer: its time, the features its height allows, and
its system events. Approved events must be exactly those of the local schedule;
built-in events are recomputed where the node can recompute them.
-/
namespace IeumChain

open ByteCodec Text Outcome MachineWords FiniteMap

structure ProtocolUpgrade where
  name : String
  activationHeight : ℕ
  protocolVersion : ℕ
  deriving Repr, DecidableEq

structure UpgradeSchedule where
  upgrades : List ProtocolUpgrade
  deriving Repr, DecidableEq

def UpgradeSchedule.versionAt (s : UpgradeSchedule) (height : ℕ) : ℕ :=
  (((s.upgrades.filter (·.activationHeight ≤ height)).map (·.protocolVersion)).getLast?).getD 1

structure ConsensusTimeouts where
  propose : ℕ
  prevote : ℕ
  precommit : ℕ
  deriving Repr, DecidableEq

def ConsensusTimeouts.forPhase (t : ConsensusTimeouts) : ConsensusPhase → ℕ
  | .waiting => t.propose
  | .propose => t.propose
  | .prevote => t.prevote
  | .precommit => t.precommit
  | .finalized => t.precommit

/-- What a validator key is asked to sign. -/
inductive SignedPayload
  | vote (height round : ℕ) (voteType : VoteType) (blockHash : String)
  | proposal (height round : ℕ) (blockHash : String) (validRound : Option ℕ)
      (validRoundPrevotes : List ConsensusMessage)
  | roundChange (chainId : ℕ) (genesisCommitment : String) (height round : ℕ)
  deriving Repr, DecidableEq

def SignedPayload.bytes (validatorId : String) : SignedPayload → Bytes
  | vote height round voteType blockHash =>
      ConsensusMessage.bytesToSign height round validatorId voteType blockHash
  | proposal height round blockHash validRound prevotes =>
      SignedProposal.bytesToSign height round validatorId blockHash validRound prevotes
  | roundChange chainId genesisCommitment height round =>
      SignedRoundChange.bytesToSign chainId genesisCommitment height round validatorId

/-- A consensus node. `validator` is the address of its signer. `signed` is a history
variable: it records what the signer was asked for and is never read. -/
structure ConsensusRuntime where
  chain : Blockchain
  consensus : BftConsensus
  validator : String
  pending : Option Block
  validBlock : Option Block
  validRoundPrevotes : List ConsensusMessage
  deadline : ℕ
  timeouts : ConsensusTimeouts
  validators : List Validator
  validatorPeerIds : Finset String
  precommits : List ConsensusMessage
  deferredVotes : List ConsensusMessage
  roundChangeVotes : HashMap (ℕ × ℕ) (List SignedRoundChange)
  finalized : List FinalityCertificate
  pendingFinalized : List FinalityCertificate
  eventSchedule : EventSchedule
  validatorInterestPolicy : ValidatorInterest.Policy
  holderRewardPolicy : HolderRewards.Policy
  upgradeSchedule : UpgradeSchedule
  signed : List SignedPayload

/-- What a call reads from outside: the wall clock, if it is after the epoch, the
monotonic clock, and the signer. -/
structure Env where
  unixNow : Option ℕ
  instant : ℕ
  sign : Bytes → Except String String

/-- Events that only the local schedule may bring in. -/
def isConfigured : ScheduledEventAction → Bool
  | .treasuryDistribution _ => true
  | .periodicProducerReward _ _ => true
  | .incidentCompensation _ _ _ => true
  | .protocolCheckpoint _ => true
  | _ => false

/-- Actions that need protocol version three. -/
def needsStaking : ScheduledEventAction → Bool
  | .doubleVoteSlash _ _ => true
  | .delegationDailyReward _ _ _ _ => true
  | .nodeServiceDailyReward _ _ _ _ => true
  | _ => false

def bootstrapRewardId : String := "ieum-bootstrap-validator-reward-v1"
def nodeMilestoneRewardId : String := "ieum-node-100-reward-v1"

namespace ConsensusRuntime

def isValidator (rt : ConsensusRuntime) (id : String) : Bool := id ∈ rt.validators.map (·.id)

section
variable [Crypto]

/-- The checks on a built-in event that depend on the node's own state. -/
def checkBuiltInEvent (rt : ConsensusRuntime) (block : Block) (e : ScheduledEvent) :
    Except String Unit :=
  match e.action with
  | .bootstrapValidatorReward registrations _ => do
      reject (e.id ≠ bootstrapRewardId) "내장 최초 보상 이벤트 ID가 올바르지 않습니다."
      reject ((registrations.map (·.validatorId)).insertionSort (· ≤ ·) ≠
          (rt.validators.map (·.id)).insertionSort (· ≤ ·))
        "최초 검증자 보상 대상이 현재 활성 검증자 집합과 다릅니다."
  | .nodeMilestoneReward _ _ =>
      reject (e.id ≠ nodeMilestoneRewardId) "내장 최초 보상 이벤트 ID가 올바르지 않습니다."
  | .validatorDailyInterest snapshotHeight policyHash annualRateBps payments => do
      reject (e.id ≠ ValidatorInterest.eventId block.timestamp)
        "검증자 일일 이자 이벤트 ID가 올바르지 않습니다."
      reject (snapshotHeight ≠ rt.chain.tipHeight ∨
          ¬ValidatorInterest.mainnetDailyRewardActive rt.chain.chainId block.timestamp ∨
          policyHash ≠ rt.validatorInterestPolicy.hash ∨
          annualRateBps ≠ rt.validatorInterestPolicy.annualRateBps ∨
          payments ≠ ValidatorInterest.calculatePayments rt.validatorInterestPolicy
            rt.validators rt.chain.balances)
        "검증자 일일 이자가 로컬 정책과 snapshot 계산 결과에 일치하지 않습니다."
  | .holderDailyReward snapshotHeight policyHash annualRateBps payments => do
      reject (e.id ≠ HolderRewards.eventId block.timestamp)
        "보유 응원 보상 이벤트 ID가 올바르지 않습니다."
      reject (snapshotHeight ≠ rt.chain.tipHeight ∨
          ¬ValidatorInterest.mainnetDailyRewardActive rt.chain.chainId block.timestamp ∨
          ¬rt.holderRewardPolicy.active block.timestamp ∨
          policyHash ≠ rt.holderRewardPolicy.hash ∨
          annualRateBps ≠ rt.holderRewardPolicy.annualRateBps ∨
          payments ≠ HolderRewards.calculatePayments rt.holderRewardPolicy rt.chain.balances
            {foundationFeeAddress})
        "보유 응원 보상이 로컬 정책과 snapshot 계산 결과에 일치하지 않습니다."
  | .doubleVoteSlash evidence penaltyBps => do
      reject (e.id ≠ slashEventId evidence) "이중투표 페널티 이벤트 ID가 올바르지 않습니다."
      reject (penaltyBps ≠ Staking.doubleVoteSlashBps ∨
          ¬rt.isValidator evidence.first.validatorId)
        "이중투표 페널티 대상 또는 비율이 올바르지 않습니다."
      evidence.verify
  | .delegationDailyReward snapshotHeight policyHash annualRateBps payments => do
      reject (e.id ≠ Staking.rewardEventId block.timestamp)
        "위임 보상 이벤트 ID가 올바르지 않습니다."
      reject (snapshotHeight ≠ rt.chain.tipHeight ∨
          ¬ValidatorInterest.mainnetDailyRewardActive rt.chain.chainId block.timestamp ∨
          policyHash ≠ rt.validatorInterestPolicy.hash ∨
          annualRateBps ≠ rt.validatorInterestPolicy.annualRateBps ∨
          payments ≠ Staking.calculateRewards rt.chain.staking annualRateBps
            rt.validatorInterestPolicy.maximumDailyTotal)
        "위임 보상이 로컬 정책과 snapshot 계산 결과에 일치하지 않습니다."
  | .nodeServiceDailyReward snapshotHeight epoch attestations payments => do
      reject (e.id ≠ NodeEmission.serviceEventId epoch)
        "공개 노드 일일 보상 이벤트 ID가 올바르지 않습니다."
      let expected ← NodeEmission.calculateServicePayments block.timestamp attestations
        rt.validators rt.validatorPeerIds rt.chain.staking
        (rt.chain.balanceOf foundationFeeAddress)
      reject (snapshotHeight ≠ rt.chain.tipHeight ∨
          epoch ≠ block.timestamp / NodeEmission.rewardEpochSeconds ∨ payments ≠ expected)
        "공개 노드 일일 보상이 담보·서비스 증명 계산과 일치하지 않습니다."
  | _ => .ok ()

/-- Scheduled events were compared with the schedule as a whole and are not looked at here. -/
def checkEvent (rt : ConsensusRuntime) (block : Block) (e : ScheduledEvent) :
    Except String Unit :=
  if isConfigured e.action then .ok ()
  else do
    rt.checkBuiltInEvent block e
    e.validate
    reject (e.id ∈ rt.chain.executedEvents) ("이벤트 " ++ e.id ++ "는 이미 실행됐습니다.")

def validateScheduledBlock (rt : ConsensusRuntime) (unixNow : Option ℕ) (block : Block) :
    Except String Unit := do
  reject (block.timestamp < rt.chain.tip.timestamp) "블록 시각은 이전 블록보다 빠를 수 없습니다."
  let now ← okOr unixNow "시스템 시각이 Unix epoch보다 이전입니다."
  reject (saturatingAdd u64Max now maxClockDriftSeconds < block.timestamp)
    "블록 시각이 허용된 미래 오차를 넘었습니다."
  reject (rt.upgradeSchedule.versionAt block.height < 3 ∧
      ((∃ tx ∈ block.transactions, tx.action.isTransfer = false) ∨
        ∃ e ∈ block.systemEvents, needsStaking e.action = true))
    "위임·페널티 기능은 프로토콜 v3 활성화 높이 이전에 사용할 수 없습니다."
  checkAll (fun tx : Transaction =>
    match tx.action with
    | .delegate validator =>
        reject (¬rt.isValidator validator) "현재 활성 이음지기에게만 새 위임을 할 수 있습니다."
    | _ => .ok ()) block.transactions
  rt.eventSchedule.validateBlockEvents block.timestamp
    (block.systemEvents.filter fun e => isConfigured e.action) rt.chain.executedEvents
  checkAll (rt.checkEvent block) block.systemEvents

/-- What it means that a block passes. -/
theorem validateScheduledBlock_eq_ok {rt : ConsensusRuntime} {unixNow : Option ℕ} {block : Block} :
    rt.validateScheduledBlock unixNow block = .ok () ↔
      rt.chain.tip.timestamp ≤ block.timestamp ∧
        ∃ now, unixNow = some now ∧
          block.timestamp ≤ saturatingAdd u64Max now maxClockDriftSeconds ∧
          ¬(rt.upgradeSchedule.versionAt block.height < 3 ∧
            ((∃ tx ∈ block.transactions, tx.action.isTransfer = false) ∨
              ∃ e ∈ block.systemEvents, needsStaking e.action = true)) ∧
          (∀ tx ∈ block.transactions, ∀ validator, tx.action = .delegate validator →
            rt.isValidator validator = true) ∧
          (block.systemEvents.filter fun e => isConfigured e.action) =
            rt.eventSchedule.due block.timestamp rt.chain.executedEvents ∧
          ∀ e ∈ block.systemEvents, rt.checkEvent block e = .ok () := by
  have hdelegate : ∀ tx : Transaction, (match tx.action with
      | .delegate validator =>
          reject (¬rt.isValidator validator) "현재 활성 이음지기에게만 새 위임을 할 수 있습니다."
      | _ => .ok ()) = .ok () ↔
        ∀ validator, tx.action = .delegate validator → rt.isValidator validator = true := by
    intro tx
    cases tx.action <;> simp
  simp only [validateScheduledBlock, bind_eq_ok, exists_const, reject_eq_ok, okOr_eq_ok,
    checkAll_eq_ok, EventSchedule.validateBlockEvents, not_lt, not_not, hdelegate, ne_eq]

end

end ConsensusRuntime

end IeumChain
