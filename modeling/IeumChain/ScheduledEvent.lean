import IeumChain.Rewards

/-!
# System events

What makes an event well formed on its own, before any ledger is looked at, and the
local schedule of approved events.
-/
namespace IeumChain

open ByteCodec Text Outcome MachineWords

def maxClockDriftSeconds : ℕ := 30

/-! ## Votes and evidence -/

def VoteType.tag : VoteType → UInt8
  | .prevote => 1
  | .precommit => 2

/-- The bytes a validator signs for a vote; the leading text separates them from all
other signed data. -/
def ConsensusMessage.bytesToSign (height round : ℕ) (validatorId : String) (voteType : VoteType)
    (blockHash : String) : Bytes :=
  utf8 "IEUM-CONSENSUS-V1" ++ beBytes 8 height ++ beBytes 4 round ++ [voteType.tag] ++
    pushText validatorId ++ pushText blockHash

def ConsensusMessage.unsignedBytes (m : ConsensusMessage) : Bytes :=
  bytesToSign m.height m.round m.validatorId m.voteType m.blockHash

/-- Addresses with or without the `0x` marker. -/
def validateAddress (address : Address) : Except String Unit :=
  let value := (stripStart address "0x").getD address
  reject (value.utf8ByteSize ≠ 40 ∨ ¬allChars isHexDigit value) ("잘못된 IEUM 주소: " ++ address)

def validateRewardAddress (address : Address) : Except String Unit :=
  reject (¬isAccountAddress address ∧ ¬isPublicKeyHex address)
    ("잘못된 노드 보상 주소: " ++ address)

def isEventIdChar (c : Char) : Bool := isAlphanumeric c ∨ c = '-' ∨ c = '_' ∨ c = '.'

section
variable [Crypto]

def ConsensusMessage.verify (m : ConsensusMessage) : Except String Unit :=
  verifySignature m.validatorId m.unsignedBytes m.signature

namespace DoubleVoteEvidence

def verify (e : DoubleVoteEvidence) : Except String Unit := do
  e.first.verify
  e.second.verify
  reject (e.first.height ≠ e.second.height ∨ e.first.round ≠ e.second.round ∨
      e.first.voteType ≠ e.second.voteType ∨ e.first.validatorId ≠ e.second.validatorId ∨
      e.first.blockHash = e.second.blockHash)
    "유효한 이중투표 증거가 아닙니다."

/-- The offence: who, where and in which step. -/
def id (e : DoubleVoteEvidence) : String :=
  e.first.validatorId ++ ":" ++ decimal e.first.height ++ ":" ++ decimal e.first.round ++ ":" ++
    e.first.voteType.name

end DoubleVoteEvidence

/-- Every payment goes to an admissible address and is positive. -/
def validatePayments (check : Address → Except String Unit) (zeroMessage : String)
    (payments : List EventPayment) : Except String Unit :=
  checkAll (fun p => do
    check p.address
    reject (p.amount = 0) zeroMessage) payments

def isPolicyHash (hash : String) : Bool := hash.utf8ByteSize = 64 ∧ allChars isHexDigit hash

/-- Distinct nodes and addresses; each registration signed by its validator. -/
def validateBootstrapRegistrations :
    List String → List String → List ValidatorRegistration → Except String Unit
  | _, _, [] => .ok ()
  | peers, addresses, r :: rest => do
      reject (r.peerId ∈ peers ∨ r.validatorId ∈ addresses)
        "최초 검증자 보상 증명에 중복 노드나 주소가 있습니다."
      verifySignature r.validatorId
        (ValidatorRegistration.bytesToSign r.validatorId r.peerId) r.signatureHex
      validateBootstrapRegistrations (r.peerId :: peers) (r.validatorId :: addresses) rest

def validateMilestoneRegistrations :
    List String → List String → List NodeRewardRegistration → Except String Unit
  | _, _, [] => .ok ()
  | peers, addresses, r :: rest => do
      validateRewardAddress r.rewardAddress
      r.verifyNodeIdentity
      reject (r.peerId ∈ peers ∨ r.rewardAddress ∈ addresses)
        "노드 마일스톤 보상 증명에 중복 노드나 주소가 있습니다."
      verifySignature r.signer
        (NodeRewardRegistration.bytesToSign r.rewardAddress r.peerId) r.signatureHex
      validateMilestoneRegistrations (r.peerId :: peers) (r.rewardAddress :: addresses) rest

def validateAction (id : String) : ScheduledEventAction → Except String Unit
  | .treasuryDistribution recipients => do
      reject (recipients = [] ∨ 10000 < recipients.length)
        "재단 배분 대상은 1~10,000개여야 합니다."
      validatePayments validateAddress "재단 배분액은 0보다 커야 합니다." recipients
  | .periodicProducerReward producer amount => do
      validateAddress producer
      reject (amount = 0) "주간 생성자 보상액은 0보다 커야 합니다."
  | .incidentCompensation incidentId victim amount => do
      reject (isBlank incidentId) "사고 ID가 비어 있습니다."
      validateAddress victim
      reject (amount = 0) "사고 보상액은 0보다 커야 합니다."
  | .protocolCheckpoint protocolVersion =>
      reject (protocolVersion = 0) "프로토콜 버전은 1 이상이어야 합니다."
  | .bootstrapValidatorReward registrations amount => do
      reject (registrations.length ≠ 4 ∨ amount = 0)
        "최초 검증자 보상은 정확히 4명이고 금액은 0보다 커야 합니다."
      validateBootstrapRegistrations [] [] registrations
  | .nodeMilestoneReward registrations amount => do
      reject (registrations.length ≠ 100 ∨ amount = 0)
        "노드 마일스톤 보상은 서로 다른 노드 정확히 100개가 필요합니다."
      validateMilestoneRegistrations [] [] registrations
  | .validatorDailyInterest _ policyHash annualRateBps payments => do
      reject (¬isPolicyHash policyHash) "검증자 이자 정책 hash가 올바르지 않습니다."
      reject (5000 < annualRateBps ∨ payments = [])
        "검증자 이자율 또는 지급 대상이 올바르지 않습니다."
      validatePayments validateRewardAddress "검증자 이자 지급액은 0보다 커야 합니다." payments
  | .holderDailyReward _ policyHash annualRateBps payments => do
      reject (¬isPolicyHash policyHash ∨ 5000 < annualRateBps ∨ payments = [])
        "보유 응원 보상 정책 또는 지급 대상이 올바르지 않습니다."
      validatePayments validateAddress "보유 응원 보상액은 0보다 커야 합니다." payments
  | .doubleVoteSlash evidence penaltyBps => do
      evidence.verify
      reject (penaltyBps ≠ Staking.doubleVoteSlashBps) "이중투표 페널티는 합의 상수 5%여야 합니다."
      reject (id ≠ slashEventId evidence)
        "이중투표 페널티 이벤트 ID가 증거와 일치하지 않습니다."
  | .delegationDailyReward _ policyHash annualRateBps payments => do
      reject (¬isPolicyHash policyHash ∨ 5000 < annualRateBps ∨ payments = [])
        "위임 보상 정책 또는 지급 대상이 올바르지 않습니다."
      validatePayments validateRewardAddress "위임 보상액은 0보다 커야 합니다." payments
  | .nodeServiceDailyReward _ epoch attestations payments => do
      reject (id ≠ NodeEmission.serviceEventId epoch ∨
          attestations.length < NodeEmission.serviceMinimumValidators ∨
          10000 < attestations.length ∨ payments = [] ∨ 10000 < payments.length)
        "공개 노드 일일 보상 증명 또는 지급 대상이 올바르지 않습니다."
      checkAll (fun a => do
        a.verify
        reject (a.epoch ≠ epoch) "공개 노드 서비스 증명의 epoch가 다릅니다.") attestations
      validatePayments validateAddress "공개 노드 일일 보상액은 0보다 커야 합니다." payments

def ScheduledEvent.validate (e : ScheduledEvent) : Except String Unit := do
  reject (e.id = "" ∨ 128 < e.id.utf8ByteSize ∨ ¬allChars isEventIdChar e.id)
    "이벤트 ID는 1~128자의 영문, 숫자, -, _, .만 허용합니다."
  reject (e.executeAt = 0) ("이벤트 " ++ e.id ++ "의 execute_at은 0일 수 없습니다.")
  validateAction e.id e.action

/-! ## The local schedule -/

structure EventSchedule where
  events : List ScheduledEvent
  deriving Repr, DecidableEq

namespace EventSchedule

def validateLoop : List String → List ScheduledEvent → Except String Unit
  | _, [] => .ok ()
  | ids, e :: rest => do
      e.validate
      reject (e.id ∈ ids) ("중복 이벤트 ID: " ++ e.id)
      validateLoop (e.id :: ids) rest

def validate (s : EventSchedule) : Except String Unit := validateLoop [] s.events

end EventSchedule

end

namespace EventSchedule

def due (s : EventSchedule) (timestamp : ℕ) (executed : Finset String) : List ScheduledEvent :=
  (s.events.filter fun e => e.executeAt ≤ timestamp ∧ e.id ∉ executed).insertionSort
    fun a b => pairLe (a.executeAt, a.id) (b.executeAt, b.id)

def validateBlockEvents (s : EventSchedule) (timestamp : ℕ) (events : List ScheduledEvent)
    (executed : Finset String) : Except String Unit :=
  reject (events ≠ s.due timestamp executed)
    "블록의 시스템 이벤트가 로컬 승인 일정과 일치하지 않습니다."

end EventSchedule

end IeumChain
