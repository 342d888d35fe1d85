import IeumChain.Library.Outcome
import IeumChain.TrafficRewards
import IeumChain.Wallet
import Mathlib.Data.Finset.Insert

/-!
# The ledger of relay receipts

Receipts of one reward period are counted for the node that relayed. A receipt is refused by
seven rules. Six of them are asked before anything is written; the last one compares the
reward address with the one the node is known under, when the receipt is already filed.
-/
namespace IeumChain.TrafficRewards

open Text Outcome MachineWords FiniteMap

structure RelayReceipt where
  relayPeerId : String
  rewardAddress : Address
  verifierPeerId : String
  messageId : String
  payloadBytes : ℕ
  observedAt : ℕ
  relayStartedAt : ℕ
  deriving Repr, DecidableEq

structure RewardPolicy where
  epochSeconds : ℕ
  poolFeeBps : ℕ
  minimumDistinctVerifiers : ℕ
  maximumReceiptsPerVerifier : ℕ
  maximumPointsPerNode : ℕ
  winnerCount : ℕ
  minimumUptimeSeconds : ℕ
  deriving Repr, DecidableEq

namespace RewardPolicy

def default : RewardPolicy :=
  { epochSeconds := 24 * 60 * 60, poolFeeBps := 2500, minimumDistinctVerifiers := 3
    maximumReceiptsPerVerifier := 200, maximumPointsPerNode := 10000, winnerCount := 10
    minimumUptimeSeconds := 60 * 60 }

def validate (p : RewardPolicy) : Except String Unit := do
  reject (p.epochSeconds < 24 * 60 * 60 ∨ 7 * 24 * 60 * 60 < p.epochSeconds)
    "보상 주기는 1일~7일이어야 합니다."
  reject (bpsDenominator < p.poolFeeBps) "이벤트 풀 비율은 10,000bps 이하여야 합니다."
  reject (p.minimumDistinctVerifiers < 2 ∨ p.maximumReceiptsPerVerifier = 0 ∨
    p.maximumPointsPerNode = 0 ∨ p.winnerCount = 0)
    "보상 검증자·상한·당첨자 수 설정이 올바르지 않습니다."
  reject (p.minimumUptimeSeconds < 60 * 60 ∨ p.epochSeconds < p.minimumUptimeSeconds)
    "최소 가동 시간은 1시간 이상이며 보상 주기 이하여야 합니다."

theorem validate_default : default.validate = .ok () := by decide

end RewardPolicy

def validateRewardAddress (address : Address) : Except String Unit :=
  reject (¬isAccountAddress address ∧ ¬isPublicKeyHex address)
    "노드 보상 주소 형식이 올바르지 않습니다."

structure NodeContribution where
  rewardAddress : Address
  points : ℕ
  verifiers : Finset String
  deriving DecidableEq

/-- The receipts of a period. The policy has been validated when the ledger was made. -/
structure ContributionLedger where
  policy : RewardPolicy
  epoch : ℕ
  seen : Finset (String × String)
  verifierCounts : HashMap String ℕ
  nodes : HashMap String NodeContribution
  valid : policy.validate = .ok ()

namespace ContributionLedger

def new (policy : RewardPolicy) (epoch : ℕ) : Except String ContributionLedger :=
  match h : policy.validate with
  | .error e => .error e
  | .ok () =>
      .ok { policy, epoch, seen := ∅, verifierCounts := ∅, nodes := ∅, valid := h }

/-- The rules that are asked first. -/
def checkReceipt (l : ContributionLedger) (receipt : RelayReceipt) : Except String Unit := do
  reject (receipt.observedAt / l.policy.epochSeconds ≠ l.epoch)
    "중계 영수증의 보상 epoch가 다릅니다."
  reject (receipt.relayPeerId = receipt.verifierPeerId)
    "자기 자신이 확인한 중계 영수증은 인정하지 않습니다."
  reject (receipt.payloadBytes = 0 ∨ isBlank receipt.messageId)
    "빈 메시지 중계는 인정하지 않습니다."
  reject (receipt.relayStartedAt = 0 ∨
    receipt.observedAt - receipt.relayStartedAt < l.policy.minimumUptimeSeconds)
    "1시간 이상 연속 가동이 독립 피어에게 확인된 노드만 보상됩니다."
  validateRewardAddress receipt.rewardAddress

/-- One point for each 64 KiB begun, from 1 to 16. -/
def receiptPoints (receipt : RelayReceipt) : ℕ :=
  max 1 (min 16 ((receipt.payloadBytes + (64 * 1024 - 1)) / (64 * 1024)))

/-- What the relaying node is known with, or the entry it begins with. -/
def knownContribution (nodes : HashMap String NodeContribution) (receipt : RelayReceipt) :
    NodeContribution :=
  (nodes.lookup receipt.relayPeerId).getD
    { rewardAddress := receipt.rewardAddress, points := 0, verifiers := ∅ }

/-- The ledger afterwards, also when the receipt is refused. -/
def recordValidated (l : ContributionLedger) (receipt : RelayReceipt) :
    ContributionLedger × Except String Bool :=
  match l.checkReceipt receipt with
  | .error e => (l, .error e)
  | .ok () =>
      let dedupe := (receipt.verifierPeerId, receipt.messageId)
      if dedupe ∈ l.seen then (l, .ok false)
      else
        let l := { l with seen := insert dedupe l.seen }
        let count := getD l.verifierCounts receipt.verifierPeerId 0
        if l.policy.maximumReceiptsPerVerifier ≤ count then
          ({ l with verifierCounts := orInsert l.verifierCounts receipt.verifierPeerId 0 },
            .ok false)
        else
          let l := { l with
            verifierCounts := l.verifierCounts.insert receipt.verifierPeerId (count + 1) }
          let contribution := knownContribution l.nodes receipt
          if contribution.rewardAddress ≠ receipt.rewardAddress then
            ({ l with nodes := orInsert l.nodes receipt.relayPeerId contribution },
              .error "같은 PeerId가 서로 다른 보상 주소를 사용했습니다.")
          else
            let contribution := { contribution with
              points := min (saturatingAdd u64Max contribution.points (receiptPoints receipt))
                l.policy.maximumPointsPerNode
              verifiers := insert receipt.verifierPeerId contribution.verifiers }
            ({ l with nodes := l.nodes.insert receipt.relayPeerId contribution }, .ok true)

variable (l : ContributionLedger) (receipt : RelayReceipt)

/-- The receipt passes every earlier rule, is new and within the quota of its verifier, and
names another reward address than the node is known with. -/
def Conflicts : Prop :=
  l.checkReceipt receipt = .ok () ∧
    (receipt.verifierPeerId, receipt.messageId) ∉ l.seen ∧
    getD l.verifierCounts receipt.verifierPeerId 0 < l.policy.maximumReceiptsPerVerifier ∧
    ∃ known ∈ l.nodes.lookup receipt.relayPeerId, known.rewardAddress ≠ receipt.rewardAddress

theorem knownContribution_ne_iff :
    (knownContribution l.nodes receipt).rewardAddress ≠ receipt.rewardAddress ↔
      ∃ known ∈ l.nodes.lookup receipt.relayPeerId,
        known.rewardAddress ≠ receipt.rewardAddress := by
  rw [knownContribution]
  cases l.nodes.lookup receipt.relayPeerId <;> simp

/-- The last rule refuses a receipt whose message and verifier are already written. -/
theorem recordValidated_conflict (h : l.Conflicts receipt) :
    (l.recordValidated receipt).2 = .error "같은 PeerId가 서로 다른 보상 주소를 사용했습니다." ∧
      (receipt.verifierPeerId, receipt.messageId) ∈ (l.recordValidated receipt).1.seen ∧
      getD (l.recordValidated receipt).1.verifierCounts receipt.verifierPeerId 0 =
        getD l.verifierCounts receipt.verifierPeerId 0 + 1 := by
  obtain ⟨hcheck, hnew, hquota, hother⟩ := h
  have hne := (l.knownContribution_ne_iff receipt).2 hother
  simp only [recordValidated, hcheck, if_neg hnew, if_neg hquota.not_ge]
  rw [if_pos hne]
  exact ⟨rfl, Finset.mem_insert_self _ _, getD_insert_self _ _ _ _⟩

/-- An error without a conflict comes from a rule that is asked first. -/
theorem recordValidated_error {e : String} (h : ¬l.Conflicts receipt)
    (herror : (l.recordValidated receipt).2 = .error e) : (l.recordValidated receipt).1 = l := by
  unfold recordValidated at herror ⊢
  cases hcheck : l.checkReceipt receipt with
  | error e => rfl
  | ok u =>
      simp only [hcheck] at herror
      split_ifs at herror with hseen hquota hne
      exact absurd ⟨hcheck, hseen, Nat.lt_of_not_ge hquota,
        (l.knownContribution_ne_iff receipt).1 hne⟩ h

/-- A refused receipt leaves the ledger as it was, unless the last rule refuses it. -/
theorem refused_unchanged_iff :
    ((∃ e, (l.recordValidated receipt).2 = .error e) → (l.recordValidated receipt).1 = l) ↔
      ¬l.Conflicts receipt := by
  constructor
  · intro h hconflict
    obtain ⟨herror, hseen, -⟩ := l.recordValidated_conflict receipt hconflict
    rw [h ⟨_, herror⟩] at hseen
    exact hconflict.2.1 hseen
  · rintro h ⟨e, herror⟩
    exact l.recordValidated_error receipt h herror

end ContributionLedger

/-! A node that relayed for two verifiers, with another address for the second one. -/

namespace OtherAddress

open ContributionLedger

def ledger : ContributionLedger :=
  { policy := .default, epoch := 0, seen := ∅, verifierCounts := ∅, nodes := ∅
    valid := RewardPolicy.validate_default }

def receipt (verifier digit : String) : RelayReceipt :=
  { relayPeerId := "relay", rewardAddress := "0x" ++ String.join (List.replicate 40 digit)
    verifierPeerId := verifier, messageId := "message", payloadBytes := 1
    observedAt := 4000, relayStartedAt := 1 }

def known : ContributionLedger := (ledger.recordValidated (receipt "first" "1")).1

/-- The refused receipt uses up its message: the right one is then a repetition. -/
theorem conflict_uses_message : ContributionLedger.new .default 0 = .ok ledger ∧
    (ledger.recordValidated (receipt "first" "1")).2 = .ok true ∧
    (known.recordValidated (receipt "second" "2")).2 =
      .error "같은 PeerId가 서로 다른 보상 주소를 사용했습니다." ∧
    (known.recordValidated (receipt "second" "2")).1.seen ≠ known.seen ∧
    getD known.verifierCounts "second" 0 = 0 ∧
    getD (known.recordValidated (receipt "second" "2")).1.verifierCounts "second" 0 = 1 ∧
    ((known.recordValidated (receipt "second" "2")).1.recordValidated
      (receipt "second" "1")).2 = .ok false := by
  refine ⟨rfl, ?_⟩
  decide +kernel

end OtherAddress

end IeumChain.TrafficRewards
