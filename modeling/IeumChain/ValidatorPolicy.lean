import IeumChain.Genesis

/-!
# Selecting validators

Candidates enter by a minimum share of the circulating supply, by a rank in their country
or by approval. All of them must own their stake account, be reachable and be up.
-/
namespace IeumChain

open ByteCodec Text Outcome MachineWords FiniteMap

structure ValidatorCandidate where
  validatorId : String
  stakeAccount : String
  delegatedStake : ℕ
  countryCode : Option String
  identityCountryVerified : Bool
  ownershipProofVerified : Bool
  nodeEndpoint : Option String
  observedEpochs : ℕ
  uptimeBps : ℕ
  administratorApproved : Bool
  blocked : Bool
  deriving Repr, DecidableEq

structure ValidatorPolicy where
  minStakeBps : ℕ
  countryRankLimit : ℕ
  maxValidators : ℕ
  minValidators : ℕ
  minUptimeBps : ℕ
  deriving Repr, DecidableEq

structure SelectedValidator where
  validator : Validator
  stake : ℕ
  deriving Repr, DecidableEq

def bpsDenominator : ℕ := 10000

def validateCandidate (candidate : ValidatorCandidate) : Except String Unit := do
  reject ((hexDecode candidate.validatorId).map List.length ≠ some 32)
    "검증자 ID는 32바이트 Ed25519 공개키 hex여야 합니다."
  let account := trimHexMarkers candidate.stakeAccount
  reject (account.utf8ByteSize ≠ 40 ∨ hexDecode account = none)
    "지분 계좌는 20바이트 Ethereum 주소여야 합니다."
  reject (candidate.identityCountryVerified = true ∧
      (candidate.countryCode.getD "").utf8ByteSize ≠ 2)
    "국가 인증 후보에는 2자리 국가 코드가 필요합니다."
  reject (candidate.nodeEndpoint = some "") "노드 접속 주소는 비어 있을 수 없습니다."

def normalizeAccount (value : String) : String := "0x" ++ lowercase (trimHexMarkers value)

/-- A share of a million, at least one. -/
def votingPower (stake circulatingSupply : ℕ) : ℕ :=
  min (max (saturatingMul u128Max stake 1000000 / circulatingSupply) 1) u64Max

/-- A candidate that meets the common conditions, with its stake. -/
structure Eligible where
  candidate : ValidatorCandidate
  stake : ℕ
  hasMinimumStake : Bool

/-- The larger stake comes first, and of equal ones the smaller identifier. -/
def stakeOrder (left right : String × ℕ) : Prop :=
  right.2 < left.2 ∨ left.2 = right.2 ∧ left.1 ≤ right.1

instance (left right : String × ℕ) : Decidable (stakeOrder left right) :=
  inferInstanceAs (Decidable (_ ∨ _))

def Eligible.order (left right : Eligible) : Prop :=
  stakeOrder (left.candidate.validatorId, left.stake) (right.candidate.validatorId, right.stake)

instance (left right : Eligible) : Decidable (left.order right) :=
  inferInstanceAs (Decidable (stakeOrder _ _))

def SelectedValidator.order (left right : SelectedValidator) : Prop :=
  stakeOrder (left.validator.id, left.stake) (right.validator.id, right.stake)

instance (left right : SelectedValidator) : Decidable (left.order right) :=
  inferInstanceAs (Decidable (stakeOrder _ _))

namespace ValidatorPolicy

def default : ValidatorPolicy :=
  { minStakeBps := 100, countryRankLimit := 50, maxValidators := 50, minValidators := 4
    minUptimeBps := 9500 }

def validate (p : ValidatorPolicy) : Except String Unit := do
  reject (p.minStakeBps = 0 ∨ bpsDenominator < p.minStakeBps)
    "최소 지분 비율은 1~10,000 bps여야 합니다."
  reject (p.countryRankLimit = 0) "국가 순위 제한은 1 이상이어야 합니다."
  reject (p.minValidators < 4 ∨ p.maxValidators < p.minValidators)
    "검증자는 최소 4명이고 최대 인원은 최소 인원 이상이어야 합니다."
  reject (10000 < p.minUptimeBps) "최소 정상 응답률은 0~10,000 bps여야 합니다."

/-- Blocked, unproven, unreachable and unreliable candidates are left out without an error. -/
def leavesOut (p : ValidatorPolicy) (candidate : ValidatorCandidate) : Bool :=
  candidate.blocked = true ∨ candidate.ownershipProofVerified = false ∨
    candidate.nodeEndpoint = none ∨
    0 < candidate.observedEpochs ∧ candidate.uptimeBps < p.minUptimeBps

def eligible (p : ValidatorPolicy) (balances : HashMap Address ℕ) (circulatingSupply : ℕ)
    (candidate : ValidatorCandidate) : Eligible :=
  let stake := saturatingAdd u128Max (getD balances (normalizeAccount candidate.stakeAccount) 0)
    candidate.delegatedStake
  { candidate, stake
    hasMinimumStake := saturatingMul u128Max circulatingSupply p.minStakeBps ≤
      saturatingMul u128Max stake bpsDenominator }

/-- One pass over the candidates. Keys and accounts must be new, as texts. -/
def eligibleLoop (p : ValidatorPolicy) (balances : HashMap Address ℕ) (circulatingSupply : ℕ) :
    List String → List String → List ValidatorCandidate → Except String (List Eligible)
  | _, _, [] => .ok []
  | validatorIds, stakeAccounts, candidate :: rest => do
      validateCandidate candidate
      reject (candidate.validatorId ∈ validatorIds) "중복된 검증자 공개키가 있습니다."
      let account := normalizeAccount candidate.stakeAccount
      reject (account ∈ stakeAccounts)
        "하나의 지분 계좌를 여러 검증자 후보가 사용할 수 없습니다."
      let others ← eligibleLoop p balances circulatingSupply
        (candidate.validatorId :: validatorIds) (account :: stakeAccounts) rest
      pure (if p.leavesOut candidate then others
        else p.eligible balances circulatingSupply candidate :: others)

/-- The candidates of each verified country that are high enough in its ranking. -/
def countryRanked (p : ValidatorPolicy) (eligible : List Eligible) : List String :=
  let verified := eligible.filter fun e => e.candidate.identityCountryVerified
  let countries := (verified.filterMap fun e => e.candidate.countryCode).dedup
  countries.flatMap fun country =>
    (((verified.filter fun e => e.candidate.countryCode = some country).insertionSort
      Eligible.order).take p.countryRankLimit).map fun e => e.candidate.validatorId

def select (p : ValidatorPolicy) (candidates : List ValidatorCandidate)
    (balances : HashMap Address ℕ) (circulatingSupply : ℕ) :
    Except String (List SelectedValidator) := do
  p.validate
  reject (circulatingSupply = 0) "유통량은 0일 수 없습니다."
  let eligible ← eligibleLoop p balances circulatingSupply [] [] candidates
  let countryRanked := p.countryRanked eligible
  let routed := eligible.filter fun e =>
    e.hasMinimumStake = true ∨ e.candidate.validatorId ∈ countryRanked ∨
      e.candidate.administratorApproved = true
  let selected := ((routed.map fun e =>
    { validator := ⟨e.candidate.validatorId, votingPower e.stake circulatingSupply⟩
      stake := e.stake : SelectedValidator }).insertionSort SelectedValidator.order).take
        p.maxValidators
  reject (selected.length < p.minValidators)
    ("선발된 검증자가 " ++ decimal selected.length ++ "명입니다. BFT 실행에는 최소 " ++
      decimal p.minValidators ++ "명이 필요합니다.")
  pure selected

end ValidatorPolicy

end IeumChain
