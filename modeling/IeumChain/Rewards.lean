import IeumChain.Staking
import Mathlib.Data.Finset.Dedup

/-!
# Daily rewards

The three generators of daily payments: interest of validators, the campaign for
holders, and the pool for public nodes, followed by the rewards of delegators. Each
walks its candidates in a fixed order and spends at most its daily maximum.
-/
namespace IeumChain

open ByteCodec Text Outcome MachineWords FiniteMap

def ieumBaseUnit : ℕ := 1000000000000000000
def ieumMaxSupply : ℕ := 210000000 * ieumBaseUnit
def ieumMainnetGenesisTime : ℕ := 1787238000
def foundationFeeAddress : Address := "0x356456ff1216b57a6f8891b195b42d296789b67d"

/-! ## Interest of validators -/

namespace ValidatorInterest

def bpsDenominator : ℕ := 10000
def daysPerYear : ℕ := 365
def kstOffsetSeconds : ℕ := 9 * 60 * 60
def daySeconds : ℕ := 24 * 60 * 60
def interestRoundingUnit : ℕ := 1000000

def roundToTwelveDecimals (value : ℕ) : ℕ :=
  saturatingAdd u128Max value (interestRoundingUnit / 2) / interestRoundingUnit *
    interestRoundingUnit

def mainnetDailyRewardActive (chainId timestamp : ℕ) : Bool :=
  chainId ≠ 21004 ∨ saturatingAdd u64Max ieumMainnetGenesisTime daySeconds ≤ timestamp

structure Policy where
  enabled : Bool
  annualRateBps : ℕ
  minimumBalance : ℕ
  maximumDailyTotal : ℕ
  deriving Repr, DecidableEq

def Policy.default : Policy :=
  { enabled := true, annualRateBps := 500, minimumBalance := ieumBaseUnit
    maximumDailyTotal := 1000 * ieumBaseUnit }

def Policy.validate (p : Policy) : Except String Unit := do
  reject (5000 < p.annualRateBps) "검증자 연 이율은 0~50.00%(0~5000bps)여야 합니다."
  reject (p.minimumBalance = 0) "검증자 최소 보유액은 0보다 커야 합니다."
  reject (p.maximumDailyTotal = 0) "일일 총 지급 상한은 0보다 커야 합니다."

def Policy.hash [Crypto] (p : Policy) : String :=
  sha256Hex (utf8 (String.ofList (jsonObject
    [("enabled", jsonBool p.enabled), ("annual_rate_bps", jsonNumber p.annualRateBps),
      ("minimum_balance", jsonDecimal p.minimumBalance),
      ("maximum_daily_total", jsonDecimal p.maximumDailyTotal)])))

def kstDay (timestamp : ℕ) : ℕ := saturatingAdd u64Max timestamp kstOffsetSeconds / daySeconds

def eventId (timestamp : ℕ) : String := "ieum-validator-interest-v1-" ++ decimal (kstDay timestamp)

def executeAt (timestamp : ℕ) : ℕ :=
  saturatingMul u64Max (kstDay timestamp) daySeconds - kstOffsetSeconds

/-- One day of simple interest, rounded. -/
def dailyInterest (annualRateBps balance : ℕ) : ℕ :=
  roundToTwelveDecimals
    (saturatingMul u128Max balance annualRateBps / bpsDenominator / daysPerYear)

def paymentLoop (p : Policy) (balances : HashMap Address ℕ) :
    ℕ → List Validator → List EventPayment
  | _, [] => []
  | remaining, v :: rest =>
      let balance := getD balances v.id 0
      if balance < p.minimumBalance ∨ remaining = 0 then paymentLoop p balances remaining rest
      else
        let amount := min (dailyInterest p.annualRateBps balance) remaining
        if 0 < amount then
          { address := v.id, amount } :: paymentLoop p balances (remaining - amount) rest
        else paymentLoop p balances remaining rest

def calculatePayments (p : Policy) (validators : List Validator) (balances : HashMap Address ℕ) :
    List EventPayment :=
  if p.enabled = false ∨ p.annualRateBps = 0 then []
  else paymentLoop p balances p.maximumDailyTotal (validators.insertionSort (·.id ≤ ·.id))

end ValidatorInterest

/-! ## Holder campaign -/

namespace HolderRewards

structure Policy where
  enabled : Bool
  campaignName : String
  startsAt : ℕ
  endsAt : ℕ
  annualRateBps : ℕ
  minimumBalance : ℕ
  maximumDailyTotal : ℕ
  deriving Repr, DecidableEq

def Policy.default : Policy :=
  { enabled := false, campaignName := "이음 첫 보유 응원 이벤트", startsAt := 0, endsAt := 0
    annualRateBps := 500, minimumBalance := ieumBaseUnit
    maximumDailyTotal := 100 * ieumBaseUnit }

def Policy.validate (p : Policy) : Except String Unit := do
  reject (isBlank p.campaignName ∨ 80 < p.campaignName.utf8ByteSize)
    "이벤트 이름은 1~80자여야 합니다."
  reject (5000 < p.annualRateBps) "보유 보상 APR은 0~50.00%여야 합니다."
  reject (p.minimumBalance = 0 ∨ p.maximumDailyTotal = 0)
    "최소 보유량과 일일 상한은 0보다 커야 합니다."
  reject (p.enabled ∧ (p.startsAt = 0 ∨ p.endsAt ≤ p.startsAt))
    "활성 이벤트의 시작·종료 시각이 올바르지 않습니다."

def Policy.active (p : Policy) (timestamp : ℕ) : Bool :=
  p.enabled ∧ p.startsAt ≤ timestamp ∧ timestamp ≤ p.endsAt

def Policy.hash [Crypto] (p : Policy) : String :=
  sha256Hex (utf8 (String.ofList (jsonObject
    [("enabled", jsonBool p.enabled), ("campaign_name", jsonString p.campaignName),
      ("starts_at", jsonNumber p.startsAt), ("ends_at", jsonNumber p.endsAt),
      ("annual_rate_bps", jsonNumber p.annualRateBps),
      ("minimum_balance", jsonDecimal p.minimumBalance),
      ("maximum_daily_total", jsonDecimal p.maximumDailyTotal)])))

/-- Unlike the interest of validators, the day is computed with wrapping arithmetic. -/
def wrappedDay (timestamp : ℕ) : ℕ := (timestamp + 32400) % 2 ^ 64 / 86400

def eventId (timestamp : ℕ) : String := "ieum-holder-reward-v1-" ++ decimal (wrappedDay timestamp)

def executeAt (timestamp : ℕ) : ℕ := (wrappedDay timestamp * 86400 + (2 ^ 64 - 32400)) % 2 ^ 64

def round12 (amount : ℕ) : ℕ := saturatingAdd u128Max amount 500000 / 1000000 * 1000000

def paymentLoop (p : Policy) : ℕ → List (Address × ℕ) → List EventPayment
  | _, [] => []
  | remaining, (address, balance) :: rest =>
      let amount :=
        min (round12 (saturatingMul u128Max balance p.annualRateBps / 10000 / 365)) remaining
      if 0 < amount then
        { address, amount } ::
          if remaining - amount = 0 then [] else paymentLoop p (remaining - amount) rest
      else if remaining = 0 then []
      else paymentLoop p remaining rest

def eligible (p : Policy) (excluded : Finset String) (address : Address) (balance : ℕ) : Bool :=
  startsWith address "0x" ∧ p.minimumBalance ≤ balance ∧ lowercase address ∉ excluded

def calculatePayments (p : Policy) (balances : HashMap Address ℕ) (excluded : Finset String) :
    List EventPayment :=
  if p.enabled = false ∨ p.annualRateBps = 0 then []
  else
    let accounts := ((balances.entries.filter fun e => eligible p excluded e.1 e.2).map
      fun e => (lowercase e.1, e.2)).insertionSort (·.1 ≤ ·.1)
    paymentLoop p p.maximumDailyTotal accounts

end HolderRewards

/-! ## Rewards of delegators -/

namespace Staking

def rewardEventId (timestamp : ℕ) : String :=
  "ieum-delegation-reward-v1-" ++ decimal (ValidatorInterest.kstDay timestamp)

def stakeOf (s : StakingState) (delegator : Address) : ℕ :=
  (s.delegations.filter (·.delegator = delegator)).foldl
    (fun sum p => saturatingAdd u128Max sum p.amount) 0

def rewardLoop (annualRateBps : ℕ) : ℕ → List (Address × ℕ) → List EventPayment
  | _, [] => []
  | remaining, (address, stake) :: rest =>
      if remaining = 0 then []
      else
        let raw := saturatingMul u128Max stake annualRateBps / 10000 / 365
        let amount := min (saturatingAdd u128Max raw 500000 / 1000000 * 1000000) remaining
        if 0 < amount then
          { address, amount } :: rewardLoop annualRateBps (remaining - amount) rest
        else rewardLoop annualRateBps remaining rest

/-- Delegators in the order of their addresses, each with all of its positions. -/
def calculateRewards (s : StakingState) (annualRateBps maximumDailyTotal : ℕ) :
    List EventPayment :=
  let delegators := ((s.delegations.map (·.delegator)).dedup).insertionSort (· ≤ ·)
  rewardLoop annualRateBps maximumDailyTotal (delegators.map fun d => (d, stakeOf s d))

end Staking

/-! ## Public nodes -/

namespace NodeEmission

def totalNodeEmission : ℕ := (210000000 - 21070100) * ieumBaseUnit
def rewardActivationUnix : ℕ := ieumMainnetGenesisTime
def rewardEndUnix : ℕ := 2240611199
def rewardEpochSeconds : ℕ := 24 * 60 * 60
def halvingSeconds : ℕ := 365 * rewardEpochSeconds
def serviceBond : ℕ := 100 * ieumBaseUnit
def serviceBondMaturitySeconds : ℕ := 7 * rewardEpochSeconds
def serviceMinimumUptimeBps : ℕ := 8000
def serviceMinimumValidators : ℕ := 3
def serviceMaxRewardedPerNetworkGroup : ℕ := 2
def serviceDailyPoolCap : ℕ := 1000 * ieumBaseUnit

def serviceEventId (epoch : ℕ) : String := "ieum-node-service-reward-v1-" ++ decimal epoch

def rewardYearCount : ℕ := (rewardEndUnix - rewardActivationUnix) / halvingSeconds + 1

def halvingIndex (timestamp : ℕ) : Option ℕ :=
  if rewardActivationUnix ≤ timestamp ∧ timestamp ≤ rewardEndUnix then
    some ((timestamp - rewardActivationUnix) / halvingSeconds)
  else none

def yearShare (yearIndex : ℕ) : ℕ :=
  totalNodeEmission * 2 ^ (rewardYearCount - yearIndex - 1) / (2 ^ rewardYearCount - 1)

/-- Halves every year; the last year takes what the divisions left over. -/
def annualBudget (yearIndex : ℕ) : ℕ :=
  if rewardYearCount ≤ yearIndex then 0
  else if yearIndex + 1 = rewardYearCount then
    totalNodeEmission - ((List.range yearIndex).map yearShare).sum
  else yearShare yearIndex

def dailyBudget (timestamp : ℕ) : ℕ :=
  match halvingIndex timestamp with
  | none => 0
  | some year =>
      let start := rewardActivationUnix + year * halvingSeconds
      let stop := min (start + halvingSeconds - 1) rewardEndUnix
      let days := (stop - start + 1 + (rewardEpochSeconds - 1)) / rewardEpochSeconds
      annualBudget year / days

end NodeEmission

namespace NodeServiceAttestation

open NodeEmission

def bytesToSign (a : NodeServiceAttestation) : Bytes :=
  utf8 ("ieum-node-service-v1:" ++ a.peerId ++ ":" ++ a.rewardAddress ++ ":" ++
    decimal a.epoch ++ ":" ++ decimal a.observedAt ++ ":" ++ decimal a.uptimeBps ++ ":" ++
    a.networkGroup ++ ":" ++ a.validatorId)

def verify [Crypto] (a : NodeServiceAttestation) : Except String Unit := do
  reject (a.peerId = "" ∨ ¬isAccountAddress a.rewardAddress ∨
      a.epoch ≠ a.observedAt / rewardEpochSeconds ∨ 10000 < a.uptimeBps ∨
      a.networkGroup = "" ∨ 96 < a.networkGroup.utf8ByteSize)
    "노드 서비스 증명 필드가 올바르지 않습니다."
  verifySignature a.validatorId a.bytesToSign a.signatureHex

end NodeServiceAttestation

namespace NodeEmission

/-- The most frequent network group, the smallest name among equals. -/
def betterGroup (best next : String × ℕ) : String × ℕ :=
  if best.2 < next.2 ∨ best.2 = next.2 ∧ next.1 < best.1 then next else best

def mainGroup (proofs : List NodeServiceAttestation) : Option (String × ℕ) :=
  let names := proofs.map (·.networkGroup)
  match names.dedup.map fun n => (n, names.count n) with
  | [] => none
  | first :: rest => some (rest.foldl betterGroup first)

structure EligibleNode where
  peerId : String
  rewardAddress : Address
  networkGroup : String
  deriving Repr, DecidableEq

/-- The candidates in the order of node and address; an address counts once. -/
def eligibleLoop (timestamp : ℕ) (staking : StakingState)
    (counted : List NodeServiceAttestation) :
    List Address → List (String × Address) → List EligibleNode
  | _, [] => []
  | used, (peerId, rewardAddress) :: rest =>
      let proofs := counted.filter fun a => a.peerId = peerId ∧ a.rewardAddress = rewardAddress
      if (proofs.map (·.validatorId)).dedup.length < serviceMinimumValidators ∨
          staking.matureDelegatedBy rewardAddress timestamp serviceBondMaturitySeconds <
            serviceBond ∨
          rewardAddress ∈ used then
        eligibleLoop timestamp staking counted used rest
      else
        match mainGroup proofs with
        | none => eligibleLoop timestamp staking counted (rewardAddress :: used) rest
        | some (networkGroup, count) =>
            if count < serviceMinimumValidators then
              eligibleLoop timestamp staking counted (rewardAddress :: used) rest
            else
              { peerId, rewardAddress, networkGroup } ::
                eligibleLoop timestamp staking counted (rewardAddress :: used) rest

/-- Keeps the first nodes of every network group. -/
def capGroups : List String → List EligibleNode → List EligibleNode
  | _, [] => []
  | seen, n :: rest =>
      if serviceMaxRewardedPerNetworkGroup ≤ seen.count n.networkGroup then capGroups seen rest
      else n :: capGroups (n.networkGroup :: seen) rest

/-- Equal shares; the last node also gets the remainder. -/
def splitPool (pool each : ℕ) : ℕ → List Address → List EventPayment
  | _, [] => []
  | assigned, [address] => [{ address, amount := pool - assigned }]
  | assigned, address :: rest =>
      { address, amount := each } :: splitPool pool each (assigned + each) rest

def nodeLe (a b : EligibleNode) : Prop :=
  a.peerId < b.peerId ∨ a.peerId = b.peerId ∧
    pairLe (a.rewardAddress, a.networkGroup) (b.rewardAddress, b.networkGroup)

instance : DecidableRel nodeLe := fun a b =>
  inferInstanceAs (Decidable (a.peerId < b.peerId ∨ a.peerId = b.peerId ∧
    pairLe (a.rewardAddress, a.networkGroup) (b.rewardAddress, b.networkGroup)))

/-- Attestations that count: this epoch, an active validator, a node that is no validator,
and enough uptime. -/
def counts (timestamp : ℕ) (validators : List Validator) (validatorPeerIds : Finset String)
    (a : NodeServiceAttestation) : Bool :=
  a.epoch = timestamp / rewardEpochSeconds ∧ a.validatorId ∈ validators.map (·.id) ∧
    a.peerId ∉ validatorPeerIds ∧ serviceMinimumUptimeBps ≤ a.uptimeBps

def eligibleNodes (timestamp : ℕ) (attestations : List NodeServiceAttestation)
    (validators : List Validator) (validatorPeerIds : Finset String) (staking : StakingState) :
    List EligibleNode :=
  let counted := attestations.filter (counts timestamp validators validatorPeerIds)
  let keys := ((counted.map fun a => (a.peerId, a.rewardAddress)).dedup).insertionSort pairLe
  capGroups [] ((eligibleLoop timestamp staking counted [] keys).insertionSort nodeLe)

def servicePool (timestamp foundationBalance : ℕ) : ℕ :=
  min (min (dailyBudget timestamp) serviceDailyPoolCap) foundationBalance

def calculateServicePayments [Crypto] (timestamp : ℕ)
    (attestations : List NodeServiceAttestation) (validators : List Validator)
    (validatorPeerIds : Finset String) (staking : StakingState) (foundationBalance : ℕ) :
    Except String (List EventPayment) := do
  checkAll NodeServiceAttestation.verify attestations
  let nodes := eligibleNodes timestamp attestations validators validatorPeerIds staking
  let pool := servicePool timestamp foundationBalance
  if nodes = [] then pure []
  else if pool = 0 then pure []
  else pure (splitPool pool (pool / nodes.length) 0 (nodes.map (·.rewardAddress)))

end NodeEmission

end IeumChain
