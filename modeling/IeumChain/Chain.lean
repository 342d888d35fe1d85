import IeumChain.ScheduledEvent
import Mathlib.Data.Finset.Insert
import Mathlib.Data.Finset.Sort

/-!
# The ledger

A block is applied to copies of the balances, nonces, delegations and executed
event identifiers: all transactions in order, then all system events. Any failure
leaves the chain as it was.
-/
namespace IeumChain

open ByteCodec Text Outcome MachineWords FiniteMap

def foundationFeeBps : ℕ := 2000
def feeBpsDenominator : ℕ := 10000

/-- The part of the state that transactions and events change. -/
structure Ledger where
  balances : HashMap Address ℕ
  nextNonces : HashMap Address ℕ
  executedEvents : Finset String
  staking : StakingState

/-- Finalized blocks and the ledger they produce. There is always a last block. -/
structure Blockchain extends Ledger where
  chainId : ℕ
  genesisCommitment : String
  blocks : List Block
  initialBalances : HashMap Address ℕ
  blocks_ne_nil : blocks ≠ []

/-- Lower case, with exactly one marker, for `0x` addresses; other texts stay as they are. -/
def canonicalAddress (address : Address) : Address :=
  if startsWith address "0x" then normalizeAddress address else address

namespace Ledger

/-- Everything that exists: liquid, delegated and unbonding amounts. -/
def total (l : Ledger) : ℕ :=
  FiniteMap.total l.balances + l.staking.delegatedTotal + l.staking.unbondingTotal

def balanceOf (l : Ledger) (address : Address) : ℕ := getD l.balances address 0

def nextNonce (l : Ledger) (address : Address) : ℕ := getD l.nextNonces address 0

end Ledger

def creditBalance (balances : HashMap Address ℕ) (address : Address) (amount : ℕ)
    (overflowMessage : String) : Except String (HashMap Address ℕ) :=
  if amount = 0 then .ok balances
  else do
    let credited ← okOr (checkedAdd u128Max (getD balances address 0) amount) overflowMessage
    pure (balances.insert address credited)

def transferFromFoundation (balances : HashMap Address ℕ) (receiver : Address) (amount : ℕ) :
    Except String (HashMap Address ℕ) := do
  let foundation := getD balances foundationFeeAddress 0
  reject (foundation < amount) "예약 이벤트를 실행할 재단 잔액이 부족합니다."
  creditBalance (balances.insert foundationFeeAddress (foundation - amount))
    (canonicalAddress receiver) amount "예약 이벤트 수령 잔액이 u128 범위를 넘습니다."

/-- A list of payments out of the foundation account, in order. -/
def payFromFoundation (balances : HashMap Address ℕ) (payments : List EventPayment) :
    Except String (HashMap Address ℕ) :=
  payments.foldlM (fun b p => transferFromFoundation b p.address p.amount) balances

/-- The payments an event makes out of the foundation account. -/
def foundationPayments : ScheduledEventAction → List EventPayment
  | .treasuryDistribution recipients => recipients
  | .periodicProducerReward producer amount => [{ address := producer, amount }]
  | .incidentCompensation _ victim amount => [{ address := victim, amount }]
  | .protocolCheckpoint _ => []
  | .bootstrapValidatorReward registrations amount =>
      registrations.map fun r => { address := r.validatorId, amount }
  | .nodeMilestoneReward registrations amount =>
      registrations.map fun r => { address := r.rewardAddress, amount }
  | .validatorDailyInterest _ _ _ payments => payments
  | .holderDailyReward _ _ _ payments => payments
  | .doubleVoteSlash _ _ => []
  | .delegationDailyReward _ _ _ payments => payments
  | .nodeServiceDailyReward _ _ _ payments => payments

def applyAction (l : Ledger) (id : String) : ScheduledEventAction → Except String Ledger
  | .doubleVoteSlash evidence penaltyBps => do
      let (staking, slashed) ← l.staking.slash id evidence.first.validatorId penaltyBps
      let balances ← creditBalance l.balances foundationFeeAddress slashed
        "재단 페널티 잔액이 u128 범위를 넘습니다."
      pure { l with balances, staking }
  | action => do
      let balances ← payFromFoundation l.balances (foundationPayments action)
      pure { l with balances }

def debitAmount (tx : Transaction) : ℕ :=
  match tx.action with
  | .transfer => tx.amount
  | .delegate _ => tx.amount
  | .undelegate _ => 0
  | .claimUnbonded => 0

/-- The effect of a transaction besides its fee; the sender has been debited already. -/
def applyTransactionAction (l : Ledger) (blockTimestamp : ℕ) (tx : Transaction) :
    Except String Ledger :=
  match tx.action with
  | .transfer => do
      let balances ← creditBalance l.balances tx.receiver tx.amount
        "받는 계정 잔액이 u128 범위를 넘습니다."
      pure { l with balances }
  | .delegate validator => do
      let staking ← l.staking.delegateAt tx.sender validator tx.amount blockTimestamp
      pure { l with staking }
  | .undelegate validator => do
      let (staking, _) ← l.staking.undelegate tx.sender validator tx.amount blockTimestamp
      pure { l with staking }
  | .claimUnbonded => do
      let (staking, claimed) ← l.staking.claim tx.sender blockTimestamp
      let balances ← creditBalance l.balances tx.sender claimed
        "해제 청구 잔액이 u128 범위를 넘습니다."
      pure { l with balances, staking }

/-- The foundation gets its share rounded down, the producer everything else. -/
def distributeFee (balances : HashMap Address ℕ) (producer : Address) (fee : ℕ) :
    Except String (HashMap Address ℕ) := do
  let scaled ← okOr (checkedMul u128Max fee foundationFeeBps)
    "재단 수수료 계산이 u128 범위를 넘습니다."
  let foundationFee := scaled / feeBpsDenominator
  let balances ← creditBalance balances producer (fee - foundationFee)
    "블록 생성자 보상 잔액이 u128 범위를 넘습니다."
  creditBalance balances foundationFeeAddress foundationFee
    "재단 수수료 잔액이 u128 범위를 넘습니다."

/-- A transaction whose signature has been checked. -/
def runTransaction (producer : Address) (blockTimestamp : ℕ) (l : Ledger) (tx : Transaction) :
    Except String Ledger := do
  reject (¬tx.action.isTransfer ∧
      canonicalAddress tx.receiver ≠ RawTransaction.stakingSystemAddress)
    "위임 거래의 수신 주소는 스테이킹 시스템 주소여야 합니다."
  reject (tx.action.isTransfer ∧
      canonicalAddress tx.receiver = RawTransaction.stakingSystemAddress)
    "스테이킹 시스템 주소로 일반 송금할 수 없습니다. 위임 calldata가 필요합니다."
  reject (tx.action = .claimUnbonded ∧ tx.amount ≠ 0) "해제 청구 거래의 amount는 0이어야 합니다."
  reject (tx.amount = 0 ∧ tx.action ≠ .claimUnbonded) "송금액은 0보다 커야 합니다."
  reject (tx.nonce ≠ l.nextNonce tx.sender)
    ("nonce 오류: 기대 " ++ decimal (l.nextNonce tx.sender) ++ ", 입력 " ++ decimal tx.nonce)
  let total ← okOr (checkedAdd u128Max (debitAmount tx) tx.fee)
    "송금액과 수수료 합계가 너무 큽니다."
  reject (l.balanceOf tx.sender < total) "수수료를 포함한 잔액이 부족합니다."
  let debited :=
    { l with balances := l.balances.insert tx.sender (l.balanceOf tx.sender - total) }
  let acted ← applyTransactionAction debited blockTimestamp tx
  let balances ← distributeFee acted.balances producer tx.fee
  pure { acted with balances, nextNonces := l.nextNonces.insert tx.sender (tx.nonce + 1) }

section
variable [Crypto]

def checkTransactionSignature (chainId : ℕ) (tx : Transaction) : Except String Unit :=
  if startsWith tx.signature ethrawMarker then RawTransaction.verifyEmbedded tx chainId
  else verifyTransaction tx

def applyTransaction (chainId : ℕ) (producer : Address) (blockTimestamp : ℕ) (l : Ledger)
    (tx : Transaction) : Except String Ledger := do
  checkTransactionSignature chainId tx
  runTransaction producer blockTimestamp l tx

def applyTransactions (chainId : ℕ) (transactions : List Transaction) (producer : Address)
    (l : Ledger) (blockTimestamp : ℕ) : Except String Ledger :=
  transactions.foldlM (applyTransaction chainId producer blockTimestamp) l

def applySystemEvent (blockTimestamp : ℕ) (l : Ledger) (e : ScheduledEvent) :
    Except String Ledger := do
  e.validate
  reject (blockTimestamp < e.executeAt)
    ("이벤트 " ++ e.id ++ "가 실행 시각보다 먼저 포함됐습니다.")
  reject (e.id ∈ l.executedEvents) ("이벤트 " ++ e.id ++ "는 이미 실행됐습니다.")
  applyAction { l with executedEvents := insert e.id l.executedEvents } e.id e.action

def applySystemEvents (events : List ScheduledEvent) (blockTimestamp : ℕ) (l : Ledger) :
    Except String Ledger :=
  events.foldlM (applySystemEvent blockTimestamp) l

end

/-- Every checked sum is exact, so the order of the entries does not matter. -/
def validateSupplyCap (l : Ledger) : Except String Unit := do
  let liquid ← okOr (checkedSum u128Max (values l.balances))
    "유동 발행량 합계가 u128 범위를 넘습니다."
  let delegated ← okOr (checkedSum u128Max (l.staking.delegations.map (·.amount)))
    "위임 발행량 합계가 u128 범위를 넘습니다."
  let unbonding ← okOr (checkedSum u128Max (l.staking.unbonding.map (·.amount)))
    "해제 대기 발행량 합계가 u128 범위를 넘습니다."
  let total ← okOr ((checkedAdd u128Max liquid delegated).bind (checkedAdd u128Max · unbonding))
    "총발행량 합계가 u128 범위를 넘습니다."
  reject (ieumMaxSupply < total) "총발행량이 IEUM 최대 발행량 210,000,000을 넘습니다."

namespace Blockchain

def tip (c : Blockchain) : Block := c.blocks.getLast c.blocks_ne_nil

def tipHeight (c : Blockchain) : ℕ := c.tip.height

def tipHash (c : Blockchain) : String := c.tip.hash

def blockByHeight (c : Blockchain) (height : ℕ) : Option Block :=
  c.blocks.find? (·.height = height)

/-- Appends a block together with the ledger it leads to. -/
def push (c : Blockchain) (l : Ledger) (block : Block) : Blockchain :=
  { c with toLedger := l, blocks := c.blocks ++ [block], blocks_ne_nil := by simp }

section
variable [Crypto]

def withChainId (chainId : ℕ) (initialBalances : List (Address × ℕ)) : Blockchain :=
  { chainId, genesisCommitment := (Block.genesisAt 0).hash, blocks := [Block.genesisAt 0]
    initialBalances := collect initialBalances, balances := collect initialBalances
    nextNonces := ∅, executedEvents := ∅, staking := StakingState.empty
    blocks_ne_nil := by simp }

/-- The ledger after the transactions and events of a block. -/
def execute (c : Blockchain) (block : Block) : Except String Ledger := do
  let l ← applyTransactions c.chainId block.transactions block.producer c.toLedger block.timestamp
  let l ← applySystemEvents block.systemEvents block.timestamp l
  validateSupplyCap l
  pure l

def applyBlock (c : Blockchain) (block : Block) : Except String Blockchain := do
  reject (block.height ≠ c.tipHeight + 1 ∨ block.previousHash ≠ c.tipHash)
    "새 블록이 현재 체인의 다음 블록이 아닙니다."
  reject (block.hash ≠ block.calculateHash) "새 블록 해시가 올바르지 않습니다."
  let l ← c.execute block
  pure (c.push l block)

/-- The hash that checkpoints certify. Nonces are read only for addresses with a balance
entry, and texts have no length. -/
def statePreimage (l : Ledger) : Bytes :=
  (l.balances.entries.insertionSort (·.1 ≤ ·.1)).flatMap (fun e =>
      utf8 e.1 ++ beBytes 16 e.2 ++ beBytes 8 (l.nextNonce e.1)) ++
    (l.executedEvents.sort (· ≤ ·)).flatMap (fun id => utf8 "event:" ++ utf8 id) ++
    if l.staking.delegations ≠ [] ∨ l.staking.unbonding ≠ [] ∨ l.staking.appliedSlashes ≠ [] then
      utf8 "staking-v1:" ++ l.staking.stateBytes
    else []

def stateHash (l : Ledger) : String := sha256Hex (statePreimage l)

/-- What acceptance of a block means: it is the next one, sealed, and executable. -/
theorem applyBlock_eq_ok {c c' : Blockchain} {block : Block} :
    c.applyBlock block = .ok c' ↔
      block.height = c.tipHeight + 1 ∧ block.previousHash = c.tipHash ∧
        block.hash = block.calculateHash ∧ ∃ l, c.execute block = .ok l ∧ c.push l block = c' := by
  simp [applyBlock, and_assoc]

theorem execute_eq_ok {c : Blockchain} {block : Block} {l : Ledger} :
    c.execute block = .ok l ↔
      ∃ l₁, applyTransactions c.chainId block.transactions block.producer c.toLedger
          block.timestamp = .ok l₁ ∧
        applySystemEvents block.systemEvents block.timestamp l₁ = .ok l ∧
        validateSupplyCap l = .ok () := by
  simp only [execute, bind_eq_ok, pure_eq_ok]
  constructor
  · rintro ⟨l₁, h₁, l₂, h₂, u, hcap, rfl⟩
    exact ⟨l₁, h₁, h₂, hcap⟩
  · rintro ⟨l₁, h₁, h₂, hcap⟩
    exact ⟨l₁, h₁, l, h₂, (), hcap, rfl⟩

end

@[simp] theorem tip_push (c : Blockchain) (l : Ledger) (block : Block) :
    (c.push l block).tip = block := by
  simp [tip, push]

@[simp] theorem toLedger_push (c : Blockchain) (l : Ledger) (block : Block) :
    (c.push l block).toLedger = l := rfl

theorem tipHeight_applyBlock [Crypto] {c c' : Blockchain} {block : Block}
    (h : c.applyBlock block = .ok c') : c'.tipHeight = c.tipHeight + 1 := by
  obtain ⟨hheight, -, -, l, -, rfl⟩ := applyBlock_eq_ok.1 h
  simp only [tipHeight, tip_push]
  exact hheight

theorem mem_blocks_applyBlock [Crypto] {c c' : Blockchain} {block b : Block}
    (h : c.applyBlock block = .ok c') (hb : b ∈ c.blocks) : b ∈ c'.blocks := by
  obtain ⟨-, -, -, l, -, rfl⟩ := applyBlock_eq_ok.1 h
  exact List.mem_append_left _ hb

end Blockchain

end IeumChain
