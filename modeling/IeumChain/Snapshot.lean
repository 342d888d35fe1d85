import IeumChain.BlockValidation

/-!
# State snapshots and their certificates

A snapshot carries the whole ledger of a height. Validators sign its height, block
hash and state hash, and more than two thirds of the power make a certificate.
-/
namespace IeumChain

open ByteCodec Text Outcome MachineWords FiniteMap VoteTally

structure StateSnapshot where
  chainId : ℕ
  genesisCommitment : String
  height : ℕ
  blockHash : String
  stateHash : String
  balances : HashMap Address ℕ
  nextNonces : HashMap Address ℕ
  executedEvents : Finset String
  staking : StakingState

structure SnapshotAttestation where
  validatorId : String
  height : ℕ
  blockHash : String
  stateRoot : String
  signature : String
  deriving Repr, DecidableEq

structure SnapshotCertificate where
  height : ℕ
  blockHash : String
  stateRoot : String
  attestations : List SnapshotAttestation
  deriving Repr, DecidableEq

/-- Lengths are written in 32 bits here. -/
def snapshotAttestationBytes (height : ℕ) (blockHash stateRoot : String) : Bytes :=
  utf8 "IEUM-SNAPSHOT-V1" ++ beBytes 8 height ++ beBytes 4 blockHash.utf8ByteSize ++
    utf8 blockHash ++ beBytes 4 stateRoot.utf8ByteSize ++ utf8 stateRoot

/-- The ledger a snapshot describes. -/
def StateSnapshot.ledger (s : StateSnapshot) : Ledger :=
  { balances := s.balances, nextNonces := s.nextNonces, executedEvents := s.executedEvents
    staking := s.staking }

/-- A chain that starts at a snapshot. -/
def Blockchain.fromSnapshotWithStaking (s : StateSnapshot) : Except String Blockchain := do
  reject ((trimHexMarkers s.blockHash).utf8ByteSize ≠ 64)
    "체크포인트 블록 해시는 32바이트 hex여야 합니다."
  validateSupplyCap s.ledger
  pure
    { toLedger := s.ledger, chainId := s.chainId, genesisCommitment := s.genesisCommitment
      blocks := [{ height := s.height, previousHash := "", timestamp := 0, producer := "checkpoint"
                   transactions := [], systemEvents := [], hash := trimHexMarkers s.blockHash }]
      initialBalances := s.balances, blocks_ne_nil := by simp }

section
variable [Crypto]

def StateSnapshot.fromChain (c : Blockchain) : StateSnapshot :=
  { chainId := c.chainId, genesisCommitment := c.genesisCommitment, height := c.tipHeight
    blockHash := c.tipHash, stateHash := Blockchain.stateHash c.toLedger, balances := c.balances
    nextNonces := c.nextNonces, executedEvents := c.executedEvents, staking := c.staking }

def SnapshotAttestation.verify (a : SnapshotAttestation) : Except String Unit :=
  verifySignature a.validatorId (snapshotAttestationBytes a.height a.blockHash a.stateRoot)
    a.signature

namespace SnapshotCertificate

def rule (c : SnapshotCertificate) (validators : List Validator) : Rule SnapshotAttestation where
  matching a := a.height = c.height ∧ a.blockHash = c.blockHash ∧ a.stateRoot = c.stateRoot
  mismatch := "snapshot 인증서에 다른 상태 투표가 섞였습니다."
  verify := SnapshotAttestation.verify
  voter := (·.validatorId)
  power := (validatorPowers validators).lookup
  unknown := "등록되지 않은 검증자의 snapshot 투표입니다."
  duplicate := none
  top := u128Max
  overflow := "snapshot 투표권 합계가 범위를 넘었습니다."

def verify (c : SnapshotCertificate) (validators : List Validator) : Except String Unit := do
  reject (listedPower validators = 0) "snapshot 검증자 총 투표권이 0입니다."
  let signedPower ← count (c.rule validators) c.attestations
  reject (signedPower * 3 ≤ listedPower validators * 2)
    "snapshot 인증에 필요한 2/3 초과 서명이 없습니다."

def verifySnapshot (c : SnapshotCertificate) (s : StateSnapshot) (validators : List Validator) :
    Except String Unit := do
  c.verify validators
  reject (c.height ≠ s.height ∨ c.blockHash ≠ s.blockHash ∨ c.stateRoot ≠ s.stateHash)
    "snapshot 내용이 2/3 인증서와 일치하지 않습니다."

end SnapshotCertificate

end

end IeumChain
