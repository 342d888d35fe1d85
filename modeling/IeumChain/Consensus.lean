import IeumChain.Chain
import IeumChain.Library.VoteTally

/-!
# The voting state machine

Propose, prevote, precommit, finalize. A node locks the block that a quorum of
prevotes supports and later takes up another one only with a quorum from a round
since its lock. Every method that changes the machine returns the changed machine
together with its result, because a failed call may already have changed something.
-/
namespace IeumChain

open ByteCodec Text Outcome MachineWords FiniteMap VoteTally

inductive ConsensusPhase
  | waiting
  | propose
  | prevote
  | precommit
  | finalized
  deriving Repr, DecidableEq

/-- A candidate block signed by its proposer, with the prevotes that show it valid in an
earlier round. -/
structure SignedProposal where
  height : ℕ
  round : ℕ
  proposerId : String
  validRound : Option ℕ
  validRoundPrevotes : List ConsensusMessage
  block : Block
  signature : String
  deriving Repr, DecidableEq

/-- A block with the precommits that finalized it. -/
structure FinalityCertificate where
  block : Block
  round : ℕ
  precommits : List ConsensusMessage
  deriving Repr, DecidableEq

/-- A block, the round in which a quorum prevoted it, and those prevotes. -/
structure RoundChangeValidValue where
  block : Block
  validRound : ℕ
  prevotes : List ConsensusMessage
  deriving Repr, DecidableEq

structure SignedRoundChange where
  chainId : ℕ
  genesisCommitment : String
  height : ℕ
  round : ℕ
  validatorId : String
  validValue : Option RoundChangeValidValue
  signature : String
  deriving Repr, DecidableEq

/-- The prevotes enter in the order of their validators, so the bytes do not depend on the
order in which they were collected. -/
def SignedProposal.bytesToSign (height round : ℕ) (proposerId blockHash : String)
    (validRound : Option ℕ) (validRoundPrevotes : List ConsensusMessage) : Bytes :=
  let prevotes := validRoundPrevotes.insertionSort (·.validatorId ≤ ·.validatorId)
  utf8 "IEUM-PROPOSAL-V3" ++ beBytes 8 height ++ beBytes 4 round ++ pushText proposerId ++
    pushText blockHash ++ beBytes 4 (validRound.getD u32Max) ++ beBytes 8 prevotes.length ++
    prevotes.flatMap fun v => pushText v.validatorId ++ pushText v.signature

/-- The valid value is not part of the signed bytes; it proves itself. -/
def SignedRoundChange.bytesToSign (chainId : ℕ) (genesisCommitment : String) (height round : ℕ)
    (validatorId : String) : Bytes :=
  utf8 "IEUM-ROUND-CHANGE-V1" ++ beBytes 8 chainId ++ pushText genesisCommitment ++
    beBytes 8 height ++ beBytes 4 round ++ pushText validatorId

/-- Power by validator; a repeated identifier keeps its last power. -/
def validatorPowers (validators : List Validator) : HashMap String ℕ :=
  collect (validators.map fun v => (v.id, v.votingPower))

def listedPower (validators : List Validator) : ℕ := (validators.map (·.votingPower)).sum

section
variable [Crypto]

def SignedProposal.verify (p : SignedProposal) : Except String Unit := do
  reject (p.height ≠ p.block.height) "제안 높이와 블록 높이가 다릅니다."
  reject (p.block.hash ≠ p.block.calculateHash) "제안 블록 해시가 올바르지 않습니다."
  verifySignature p.proposerId
    (bytesToSign p.height p.round p.proposerId p.block.hash p.validRound p.validRoundPrevotes)
    p.signature

def SignedRoundChange.verify (m : SignedRoundChange) : Except String Unit :=
  verifySignature m.validatorId
    (bytesToSign m.chainId m.genesisCommitment m.height m.round m.validatorId) m.signature

/-- Votes for one height, round, step and block. -/
def votesFor (height round : ℕ) (voteType : VoteType) (blockHash : String)
    (v : ConsensusMessage) : Bool :=
  v.height = height ∧ v.round = round ∧ v.voteType = voteType ∧ v.blockHash = blockHash

/-- Sums of powers of a certificate never leave 128 bits in the source. -/
def FinalityCertificate.rule (c : FinalityCertificate) (validators : List Validator) :
    Rule ConsensusMessage where
  matching := votesFor c.block.height c.round .precommit c.block.hash
  mismatch := "확정 인증서에 다른 높이·라운드·블록 투표가 섞였습니다."
  verify := ConsensusMessage.verify
  voter := (·.validatorId)
  power := (validatorPowers validators).lookup
  unknown := "등록되지 않은 검증자의 precommit입니다."
  duplicate := none
  top := u128Max
  overflow := "확정 투표권 합계가 범위를 넘었습니다."

def FinalityCertificate.verify (c : FinalityCertificate) (validators : List Validator) :
    Except String Unit := do
  reject (c.block.hash ≠ c.block.calculateHash) "확정 인증서의 블록 해시가 올바르지 않습니다."
  reject (listedPower validators = 0) "검증자 총 투표권이 0입니다."
  let signedPower ← count (c.rule validators) c.precommits
  reject (signedPower * 3 ≤ listedPower validators * 2)
    "확정에 필요한 2/3 초과 precommit이 없습니다."

end

/-! ## The machine -/

/-- Votes are filed under height, round, step and validator. -/
abbrev VoteKey := ℕ × ℕ × VoteType × String

def ConsensusMessage.key (m : ConsensusMessage) : VoteKey :=
  (m.height, m.round, m.voteType, m.validatorId)

structure BftConsensus where
  validators : HashMap String ℕ
  totalPower : ℕ
  height : ℕ
  round : ℕ
  phase : ConsensusPhase
  proposal : Option String
  votes : HashMap (VoteType × String) (Finset String)
  voteHistory : HashMap VoteKey String
  voteMessages : HashMap VoteKey ConsensusMessage
  lockedValue : Option String
  lockedRound : Option ℕ
  validValue : Option String
  validRound : Option ℕ
  evidence : List DoubleVoteEvidence
  finalized : Option String

namespace BftConsensus

/-- Adds the validators one by one; identifiers must be new and powers positive. -/
def newLoop : HashMap String ℕ → List Validator → Except String (HashMap String ℕ)
  | map, [] => .ok map
  | map, v :: rest => do
      reject (v.votingPower = 0 ∨ v.id ∈ map)
        "검증자 ID는 고유해야 하고 투표권은 1 이상이어야 합니다."
      newLoop (map.insert v.id v.votingPower) rest

def new (validators : List Validator) : Except String BftConsensus := do
  reject (validators = []) "BFT 검증자는 최소 1개 필요합니다."
  let map ← newLoop ∅ validators
  pure
    { validators := map, totalPower := wrappingSum u64Max (values map), height := 0, round := 0
      phase := .waiting, proposal := none, votes := ∅, voteHistory := ∅, voteMessages := ∅
      lockedValue := none, lockedRound := none, validValue := none, validRound := none
      evidence := [], finalized := none }

/-- The machine in the propose phase of a round, without the votes of other rounds. A new
height also drops the lock and the valid value. -/
def enterRound (c : BftConsensus) (height round : ℕ) : BftConsensus :=
  let fresh := c.height < height
  { c with
    lockedValue := if fresh then none else c.lockedValue
    lockedRound := if fresh then none else c.lockedRound
    validValue := if fresh then none else c.validValue
    validRound := if fresh then none else c.validRound
    height, round, phase := .propose, proposal := none, votes := ∅, finalized := none }

def startRound (c : BftConsensus) (height round : ℕ) : BftConsensus × Except String Unit :=
  if height < c.height ∨ height = c.height ∧ round < c.round then
    (c, .error "과거 높이 또는 과거 라운드로 돌아갈 수 없습니다.")
  else (c.enterRound height round, .ok ())

def expectedProposer (c : BftConsensus) : String :=
  let ids := c.validators.keys.insertionSort (· ≤ ·)
  ids.getD ((c.height - 1 + c.round) % ids.length) ""

def checkPropose (c : BftConsensus) (proposer blockHash : String) : Except String Unit := do
  reject (c.phase ≠ .propose) "현재 단계에서는 블록을 제안할 수 없습니다."
  reject (proposer ≠ c.expectedProposer)
    ("이번 라운드의 제안자는 " ++ c.expectedProposer ++ "입니다.")
  reject (blockHash = "") "빈 블록 해시는 제안할 수 없습니다."

def propose (c : BftConsensus) (proposer blockHash : String) :
    BftConsensus × Except String Unit :=
  match c.checkPropose proposer blockHash with
  | .error e => (c, .error e)
  | .ok () => ({ c with proposal := some blockHash, phase := .prevote }, .ok ())

/-- The two quorum comparisons of the source, on saturating products. -/
def exceedsTwoThirds (power total : ℕ) : Bool :=
  saturatingMul u64Max total 2 < saturatingMul u64Max power 3

section
variable [Crypto]

/-- The count behind both proofs that a quorum prevoted a block. -/
def prevoteRule (c : BftConsensus) (height round : ℕ) (blockHash : String)
    (mismatch unknown duplicate overflow : String) : Rule ConsensusMessage where
  matching := votesFor height round .prevote blockHash
  mismatch := mismatch
  verify := ConsensusMessage.verify
  voter := (·.validatorId)
  power := c.validators.lookup
  unknown := unknown
  duplicate := some duplicate
  top := u64Max
  overflow := overflow

def verifyValidRoundCertificate (c : BftConsensus) (p : SignedProposal) (validRound : ℕ) :
    Except String Unit := do
  reject (p.round ≤ validRound) "valid_round는 제안 라운드보다 과거여야 합니다."
  reject (c.validators.keys.length < p.validRoundPrevotes.length)
    "valid_round prevote 수가 검증자 수를 넘었습니다."
  let power ← count (c.prevoteRule p.height validRound p.block.hash
    "valid_round prevote 증명의 높이·라운드·블록이 다릅니다."
    "등록되지 않은 검증자의 valid_round prevote입니다."
    "valid_round prevote에 중복 검증자가 있습니다."
    "valid_round 투표권 합계가 범위를 넘었습니다.") p.validRoundPrevotes
  reject (¬exceedsTwoThirds power c.totalPower)
    "valid_round에 필요한 2/3 초과 prevote 증명이 없습니다."

/-- A lock on another block yields only to a quorum of its own round or later. -/
def checkLock (c : BftConsensus) (p : SignedProposal) : Except String Unit :=
  match c.lockedValue with
  | none => .ok ()
  | some locked =>
      let unlockAllowed := match p.validRound, c.lockedRound with
        | some validRound, some lockedRound => decide (lockedRound ≤ validRound)
        | _, _ => false
      reject (locked ≠ p.block.hash ∧ unlockAllowed = false)
        "잠긴 값과 다른 제안이며 유효한 valid_round 증명이 없습니다."

def checkProposal (c : BftConsensus) (p : SignedProposal) : Except String Unit := do
  reject (p.height ≠ c.height ∨ p.round ≠ c.round) "현재 높이/라운드와 다른 제안입니다."
  reject (p.proposerId ∉ c.validators) "등록되지 않은 검증자의 제안입니다."
  p.verify
  match p.validRound with
  | some validRound => c.verifyValidRoundCertificate p validRound
  | none =>
      reject (p.validRoundPrevotes ≠ []) "valid_round 없이 prevote 증명만 제공할 수 없습니다."
  c.checkLock p

/-- The valid value is taken from the proposal even if the phase then refuses it. -/
def handleProposal (c : BftConsensus) (p : SignedProposal) : BftConsensus × Except String Unit :=
  match c.checkProposal p with
  | .error e => (c, .error e)
  | .ok () =>
      let c := match p.validRound with
        | some validRound =>
            { c with validValue := some p.block.hash, validRound := some validRound }
        | none => c
      c.propose p.proposerId p.block.hash

def acceptsVote : ConsensusPhase → VoteType → Bool
  | .prevote, .prevote => true
  | .precommit, .prevote => true
  | .precommit, .precommit => true
  | .finalized, .prevote => true
  | .finalized, .precommit => true
  | _, _ => false

def stageMismatch : String := "현재 합의 단계와 투표 종류가 일치하지 않습니다."

def checkVote (c : BftConsensus) (m : ConsensusMessage) : Except String Unit := do
  reject (m.height ≠ c.height ∨ m.round ≠ c.round) "현재 높이/라운드와 다른 투표입니다."
  reject (m.validatorId ∉ c.validators) "등록되지 않은 검증자의 투표입니다."
  m.verify
  reject (¬acceptsVote c.phase m.voteType) stageMismatch

/-- Keeps a new pair of conflicting votes unless one of the same offence is known. -/
def recordEvidence (c : BftConsensus) (m : ConsensusMessage) : BftConsensus :=
  match c.voteMessages.lookup m.key with
  | none => c
  | some first =>
      let evidence : DoubleVoteEvidence := { first, second := m }
      if evidence.verify.isOk ∧ evidence.id ∉ c.evidence.map DoubleVoteEvidence.id then
        { c with evidence := c.evidence ++ [evidence] }
      else c

/-- The power behind a block in one step of the current round. -/
def votePower (c : BftConsensus) (voteType : VoteType) (blockHash : String) : ℕ :=
  (∑ id ∈ getD c.votes (voteType, blockHash) ∅, (c.validators.lookup id).getD 0) % 2 ^ 64

def hasQuorum (c : BftConsensus) (voteType : VoteType) (blockHash : String) : Bool :=
  exceedsTwoThirds (c.votePower voteType blockHash) c.totalPower

def addVote (c : BftConsensus) (m : ConsensusMessage) : BftConsensus :=
  { c with
    votes := c.votes.insert (m.voteType, m.blockHash)
      (insert m.validatorId (getD c.votes (m.voteType, m.blockHash) ∅)) }

/-- A quorum of prevotes locks the block, a quorum of precommits finalizes it. -/
def advancePhase (c : BftConsensus) (m : ConsensusMessage) : BftConsensus :=
  if c.hasQuorum m.voteType m.blockHash ∧ c.phase ≠ .finalized then
    match m.voteType with
    | .prevote =>
        if c.phase = .prevote then
          { c with
            validValue := some m.blockHash, validRound := some c.round
            lockedValue := some m.blockHash, lockedRound := some c.round, phase := .precommit }
        else c
    | .precommit => { c with phase := .finalized, finalized := some m.blockHash }
  else c

def fileVote (c : BftConsensus) (m : ConsensusMessage) : BftConsensus :=
  { c with
    voteHistory := c.voteHistory.insert m.key m.blockHash
    voteMessages := c.voteMessages.insert m.key m }

/-- A vote that agrees with what is filed for its validator. -/
def countVote (c : BftConsensus) (m : ConsensusMessage) : BftConsensus × Except String Unit :=
  if c.proposal ≠ some m.blockHash then
    (c, .error "현재 제안과 다른 블록에 대한 투표입니다.")
  else ((c.addVote m).advancePhase m, .ok ())

def handle (c : BftConsensus) (m : ConsensusMessage) : BftConsensus × Except String Unit :=
  match c.checkVote m with
  | .error e => (c, .error e)
  | .ok () =>
      match c.voteHistory.lookup m.key with
      | none => (c.fileVote m).countVote m
      | some previousHash =>
          if previousHash ≠ m.blockHash then
            (c.recordEvidence m,
              .error "동일 높이·라운드에서 서로 다른 블록에 이중투표했습니다.")
          else c.countVote m

def lockedPair (c : BftConsensus) : Option (String × ℕ) :=
  match c.lockedValue, c.lockedRound with
  | some value, some round => some (value, round)
  | _, _ => none

def validPair (c : BftConsensus) : Option (String × ℕ) :=
  match c.validValue, c.validRound with
  | some value, some round => some (value, round)
  | _, _ => none

def prevoteCertificate (c : BftConsensus) (blockHash : String) (round : ℕ) :
    List ConsensusMessage :=
  ((values c.voteMessages).filter (votesFor c.height round .prevote blockHash)).insertionSort
    (·.validatorId ≤ ·.validatorId)

def checkValidValue (c : BftConsensus) (blockHash : String) (validRound : ℕ)
    (prevotes : List ConsensusMessage) : Except String Unit := do
  reject (c.validators.keys.length < prevotes.length)
    "round-change prevote 수가 검증자 수를 넘었습니다."
  let power ← count (c.prevoteRule c.height validRound blockHash
    "round-change valid value의 prevote 증명이 일치하지 않습니다."
    "등록되지 않은 검증자의 round-change prevote입니다."
    "round-change prevote에 중복 검증자가 있습니다."
    "round-change prevote 투표권 합계가 범위를 넘었습니다.") prevotes
  reject (¬exceedsTwoThirds power c.totalPower)
    "round-change valid value에 2/3 초과 prevote가 없습니다."

/-- A later quorum replaces the valid value and files its prevotes; the lock stays. -/
def adoptValidValue (c : BftConsensus) (blockHash : String) (validRound : ℕ)
    (prevotes : List ConsensusMessage) : BftConsensus × Except String Unit :=
  match c.checkValidValue blockHash validRound prevotes with
  | .error e => (c, .error e)
  | .ok () =>
      if c.validRound.all (· < validRound) then
        (prevotes.foldl fileVote
          { c with validValue := some blockHash, validRound := some validRound }, .ok ())
      else (c, .ok ())

end

def takeEvidence (c : BftConsensus) : BftConsensus × List DoubleVoteEvidence :=
  ({ c with evidence := [] }, c.evidence)

def onTimeout (c : BftConsensus) : BftConsensus × Except String Unit :=
  match checkedAdd u32Max c.round 1 with
  | none => (c, .error "합의 라운드 번호가 범위를 넘었습니다.")
  | some nextRound => c.startRound c.height nextRound

end BftConsensus

end IeumChain
