import IeumChain.Snapshot

/-!
# The consensus node

The calls a node makes on its consensus state. As in the voting machine, a call
returns the new state together with its result, and a failed call keeps whatever it
had already changed.
-/
namespace IeumChain

open ByteCodec Text Outcome MachineWords FiniteMap

namespace ConsensusRuntime

/-! ## Construction -/

def withSigner (chain : Blockchain) (validators : List Validator) (validator : String)
    (timeouts : ConsensusTimeouts) (instant : ℕ) : Except String ConsensusRuntime := do
  let consensus ← BftConsensus.new validators
  pure
    { chain, consensus := consensus.enterRound (chain.tipHeight + 1) 0, validator, pending := none
      validBlock := none, validRoundPrevotes := [], deadline := instant + timeouts.propose
      timeouts, validators, validatorPeerIds := ∅, precommits := [], deferredVotes := []
      roundChangeVotes := ∅, finalized := [], pendingFinalized := []
      eventSchedule := { events := [] }
      validatorInterestPolicy := ValidatorInterest.Policy.default
      holderRewardPolicy := HolderRewards.Policy.default, upgradeSchedule := { upgrades := [] }
      signed := [] }

def resetDeadline (rt : ConsensusRuntime) (env : Env) : ConsensusRuntime :=
  { rt with deadline := env.instant + rt.timeouts.forPhase rt.consensus.phase }

/-- Asks the signer and records the request. -/
def sign (rt : ConsensusRuntime) (env : Env) (payload : SignedPayload) :
    ConsensusRuntime × Except String String :=
  ({ rt with signed := rt.signed ++ [payload] }, env.sign (payload.bytes rt.validator))

/-- Leaves the round: no candidate block and no collected precommits remain. -/
def clearRound (rt : ConsensusRuntime) : ConsensusRuntime :=
  { rt with pending := none, precommits := [] }

/-- Leaves the height. -/
def clearHeight (rt : ConsensusRuntime) : ConsensusRuntime :=
  { rt.clearRound with validBlock := none, validRoundPrevotes := [], roundChangeVotes := ∅ }

def restartPhaseTimeout (rt : ConsensusRuntime) (now : ℕ) : ConsensusRuntime :=
  { rt with deadline := now + rt.timeouts.forPhase rt.consensus.phase }

def takeEvidence (rt : ConsensusRuntime) : ConsensusRuntime × List DoubleVoteEvidence :=
  let (consensus, evidence) := rt.consensus.takeEvidence
  ({ rt with consensus }, evidence)

def takeFinalized (rt : ConsensusRuntime) : ConsensusRuntime × List FinalityCertificate :=
  ({ rt with pendingFinalized := [] }, rt.pendingFinalized)

section
variable [Crypto]

def signVote (rt : ConsensusRuntime) (env : Env) (height round : ℕ) (voteType : VoteType)
    (blockHash : String) : ConsensusRuntime × Except String ConsensusMessage :=
  match rt.sign env (.vote height round voteType blockHash) with
  | (rt, .error e) => (rt, .error e)
  | (rt, .ok signature) =>
      let message : ConsensusMessage :=
        { height, round, validatorId := rt.validator, voteType, blockHash, signature }
      (rt, message.verify.map fun _ => message)

/-! ## Proposals -/

/-- The block to propose: the valid one with its prevotes if there is one, else a new one. -/
def proposalContent (rt : ConsensusRuntime) (block : Block) :
    Except String (Block × Option ℕ × List ConsensusMessage) :=
  match rt.validBlock, rt.consensus.validPair with
  | some validBlock, some (validHash, validRound) =>
      if validBlock.hash = validHash then
        let reconstructed := rt.consensus.prevoteCertificate validHash validRound
        let proof := if reconstructed = [] then rt.validRoundPrevotes else reconstructed
        if proof = [] then
          .error "valid value의 prevote 증명을 복구하지 못해 충돌 제안을 보류합니다."
        else .ok (validBlock, some validRound, proof)
      else .error "valid value와 보관 블록이 달라 충돌 제안을 보류합니다."
  | none, some _ => .error "valid value의 블록 본문을 복구하지 못해 충돌 제안을 보류합니다."
  | _, none => .ok (block, none, [])

def prepareProposal (rt : ConsensusRuntime) (block : Block) :
    Except String (Block × Option ℕ × List ConsensusMessage) := do
  reject (rt.consensus.phase ≠ .propose) "현재 단계에서는 새 블록 제안을 만들 수 없습니다."
  reject (rt.validator ≠ rt.consensus.expectedProposer)
    "이 노드는 현재 라운드 제안자가 아닙니다."
  rt.proposalContent block

def makeProposal (rt : ConsensusRuntime) (env : Env) (block : Block) :
    ConsensusRuntime × Except String SignedProposal :=
  match rt.prepareProposal block with
  | .error e => (rt, .error e)
  | .ok (block, validRound, validRoundPrevotes) =>
      let round := rt.consensus.round
      match rt.sign env (.proposal block.height round block.hash validRound validRoundPrevotes) with
      | (rt, .error e) => (rt, .error e)
      | (rt, .ok signature) =>
          let proposal : SignedProposal :=
            { height := block.height, round, proposerId := rt.validator, validRound
              validRoundPrevotes, block, signature }
          (rt, proposal.verify.map fun _ => proposal)

/-- The checks of a proposal against the chain and the schedule. -/
def checkProposedBlock (rt : ConsensusRuntime) (env : Env) (block : Block) :
    Except String Unit := do
  reject (block.previousHash ≠ rt.chain.tipHash ∨ block.height ≠ rt.chain.tipHeight + 1)
    "제안 블록이 현재 체인의 다음 블록이 아닙니다."
  rt.validateScheduledBlock env.unixNow block

def receiveProposal (rt : ConsensusRuntime) (env : Env) (p : SignedProposal) :
    ConsensusRuntime × Except String ConsensusMessage :=
  match rt.checkProposedBlock env p.block with
  | .error e => (rt, .error e)
  | .ok () =>
      match rt.consensus.handleProposal p with
      | (consensus, .error e) => ({ rt with consensus }, .error e)
      | (consensus, .ok ()) =>
          let rt := { rt with consensus, pending := some p.block }.resetDeadline env
          rt.signVote env p.height p.round .prevote p.block.hash

/-! ## Votes -/

/-- Collects the first precommit of each validator of the round. -/
def collectPrecommit (rt : ConsensusRuntime) (vote : ConsensusMessage) : ConsensusRuntime :=
  if vote.voteType = .precommit ∧
      ¬∃ known ∈ rt.precommits, known.height = vote.height ∧ known.round = vote.round ∧
        known.validatorId = vote.validatorId then
    { rt with precommits := rt.precommits ++ [vote] }
  else rt

/-- A new lock keeps the block and its prevotes; every change of phase restarts the clock. -/
def afterPhaseChange (rt : ConsensusRuntime) (env : Env) (previousPhase : ConsensusPhase) :
    ConsensusRuntime :=
  if previousPhase = rt.consensus.phase then rt
  else
    let rt :=
      if previousPhase = .prevote ∧ rt.consensus.phase = .precommit then
        { rt with
          validBlock := rt.pending
          validRoundPrevotes := match rt.consensus.validPair with
            | some (blockHash, validRound) =>
                rt.consensus.prevoteCertificate blockHash validRound
            | none => rt.validRoundPrevotes }
      else rt
    rt.resetDeadline env

/-- Takes the candidate out and applies it. The candidate is gone even if that fails. -/
def finalizePending (rt : ConsensusRuntime) :
    ConsensusRuntime × Except String (Option ConsensusMessage) :=
  match rt.pending with
  | none => (rt, .ok none)
  | some block =>
      let rt := { rt with pending := none }
      if rt.consensus.finalized ≠ some block.hash then
        (rt, .error "확정 해시와 후보 블록 해시가 다릅니다.")
      else
        let certificate : FinalityCertificate :=
          { block, round := rt.consensus.round, precommits := rt.precommits }
        match certificate.verify rt.validators with
        | .error e => (rt, .error e)
        | .ok () =>
            match rt.chain.applyBlock block with
            | .error e => (rt, .error e)
            | .ok chain =>
                ({ rt with
                    chain, validBlock := none, validRoundPrevotes := []
                    finalized := rt.finalized ++ [certificate]
                    pendingFinalized := rt.pendingFinalized ++ [certificate] }, .ok none)

/-- What follows a counted vote: a precommit while the block is locked, the end of the
height once it is finalized. -/
def afterVote (rt : ConsensusRuntime) (env : Env) :
    ConsensusRuntime × Except String (Option ConsensusMessage) :=
  if rt.consensus.phase = .precommit then
    match rt.pending with
    | none => (rt, .error "후보 블록이 없습니다.")
    | some block =>
        let (rt, result) := rt.signVote env block.height rt.consensus.round .precommit block.hash
        (rt, result.map some)
  else if rt.consensus.phase = .finalized then rt.finalizePending
  else (rt, .ok none)

def receiveVote (rt : ConsensusRuntime) (env : Env) (vote : ConsensusMessage) :
    ConsensusRuntime × Except String (Option ConsensusMessage) :=
  match rt.consensus.handle vote with
  | (consensus, .error e) => ({ rt with consensus }, .error e)
  | (consensus, .ok ()) =>
      let previousPhase := rt.consensus.phase
      ((({ rt with consensus }.collectPrecommit vote).afterPhaseChange env previousPhase)).afterVote
        env

def maxDeferredVotes : ℕ := 1024

/-- Keeps a vote that arrived early; the oldest makes room. -/
def deferVote (rt : ConsensusRuntime) (vote : ConsensusMessage) : ConsensusRuntime :=
  if ∃ known ∈ rt.deferredVotes, known.height = vote.height ∧ known.round = vote.round ∧
      known.voteType = vote.voteType ∧ known.validatorId = vote.validatorId ∧
      known.blockHash = vote.blockHash then rt
  else
    let kept := if maxDeferredVotes ≤ rt.deferredVotes.length then rt.deferredVotes.drop 1
      else rt.deferredVotes
    { rt with deferredVotes := kept ++ [vote] }

def isDeferableVoteError (e : String) : Bool := e = BftConsensus.stageMismatch

/-- One pass over the deferred votes. The pass stops at an error of the node's own precommit;
the votes not yet reached are then lost. -/
def replayPass (env : Env) : List ConsensusMessage → ConsensusRuntime → Bool →
    List ConsensusMessage → List ConsensusMessage →
    ConsensusRuntime × Except String (Bool × List ConsensusMessage × List ConsensusMessage)
  | [], rt, progressed, remaining, outbound => (rt, .ok (progressed, remaining, outbound))
  | vote :: rest, rt, progressed, remaining, outbound =>
      match rt.receiveVote env vote with
      | (rt, .ok (some precommit)) =>
          match rt.receiveVote env precommit with
          | (rt, .error e) => (rt, .error e)
          | (rt, .ok _) => replayPass env rest rt true remaining (outbound ++ [precommit])
      | (rt, .ok none) => replayPass env rest rt true remaining outbound
      | (rt, .error e) =>
          if isDeferableVoteError e then
            replayPass env rest rt progressed (remaining ++ [vote]) outbound
          else replayPass env rest rt progressed remaining outbound

/-- Passes until one makes no progress. A pass with progress keeps fewer votes than it was
given, so one pass more than there are votes always suffices. -/
def replayLoop (env : Env) : ℕ → ConsensusRuntime → List ConsensusMessage →
    ConsensusRuntime × Except String (List ConsensusMessage)
  | 0, rt, outbound => (rt, .ok outbound)
  | fuel + 1, rt, outbound =>
      match replayPass env rt.deferredVotes { rt with deferredVotes := [] } false [] outbound with
      | (rt, .error e) => (rt, .error e)
      | (rt, .ok (progressed, remaining, outbound)) =>
          let rt := { rt with deferredVotes := remaining }
          if progressed then replayLoop env fuel rt outbound else (rt, .ok outbound)

def replayDeferredVotes (rt : ConsensusRuntime) (env : Env) :
    ConsensusRuntime × Except String (List ConsensusMessage) :=
  replayLoop env (rt.deferredVotes.length + 1) rt []

/-! ## Round changes -/

def maxFutureRoundDistance : ℕ := 4096
def maxTrackedRounds : ℕ := 128

def checkRoundChange (rt : ConsensusRuntime) (m : SignedRoundChange) : Except String Unit := do
  m.verify
  reject (m.chainId ≠ rt.chain.chainId ∨ m.genesisCommitment ≠ rt.chain.genesisCommitment)
    "다른 체인의 round-change 메시지입니다."
  reject (m.height ≠ rt.consensus.height) "현재 높이와 다른 round-change 메시지입니다."
  reject (¬rt.isValidator m.validatorId) "등록되지 않은 검증자의 round-change 메시지입니다."
  reject (saturatingAdd u32Max rt.consensus.round maxFutureRoundDistance < m.round)
    "round-change 메시지가 허용된 미래 범위를 넘었습니다."

def checkRoundChangeValue (rt : ConsensusRuntime) (env : Env) (m : SignedRoundChange)
    (valid : RoundChangeValidValue) : Except String Unit := do
  reject (m.round < valid.validRound) "round-change valid_round가 timeout 라운드보다 미래입니다."
  reject (valid.block.height ≠ m.height ∨ valid.block.previousHash ≠ rt.chain.tipHash)
    "round-change valid value가 현재 체인의 다음 블록이 아닙니다."
  rt.validateScheduledBlock env.unixNow valid.block

/-- Adopts the valid value a round change carries. -/
def adoptRoundChangeValue (rt : ConsensusRuntime) (env : Env) (m : SignedRoundChange) :
    ConsensusRuntime × Except String Unit :=
  match m.validValue with
  | none => (rt, .ok ())
  | some valid =>
      match rt.checkRoundChangeValue env m valid with
      | .error e => (rt, .error e)
      | .ok () =>
          match rt.consensus.adoptValidValue valid.block.hash valid.validRound valid.prevotes with
          | (consensus, .error e) => ({ rt with consensus }, .error e)
          | (consensus, .ok ()) =>
              let rt := { rt with consensus }
              if rt.consensus.validPair = some (valid.block.hash, valid.validRound) then
                ({ rt with validBlock := some valid.block, validRoundPrevotes := valid.prevotes },
                  .ok ())
              else (rt, .ok ())

/-- Files one round change per validator. -/
def recordRoundChange (rt : ConsensusRuntime) (m : SignedRoundChange) : ConsensusRuntime :=
  let votes := getD rt.roundChangeVotes (m.height, m.round) []
  let votes := if m.validatorId ∈ votes.map (·.validatorId) then votes else votes ++ [m]
  { rt with roundChangeVotes := rt.roundChangeVotes.insert (m.height, m.round) votes }

/-- The power of the round changes filed for a round. -/
def roundChangePower (rt : ConsensusRuntime) (height round : ℕ) : ℕ :=
  wrappingSum u64Max ((getD rt.roundChangeVotes (height, round) []).filterMap fun m =>
    (rt.validators.find? (·.id = m.validatorId)).map (·.votingPower))

def oldestRound (keys : List (ℕ × ℕ)) : Option (ℕ × ℕ) :=
  match keys with
  | [] => none
  | first :: rest => some (rest.foldl (fun a b => if pairLe a b then a else b) first)

/-- Forgets the oldest round when too many are tracked. -/
def pruneRoundChanges (rt : ConsensusRuntime) : ConsensusRuntime :=
  if maxTrackedRounds < rt.roundChangeVotes.keys.length then
    match oldestRound rt.roundChangeVotes.keys with
    | some oldest => { rt with roundChangeVotes := rt.roundChangeVotes.erase oldest }
    | none => rt
  else rt

/-- Enters a later round of the height. -/
def jumpToRound (rt : ConsensusRuntime) (env : Env) (height target : ℕ) :
    ConsensusRuntime × Except String Bool :=
  match rt.consensus.startRound height target with
  | (consensus, .error e) => ({ rt with consensus }, .error e)
  | (consensus, .ok ()) =>
      let rt := { rt with consensus }.clearRound
      let rt :=
        { rt with
          deferredVotes := rt.deferredVotes.filter fun v => v.height = height ∧ target ≤ v.round
          roundChangeVotes := retain
            (fun k => k.1 = height ∧ target ≤ saturatingAdd u32Max k.2 1) rt.roundChangeVotes }
      (rt.resetDeadline env, .ok true)

/-- More than a third of the power in a later round makes the node follow; more than two
thirds end that round. -/
def receiveRoundChange (rt : ConsensusRuntime) (env : Env) (m : SignedRoundChange) :
    ConsensusRuntime × Except String Bool :=
  match rt.checkRoundChange m with
  | .error e => (rt, .error e)
  | .ok () =>
      match rt.adoptRoundChangeValue env m with
      | (rt, .error e) => (rt, .error e)
      | (rt, .ok ()) =>
          let rt := rt.recordRoundChange m
          let signedPower := rt.roundChangePower m.height m.round
          let totalPower := wrappingSum u64Max (rt.validators.map (·.votingPower))
          let rt := rt.pruneRoundChanges
          let catchUp := totalPower < saturatingMul u64Max signedPower 3
          let quorum := saturatingMul u64Max totalPower 2 < saturatingMul u64Max signedPower 3
          match if quorum then checkedAdd u32Max m.round 1 else some m.round with
          | none => (rt, .error "합의 라운드 번호가 범위를 넘었습니다.")
          | some target =>
              if catchUp ∧ rt.consensus.round < target then rt.jumpToRound env m.height target
              else (rt, .ok false)

/-- The valid value a node reports when it times out. -/
def reportedValidValue (rt : ConsensusRuntime) : Option RoundChangeValidValue :=
  match rt.validBlock, rt.consensus.validPair with
  | some block, some (hash, validRound) =>
      if block.hash = hash then
        let prevotes := rt.consensus.prevoteCertificate hash validRound
        if prevotes = [] then none else some { block, validRound, prevotes }
      else none
  | _, _ => none

/-- Leaves the round that timed out, unless the node's own round change already did. -/
def leaveTimedOutRound (rt : ConsensusRuntime) (now : ℕ) (roundChange : SignedRoundChange) :
    ConsensusRuntime × Except String (Bool × Option SignedRoundChange) :=
  let (consensus, result) :=
    if rt.consensus.round = roundChange.round then rt.consensus.onTimeout
    else (rt.consensus, .ok ())
  match result with
  | .error e => ({ rt with consensus }, .error e)
  | .ok () =>
      ({ ({ rt with consensus }.clearRound) with deadline := now + rt.timeouts.propose },
        .ok (true, some roundChange))

def timeoutIfDueWithRoundChange (rt : ConsensusRuntime) (env : Env) (now : ℕ) :
    ConsensusRuntime × Except String (Bool × Option SignedRoundChange) :=
  if now < rt.deadline ∨ rt.consensus.phase = .finalized then (rt, .ok (false, none))
  else
    let height := rt.consensus.height
    let round := rt.consensus.round
    let validValue := rt.reportedValidValue
    match rt.sign env (.roundChange rt.chain.chainId rt.chain.genesisCommitment height round) with
    | (rt, .error e) => (rt, .error e)
    | (rt, .ok signature) =>
        let roundChange : SignedRoundChange :=
          { chainId := rt.chain.chainId, genesisCommitment := rt.chain.genesisCommitment, height
            round, validatorId := rt.validator, validValue, signature }
        match roundChange.verify with
        | .error e => (rt, .error e)
        | .ok () =>
            match rt.receiveRoundChange env roundChange with
            | (rt, .error e) => (rt, .error e)
            | (rt, .ok _) => rt.leaveTimedOutRound now roundChange

def timeoutIfDue (rt : ConsensusRuntime) (env : Env) (now : ℕ) :
    ConsensusRuntime × Except String Bool :=
  let (rt, result) := rt.timeoutIfDueWithRoundChange env now
  (rt, result.map Prod.fst)

def forceTimeoutForTest (rt : ConsensusRuntime) : ConsensusRuntime × Except String ℕ :=
  let (consensus, result) := rt.consensus.onTimeout
  ({ rt with consensus, pending := none }, result.map fun _ => consensus.round)

/-! ## Finality -/

/-- Opens round zero of the height after the tip. -/
def openNextHeight (rt : ConsensusRuntime) (env : Env) :
    ConsensusRuntime × Except String Unit :=
  match rt.consensus.startRound (rt.chain.tipHeight + 1) 0 with
  | (consensus, .error e) => ({ rt with consensus }, .error e)
  | (consensus, .ok ()) => ({ rt with consensus }.clearHeight.resetDeadline env, .ok ())

/-- One certificate: known blocks are compared, the next one is applied. -/
def applySyncCertificate (rt : ConsensusRuntime) (env : Env) (certificate : FinalityCertificate) :
    Except String (ConsensusRuntime × Bool) := do
  certificate.verify rt.validators
  let next := rt.chain.tipHeight + 1
  if certificate.block.height < next then
    let canonical ← okOr (rt.chain.blockByHeight certificate.block.height)
      "기존 canonical 블록을 찾을 수 없습니다."
    reject (canonical.hash ≠ certificate.block.hash)
      ("확정성 위반: 높이 " ++ decimal certificate.block.height ++
        "에 서로 다른 2/3 인증서가 존재합니다.")
    pure (rt, false)
  else
    reject (certificate.block.height ≠ next) "동기화 응답에 블록 높이 공백이 있습니다."
    rt.validateScheduledBlock env.unixNow certificate.block
    let chain ← rt.chain.applyBlock certificate.block
    pure ({ rt with chain, finalized := rt.finalized ++ [certificate] }, true)

/-- The certificates in order. An error keeps the blocks applied before it. -/
def applySyncLoop (env : Env) : List FinalityCertificate → ConsensusRuntime → ℕ →
    ConsensusRuntime × Except String ℕ
  | [], rt, applied => (rt, .ok applied)
  | certificate :: rest, rt, applied =>
      match rt.applySyncCertificate env certificate with
      | .error e => (rt, .error e)
      | .ok (rt, isNew) => applySyncLoop env rest rt (if isNew then applied + 1 else applied)

def applySyncCertificates (rt : ConsensusRuntime) (env : Env)
    (certificates : List FinalityCertificate) : ConsensusRuntime × Except String ℕ :=
  match applySyncLoop env certificates rt 0 with
  | (rt, .error e) => (rt, .error e)
  | (rt, .ok applied) =>
      if applied = 0 then (rt, .ok 0)
      else
        let (rt, result) := rt.openNextHeight env
        (rt, result.map fun _ => applied)

/-- Blocks without certificates: known heights are skipped, and no new round is opened. -/
def applySyncBatch (env : Env) : List Block → ConsensusRuntime → ℕ →
    ConsensusRuntime × Except String ℕ
  | [], rt, applied => (rt, .ok applied)
  | block :: rest, rt, applied =>
      let next := rt.chain.tipHeight + 1
      if block.height < next then applySyncBatch env rest rt applied
      else if block.height ≠ next then (rt, .error "동기화 응답에 블록 높이 공백이 있습니다.")
      else
        match rt.validateScheduledBlock env.unixNow block with
        | .error e => (rt, .error e)
        | .ok () =>
            match rt.chain.applyBlock block with
            | .error e => (rt, .error e)
            | .ok chain => applySyncBatch env rest { rt with chain } (applied + 1)

/-- Certificates from the archive for blocks that the chain already has. -/
def importLoop : List FinalityCertificate → ConsensusRuntime → ℕ →
    ConsensusRuntime × Except String ℕ
  | [], rt, imported => (rt, .ok imported)
  | certificate :: rest, rt, imported =>
      match certificate.verify rt.validators with
      | .error e => (rt, .error e)
      | .ok () =>
          match rt.chain.blockByHeight certificate.block.height with
          | none => importLoop rest rt imported
          | some block =>
              if block.hash ≠ certificate.block.hash then
                (rt, .error "원장 블록과 확정 인증서 해시가 다릅니다.")
              else if ∃ known ∈ rt.finalized, known.block.height = certificate.block.height then
                importLoop rest rt imported
              else
                importLoop rest { rt with finalized := rt.finalized ++ [certificate] }
                  (imported + 1)

def importCertificateHistory (rt : ConsensusRuntime) (certificates : List FinalityCertificate) :
    ConsensusRuntime × Except String ℕ :=
  match importLoop certificates rt 0 with
  | (rt, .error e) => (rt, .error e)
  | (rt, .ok imported) =>
      ({ rt with
          finalized := rt.finalized.insertionSort fun a b => a.block.height ≤ b.block.height },
        .ok imported)

def advanceAfterFinalization (rt : ConsensusRuntime) (env : Env) :
    ConsensusRuntime × Except String Unit :=
  if rt.consensus.phase ≠ .finalized then
    (rt, .error "확정되지 않은 상태에서는 다음 높이로 이동할 수 없습니다.")
  else rt.openNextHeight env

/-- The chain that starts at a certified snapshot, or nothing for a height the chain already
has. -/
def restoreSnapshot (rt : ConsensusRuntime) (snapshot : StateSnapshot)
    (certificate : SnapshotCertificate) : Except String (Option Blockchain) := do
  certificate.verifySnapshot snapshot rt.validators
  reject (snapshot.chainId ≠ rt.chain.chainId ∨
      snapshot.genesisCommitment ≠ rt.chain.genesisCommitment)
    "다른 체인의 snapshot을 설치할 수 없습니다."
  if snapshot.height ≤ rt.chain.tipHeight then pure none
  else
    let chain ← Blockchain.fromSnapshotWithStaking snapshot
    reject (Blockchain.stateHash chain.toLedger ≠ snapshot.stateHash)
      "snapshot을 복원한 상태 루트가 인증 값과 다릅니다."
    pure (some chain)

def installCertifiedSnapshot (rt : ConsensusRuntime) (env : Env) (snapshot : StateSnapshot)
    (certificate : SnapshotCertificate) : ConsensusRuntime × Except String Unit :=
  match rt.restoreSnapshot snapshot certificate with
  | .error e => (rt, .error e)
  | .ok none => (rt, .ok ())
  | .ok (some chain) =>
      let rt := { rt with chain }
      match rt.consensus.startRound (snapshot.height + 1) 0 with
      | (consensus, .error e) => ({ rt with consensus }, .error e)
      | (consensus, .ok ()) =>
          (({ rt with consensus, deferredVotes := [] }.clearHeight).resetDeadline env, .ok ())

/-- A discovered validator set replaces the configured one before the first block. -/
def replaceBootstrapValidators (rt : ConsensusRuntime) (env : Env) (validators : List Validator) :
    ConsensusRuntime × Except String Unit :=
  if rt.chain.tipHeight ≠ 0 ∨ rt.pending.isSome then
    (rt, .error "제네시스 이후에는 epoch 변경 절차 없이 검증자 집합을 바꿀 수 없습니다.")
  else
    match BftConsensus.new validators with
    | .error e => (rt, .error e)
    | .ok consensus =>
        let rt := { rt with consensus := consensus.enterRound 1 0, validators }
        (rt.clearHeight.resetDeadline env, .ok ())

end

/-! ## Calls -/

inductive Call
  | makeProposal (block : Block)
  | receiveProposal (proposal : SignedProposal)
  | receiveVote (vote : ConsensusMessage)
  | deferVote (vote : ConsensusMessage)
  | replayDeferredVotes
  | receiveRoundChange (message : SignedRoundChange)
  | timeoutIfDueWithRoundChange (now : ℕ)
  | applySyncCertificates (certificates : List FinalityCertificate)
  | advanceAfterFinalization
  | restartPhaseTimeout (now : ℕ)
  | takeEvidence
  | takeFinalized

/-- The votes that a call hands out. -/
def repliedVotes : Except String (Option ConsensusMessage) → List ConsensusMessage
  | .ok (some vote) => [vote]
  | _ => []

section
variable [Crypto]

/-- The state after a call, and the votes that the call hands out for publication. -/
def run (rt : ConsensusRuntime) (env : Env) : Call → ConsensusRuntime × List ConsensusMessage
  | .makeProposal block => ((rt.makeProposal env block).1, [])
  | .receiveProposal p =>
      let (rt, result) := rt.receiveProposal env p
      (rt, repliedVotes (result.map some))
  | .receiveVote vote =>
      let (rt, result) := rt.receiveVote env vote
      (rt, repliedVotes result)
  | .deferVote vote => (rt.deferVote vote, [])
  | .replayDeferredVotes =>
      let (rt, result) := rt.replayDeferredVotes env
      (rt, match result with
        | .ok outbound => outbound
        | .error _ => [])
  | .receiveRoundChange m => ((rt.receiveRoundChange env m).1, [])
  | .timeoutIfDueWithRoundChange now => ((rt.timeoutIfDueWithRoundChange env now).1, [])
  | .applySyncCertificates certificates => ((rt.applySyncCertificates env certificates).1, [])
  | .advanceAfterFinalization => ((rt.advanceAfterFinalization env).1, [])
  | .restartPhaseTimeout now => (rt.restartPhaseTimeout now, [])
  | .takeEvidence => (rt.takeEvidence.1, [])
  | .takeFinalized => (rt.takeFinalized.1, [])

end

end ConsensusRuntime

end IeumChain
