import IeumChain.CrossChain
import IeumChain.NodeLoop
import IeumChain.SnapshotVotes
import IeumChain.TipQuorum

/-!
# How nodes sync

A node that is asked for blocks answers with certificates if it has all of them up to its
tip and the gap is small, and otherwise with a snapshot of its state. The one that asked
takes up a snapshot once enough validators have attested to it, and certificates once a
quorum of peers has reported a tip. It then asks for the height after its own tip.
-/
namespace IeumChain

open Text Outcome MachineWords FiniteMap

structure SyncResponse where
  tip : SyncTip
  certificates : List FinalityCertificate
  snapshot : Option StateSnapshot
  snapshotAttestation : Option SnapshotAttestation

/-- What the loop asks of the network. -/
inductive SyncCommand
  | requestSync (fromHeight : ℕ)
  | penalizePeer (peerId : String) (points : ℕ)
  deriving Repr, DecidableEq

def maxSyncBytes : ℕ := 1500000

def maxSyncCertificates : ℕ := 128

namespace ConsensusRuntime

/-- Takes certificates as long as their JSON fits, but at least one. -/
def selectWithin (size : FinalityCertificate → ℕ) :
    List FinalityCertificate → List FinalityCertificate → ℕ → List FinalityCertificate
  | [], selected, _ => selected
  | c :: rest, selected, bytes =>
      if selected ≠ [] ∧ maxSyncBytes < saturatingAdd u64Max bytes (size c) then selected
      else selectWithin size rest (selected ++ [c]) (saturatingAdd u64Max bytes (size c))

/-- What cannot be written as JSON counts as too large. -/
def certificatesFrom (jsonSize : FinalityCertificate → Option ℕ) (rt : ConsensusRuntime)
    (fromHeight : ℕ) : List FinalityCertificate :=
  selectWithin (fun c => (jsonSize c).getD (maxSyncBytes + 1))
    ((rt.finalized.filter fun c => fromHeight ≤ c.block.height).take maxSyncCertificates) [] 0

/-- Up to the first gap. -/
def contiguous : ℕ → List FinalityCertificate → List FinalityCertificate
  | _, [] => []
  | expected, c :: rest =>
      if c.block.height ≠ expected then []
      else c :: contiguous (saturatingAdd u64Max expected 1) rest

def contiguousCertificatesFrom (jsonSize : FinalityCertificate → Option ℕ) (rt : ConsensusRuntime)
    (fromHeight : ℕ) : List FinalityCertificate :=
  contiguous fromHeight (rt.certificatesFrom jsonSize fromHeight)

end ConsensusRuntime

section
variable [Crypto]

/-- The answer to a request for the blocks from a height on. -/
def ConsensusRuntime.syncRequested (rt : ConsensusRuntime) (env : Env)
    (jsonSize : FinalityCertificate → Option ℕ) (directSyncBlockLimit fromHeight : ℕ) :
    Except String SyncResponse := do
  let tipHeight := rt.chain.tipHeight
  let certificates := rt.contiguousCertificatesFrom jsonSize fromHeight
  let certificateTip := certificates.getLast?.map (·.block.height)
  let smallGap := tipHeight - (fromHeight - 1) ≤ directSyncBlockLimit
  let tip := ⟨tipHeight, rt.chain.tipHash, Blockchain.stateHash rt.chain.toLedger⟩
  if smallGap ∧ certificateTip = some tipHeight then
    pure { tip, certificates, snapshot := none, snapshotAttestation := none }
  else if fromHeight ≤ tipHeight then do
    let snapshot := StateSnapshot.fromChain rt.chain
    let attestation ← rt.signSnapshotAttestation env snapshot
    pure
      { tip, certificates := [], snapshot := some snapshot
        snapshotAttestation := some attestation }
  else pure { tip, certificates := [], snapshot := none, snapshotAttestation := none }

/-- The archive of the interface is taken to work. -/
def RpcState.installCertifiedSnapshot (s : RpcState) (snapshot : StateSnapshot)
    (certificate : SnapshotCertificate) : Except String RpcState := do
  certificate.verifySnapshot snapshot s.validators
  reject (snapshot.chainId ≠ s.chain.chainId ∨
      snapshot.genesisCommitment ≠ s.chain.genesisCommitment)
    "다른 체인의 snapshot을 RPC 상태에 설치할 수 없습니다."
  let chain ← Blockchain.fromSnapshotWithStaking snapshot
  reject (Blockchain.stateHash chain.toLedger ≠ snapshot.stateHash)
    "snapshot RPC 복원 상태 루트가 인증 값과 다릅니다."
  pure { s with chain }

end

namespace NodeLoop

/-- The node has learned of a height. -/
def beginSync (n : NodeLoop) (highest : ℕ) : NodeLoop :=
  let highest := max n.progress.highest highest
  { n with
    progress :=
      { current := n.rpc.chain.tipHeight, highest
        active := n.rpc.chain.tipHeight < highest } }

section
variable [Crypto]

def installCertifiedSnapshot (n : NodeLoop) (env : Env) (snapshot : StateSnapshot)
    (certificate : SnapshotCertificate) : Except String NodeLoop := do
  let rpc ← n.rpc.installCertifiedSnapshot snapshot certificate
  match n.consensus.installCertifiedSnapshot env snapshot certificate with
  | (_, .error e) => .error e
  | (consensus, .ok ()) =>
      pure { n with consensus, rpc, progress := n.progress.installed rpc.chain }

def adoptSnapshot (n : NodeLoop) (env : Env) (candidate : StateSnapshot)
    (certificate : SnapshotCertificate) : Except String NodeLoop :=
  if n.consensus.chain.tipHeight < candidate.height then
    n.installCertifiedSnapshot env candidate certificate
  else .ok n

/-- The node with a synced block, also behind its interface. -/
def withSynced (n : NodeLoop) (consensus : ConsensusRuntime) : NodeLoop :=
  { n with
    consensus, rpc := n.rpc.installFinalized consensus.chain
    progress := n.progress.installed consensus.chain }

/-- The certificates one by one. The first refusal ends it with a request for what is missing. -/
def applyCertificates (env : Env) :
    List FinalityCertificate → NodeLoop → ℕ → NodeLoop × ℕ × List SyncCommand
  | [], n, applied => (n, applied, [])
  | c :: rest, n, applied =>
      match n.consensus.applySyncCertificates env [c] with
      | (consensus, .ok 1) =>
          applyCertificates env rest (n.withSynced consensus) (applied + 1)
      | (consensus, .ok _) => applyCertificates env rest { n with consensus } applied
      | (consensus, .error _) =>
          ({ n with consensus }, applied, [.requestSync (consensus.chain.tipHeight + 1)])

end

end NodeLoop

/-- The loop of a node with what it has gathered from others about their tips. -/
structure SyncingNode where
  loop : NodeLoop
  syncQuorum : TipQuorum
  snapshotVotes : HashMap SnapshotKey (List SnapshotAttestation)
  snapshotCandidates : HashMap SnapshotKey StateSnapshot

inductive SyncEvent
  | node (event : NodeEvent)
  | syncReceived (source : String) (response : SyncResponse)
  | snapshotAttestationReceived (shelf : SnapshotShelf) (a : SnapshotAttestation)

namespace SyncingNode

def validators (s : SyncingNode) : List Validator := s.loop.consensus.validators

section
variable [Crypto]

/-- The snapshot is of the reported tip, and the attestation of the snapshot. -/
def matchesTip (tip : SyncTip) (snapshot : StateSnapshot) (a : SnapshotAttestation) : Bool :=
  snapshot.height = tip.height ∧ snapshot.blockHash = tip.blockHash ∧
    snapshot.stateHash = tip.stateRoot ∧ a.height = snapshot.height ∧
    a.blockHash = snapshot.blockHash ∧ a.stateRoot = snapshot.stateHash ∧ a.verify.isOk

/-- The first body for a key is kept until the votes for the key suffice. -/
def snapshotReceived (s : SyncingNode) (env : Env) (source : String) (tip : SyncTip)
    (snapshot : StateSnapshot) (a : SnapshotAttestation) :
    Except String (SyncingNode × List SyncCommand) :=
  if ¬matchesTip tip snapshot a ∨ ¬∃ validator ∈ s.validators, validator.id = a.validatorId then
    .ok (s, [.penalizePeer source 100])
  else do
    let key := (snapshot.height, snapshot.blockHash, snapshot.stateHash)
    let loop := s.loop.beginSync tip.height
    let candidates := orInsert s.snapshotCandidates key snapshot
    let known := getD s.snapshotVotes key []
    let votes := if ∃ vote ∈ known, vote.validatorId = a.validatorId then known else known ++ [a]
    let certificate ← SnapshotCertificate.fromAttestations votes
    let snapshotVotes := s.snapshotVotes.insert key votes
    match certificate.verify s.validators with
    | .error _ => pure ({ s with loop, snapshotVotes, snapshotCandidates := candidates }, [])
    | .ok () =>
        let candidate ← okOr (candidates.lookup key) "인증된 snapshot 본문을 찾을 수 없습니다."
        let loop ← loop.adoptSnapshot env candidate certificate
        let tipHeight := loop.consensus.chain.tipHeight
        pure
          ({ s with
              loop, snapshotVotes := retain (fun key => tipHeight < key.1) snapshotVotes
              snapshotCandidates := candidates.erase key },
            [.requestSync (tipHeight + 1)])

/-- The certificates of a response count once the quorum has agreed on a tip. -/
def certificatesReceived (s : SyncingNode) (env : Env) (source : String) (tip : SyncTip)
    (certificates : List FinalityCertificate) : Except String (SyncingNode × List SyncCommand) :=
  match s.syncQuorum.observe source tip with
  | (syncQuorum, none) => .ok ({ s with syncQuorum }, [])
  | (syncQuorum, some agreedTip) => do
      let (loop, applied, commands) :=
        NodeLoop.applyCertificates env certificates (s.loop.beginSync agreedTip.height) 0
      if 0 < applied then
        let chain := loop.consensus.chain
        reject (chain.tipHeight = agreedTip.height ∧
            (chain.tipHash ≠ agreedTip.blockHash ∨
              Blockchain.stateHash chain.toLedger ≠ agreedTip.stateRoot))
          "동기화 완료 상태가 피어 quorum의 tip/state root와 다릅니다."
        pure ({ s with loop, syncQuorum }, commands ++ [.requestSync (chain.tipHeight + 1)])
      else pure ({ s with loop, syncQuorum }, commands)

def syncReceived (s : SyncingNode) (env : Env) (source : String) (response : SyncResponse) :
    Except String (SyncingNode × List SyncCommand) :=
  match response.snapshot, response.snapshotAttestation with
  | some snapshot, some a => s.snapshotReceived env source response.tip snapshot a
  | _, _ => s.certificatesReceived env source response.tip response.certificates

def handle (settings : NodeSettings) (s : SyncingNode) :
    Env × SyncEvent → Except String SyncingNode
  | (env, .node event) => do
      let loop ← s.loop.handle settings (env, event)
      pure { s with loop }
  | (env, .syncReceived source response) => do
      let (s, _) ← s.syncReceived env source response
      pure s
  | (_, .snapshotAttestationReceived shelf a) => do
      let (snapshotVotes, _) ← onSnapshotAttestation shelf s.validators s.snapshotVotes a
      pure { s with snapshotVotes }

def run (settings : NodeSettings) (s : SyncingNode) (events : List (Env × SyncEvent)) :
    Except String SyncingNode :=
  events.foldlM (handle settings) s

end

end SyncingNode

end IeumChain
