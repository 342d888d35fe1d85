import IeumChain.ArrivalOrder
import IeumChain.PoolIndexes

/-!
# The main loop of a node

The loop joins the consensus state with the pool behind the RPC interface. Of a tick, the
first half leaves a round that is overdue and puts the transactions of its candidate back
into the pool; the second half lets a proposer take transactions out of the pool and
propose them. The other events come from the network and from RPC requests. An error that
a handler does not log ends the loop, and with it the node.
-/
namespace IeumChain

open Text Outcome MachineWords FiniteMap

/-- The newest protocol version of this program. -/
def supportedProtocolVersion : ℕ := 3

def UpgradeSchedule.ensureSupported (schedule : UpgradeSchedule) (height supported : ℕ) :
    Except String Unit :=
  let required := schedule.versionAt height
  reject (supported < required)
    ("높이 " ++ decimal height ++ "부터 프로토콜 v" ++ decimal required ++
      "이 필요합니다. 노드를 업그레이드하세요.")

namespace ConsensusRuntime

def pendingTransactions (rt : ConsensusRuntime) : List Transaction :=
  match rt.pending with
  | some block => block.transactions
  | none => []

def canMakeProposal (rt : ConsensusRuntime) : Bool :=
  rt.consensus.phase = .propose ∧ rt.validator = rt.consensus.expectedProposer

end ConsensusRuntime

/-- How the node was started. -/
structure NodeSettings where
  isClient : Bool
  localIsValidator : Bool
  blockInterval : ℕ

/-- How far behind the node takes itself to be. -/
structure SyncProgress where
  current : ℕ
  highest : ℕ
  active : Bool

/-- The node has put another chain behind its interface. -/
def SyncProgress.installed (p : SyncProgress) (chain : Blockchain) : SyncProgress :=
  { p with current := chain.tipHeight, active := chain.tipHeight < p.highest }

/-- What the loop keeps from one event to the next. -/
structure NodeLoop where
  consensus : ConsensusRuntime
  rpc : RpcState
  progress : SyncProgress
  observedTipHeight : ℕ
  nextBlockAt : ℕ
  consensusWasActive : Bool

/-- What a tick has gathered when it comes to propose: the events that are due, and the peers of
the validators if it has looked them up. -/
structure DueEvents where
  events : List ScheduledEvent
  validatorPeerIds : Option (Finset String)

inductive NodeEvent
  | timeoutTick
  | proposerTick (due : DueEvents)
  | submitted (tx : Transaction)
  | transactionReceived (tx : Transaction)
  | proposalReceived (p : SignedProposal)
  | consensusReceived (message : ConsensusMessage)
  | roundChangeReceived (message : SignedRoundChange)

namespace NodeLoop

def hasPendingTransactions (n : NodeLoop) : Bool := n.rpc.pool.transactions ≠ []

/-- The tip has moved since the last tick: the next block waits for its interval. -/
def observeTip (settings : NodeSettings) (n : NodeLoop) (env : Env) : NodeLoop :=
  if n.consensus.chain.tipHeight ≠ n.observedTipHeight then
    { n with
      observedTipHeight := n.consensus.chain.tipHeight
      nextBlockAt := env.instant + settings.blockInterval }
  else n

def consensusIsActive (settings : NodeSettings) (n : NodeLoop) : Bool :=
  settings.localIsValidator && (n.consensus.consensus.phase ≠ .propose || n.hasPendingTransactions)

/-- The consensus state when the tick asks for its timeout: an idle one starts its clock anew. -/
def awakened (n : NodeLoop) (env : Env) : ConsensusRuntime :=
  if n.consensusWasActive then n.consensus else n.consensus.restartPhaseTimeout env.instant

section
variable [Crypto]

/-- The first half of a tick. -/
def timeoutTick (settings : NodeSettings) (n : NodeLoop) (env : Env) : Except String NodeLoop :=
  let n := n.observeTip settings env
  let timedOutTransactions := n.consensus.pendingTransactions
  if n.consensusIsActive settings then
    match (n.awakened env).timeoutIfDueWithRoundChange env env.instant with
    | (_, .error e) => .error e
    | (consensus, .ok (true, _)) =>
        .ok { n with
          consensus, rpc := n.rpc.restoreTransactions timedOutTransactions
          consensusWasActive := true }
    | (consensus, .ok (false, _)) => .ok { n with consensus, consensusWasActive := true }
  else .ok { n with consensusWasActive := false }

/-- Stores are taken to work; otherwise the loop ends here. -/
def finalizeIfReady (n : NodeLoop) (env : Env) : Except String NodeLoop :=
  match n.consensus.takeFinalized with
  | (consensus, []) => .ok { n with consensus }
  | (consensus, certificates) =>
      let rpc := certificates.foldl (fun rpc _ => rpc.installFinalized consensus.chain) n.rpc
      let progress := certificates.foldl (fun p _ => p.installed consensus.chain) n.progress
      match consensus.advanceAfterFinalization env with
      | (_, .error e) => .error e
      | (consensus, .ok ()) => .ok { n with consensus, rpc, progress }

/-- The block for the drained transactions. -/
def newBlock (n : NodeLoop) (env : Env) (due : DueEvents) (pending : List Transaction) : Block :=
  (Block.new (n.consensus.chain.tipHeight + 1) n.consensus.chain.tipHash (env.unixNow.getD 0)
    n.consensus.validator pending).withSystemEvents due.events

/-- The proposer hears its own proposal and its own votes. -/
def propose (settings : NodeSettings) (n : NodeLoop) (env : Env) (due : DueEvents) :
    Except String NodeLoop :=
  let (rpc, pending) := n.rpc.drainTransactions 1000
  match n.consensus.makeProposal env (n.newBlock env due pending) with
  | (consensus, .error _) => .ok { n with consensus, rpc := rpc.restoreTransactions pending }
  | (consensus, .ok proposal) =>
      let n := { n with nextBlockAt := env.instant + settings.blockInterval }
      match consensus.receiveProposal env proposal with
      | (consensus, .error _) => .ok { n with consensus, rpc := rpc.restoreTransactions pending }
      | (consensus, .ok prevote) =>
          match consensus.receiveVote env prevote with
          | (_, .error e) => .error e
          | (consensus, .ok reply) =>
              match consensus.feedBack env reply with
              | (_, .error e) => .error e
              | (consensus, .ok ()) => { n with consensus, rpc }.finalizeIfReady env

/-- The node with what the tick has looked up. -/
def prepared (n : NodeLoop) (due : DueEvents) : NodeLoop :=
  match due.validatorPeerIds with
  | some validatorPeerIds => { n with consensus := { n.consensus with validatorPeerIds } }
  | none => n

def isDue (n : NodeLoop) (env : Env) (due : DueEvents) : Bool :=
  n.consensus.canMakeProposal && n.nextBlockAt ≤ env.instant &&
    (n.hasPendingTransactions || due.events ≠ [])

/-- The second half of a tick. -/
def proposerTick (settings : NodeSettings) (n : NodeLoop) (env : Env) (due : DueEvents) :
    Except String NodeLoop :=
  if !settings.isClient && settings.localIsValidator then do
    n.consensus.upgradeSchedule.ensureSupported
      (saturatingAdd u64Max n.consensus.chain.tipHeight 1) supportedProtocolVersion
    let n := n.prepared due
    if n.isDue env due then n.propose settings env due else pure n
  else .ok n

/-- A proposal that is refused is only logged. -/
def proposalReceived (n : NodeLoop) (env : Env) (p : SignedProposal) : Except String NodeLoop :=
  match n.consensus.receiveProposal env p with
  | (consensus, .error _) => .ok { n with consensus }
  | (consensus, .ok prevote) =>
      match consensus.receiveVote env prevote with
      | (_, .error e) => .error e
      | (consensus, .ok reply) =>
          match consensus.followUp env reply with
          | (_, .error e) => .error e
          | (consensus, .ok ()) => { n with consensus }.finalizeIfReady env

/-- New evidence goes to its store before the node looks whether it has finalized a block. -/
def consensusReceived (n : NodeLoop) (env : Env) (message : ConsensusMessage) :
    Except String NodeLoop :=
  match n.consensus.consensusReceived env message with
  | (_, .error e) => .error e
  | (consensus, .ok ()) => { n with consensus := consensus.takeEvidence.1 }.finalizeIfReady env

/-- Votes and proposals concern only validators. A request that submits a transaction ends in the
pool, whatever it has checked before. -/
def handle (settings : NodeSettings) (n : NodeLoop) : Env × NodeEvent → Except String NodeLoop
  | (env, .timeoutTick) => n.timeoutTick settings env
  | (env, .proposerTick due) => n.proposerTick settings env due
  | (_, .submitted tx) => .ok { n with rpc := { n.rpc with pool := n.rpc.pool.offer tx } }
  | (_, .transactionReceived tx) => .ok { n with rpc := n.rpc.restoreTransactions [tx] }
  | (env, .proposalReceived p) =>
      if !settings.isClient && settings.localIsValidator then n.proposalReceived env p else .ok n
  | (env, .consensusReceived message) =>
      if !settings.isClient && settings.localIsValidator then n.consensusReceived env message
      else .ok n
  | (env, .roundChangeReceived message) =>
      if !settings.isClient && settings.localIsValidator then
        .ok { n with consensus := (n.consensus.receiveRoundChange env message).1 }
      else .ok n

def run (settings : NodeSettings) (n : NodeLoop) (events : List (Env × NodeEvent)) :
    Except String NodeLoop :=
  events.foldlM (handle settings) n

end

end NodeLoop

end IeumChain
