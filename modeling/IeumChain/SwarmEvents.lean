import IeumChain.Communication
import IeumChain.PeerGuard
import IeumChain.SyncLoop

/-!
# What comes in from the network

The task that owns the network hands messages on to the node. It drops what blocked peers
send, keeps the scores of all peers, and holds the channels on which peers wait for a direct
answer to a request for blocks.
-/
namespace IeumChain

open ByteCodec Outcome FiniteMap

structure DirectSyncResponse where
  responder : String
  response : SyncResponse

/-- What the node hears from the network, as far as it depends on scores and channels. -/
inductive NetworkEvent
  | blockReceived (source : String) (block : Block)
  | transactionReceived (source : String) (transaction : Transaction)
  | consensusReceived (source : String) (message : ConsensusMessage)
  | roundChangeReceived (source : String) (message : SignedRoundChange)
  | proposalReceived (source : String) (proposal : SignedProposal)
  | evidenceReceived (source : String) (evidence : DoubleVoteEvidence)
  | validatorRegistrationReceived (source : String) (registration : ValidatorRegistration)
  | nodeRewardRegistrationReceived (source : String) (registration : NodeRewardRegistration)
  | nodeServiceAttestationReceived (source : String) (attestation : NodeServiceAttestation)
  | updateAvailableReceived (source version : String)
  | syncRequested (source requester : String) (fromHeight : ℕ)
  | syncReceived (source : String) (response : SyncResponse)
  | snapshotAttestationReceived (source : String) (attestation : SnapshotAttestation)
  | communicationReceived (source : String) (envelope : CommunicationEnvelope)

/-- Events of the swarm and commands of the node. Channels are named by numbers. A communication
comes with the time of the system's clock, and with whether it can still be acknowledged. -/
inductive SwarmInput
  | gossip (propagationSource : String) (source : Option String) (topic : String) (data : Bytes)
  | syncRequest (peer : String) (channel fromHeight : ℕ)
  | syncResponse (peer : String) (response : DirectSyncResponse)
  | syncInboundFailure (peer : String)
  | communicationRequest (peer : String) (envelope : CommunicationEnvelope) (clock : ℕ)
      (alive : Bool)
  | communicationInboundFailure (peer : String)
  | respondSync (requester : String) (response : SyncResponse)
  | penalizePeer (peer : String) (points : ℤ)

inductive SwarmOutput
  | event (event : NetworkEvent)
  | disconnect (peer : String)
  | answer (channel : ℕ) (response : DirectSyncResponse)
  | acknowledge (messageId : String) (accepted : Bool)
  | publish (message : WireMessage)
  | logError (text : String)

def validateDirectCommunication (localPeerId source : String) (envelope : CommunicationEnvelope)
    (now : ℕ) : Except String Unit := do
  reject (envelope.targetPeerId ≠ localPeerId) "통신 메시지 대상 PeerId가 현재 노드와 다릅니다."
  reject (envelope.senderPeerId ≠ source) "통신 메시지 발신 PeerId가 실제 연결과 다릅니다."
  envelope.validate now

/-- The parts of the task that stay as they are. -/
structure SwarmSettings where
  codec : WireCodec
  localPeerId : String
  maxMessageBytes : ℕ
  /-- Reads the text form of a peer id. -/
  parsePeerId : String → Option String

structure Swarm where
  guard : PeerGuard
  pendingSyncResponses : HashMap String (List ℕ)

namespace Swarm

def start (banDuration : ℕ) : Swarm :=
  { guard := PeerGuard.new banDuration, pendingSyncResponses := ∅ }

/-- A message that has been read, on its way to the node. -/
def received (settings : SwarmSettings) (s : Swarm) (now : ℕ)
    (propagationSource messageSource : String) : WireMessage → Swarm × List SwarmOutput
  | .block block => (s, [.event (.blockReceived propagationSource block)])
  | .transaction transaction => (s, [.event (.transactionReceived propagationSource transaction)])
  | .consensus message => (s, [.event (.consensusReceived propagationSource message)])
  | .roundChange message => (s, [.event (.roundChangeReceived propagationSource message)])
  | .proposal proposal => (s, [.event (.proposalReceived propagationSource proposal)])
  | .evidence evidence => (s, [.event (.evidenceReceived propagationSource evidence)])
  | .validatorRegistration registration =>
      (s, [.event (.validatorRegistrationReceived propagationSource registration)])
  | .nodeRewardRegistration registration =>
      (s, [.event (.nodeRewardRegistrationReceived messageSource registration)])
  | .nodeServiceAttestation attestation =>
      (s, [.event (.nodeServiceAttestationReceived propagationSource attestation)])
  | .updateAvailable version => (s, [.event (.updateAvailableReceived propagationSource version)])
  | .syncRequest requester fromHeight =>
      (s, [.event (.syncRequested propagationSource requester fromHeight)])
  | .syncResponse requester responder tip certificates =>
      if requester ≠ settings.localPeerId then (s, [])
      else if responder ≠ messageSource then
        ({ s with guard := (s.guard.penalize now messageSource 100).1 },
          [.logError "[P2P 동기화 응답 거부] 서명 발신자와 responder PeerId가 다릅니다."])
      else
        (s, [.event (.syncReceived messageSource
          { tip, certificates, snapshot := none, snapshotAttestation := none })])
  | .snapshotAttestation attestation =>
      (s, [.event (.snapshotAttestationReceived propagationSource attestation)])

def onGossip (settings : SwarmSettings) (s : Swarm) (now : ℕ) (propagationSource : String)
    (source : Option String) (topic : String) (data : Bytes) : Swarm × List SwarmOutput :=
  let messageSource := source.getD propagationSource
  let (guard, decision) := s.guard.check now propagationSource
  match handleGossip settings.codec (decision = .temporarilyBlocked) messageSource topic
      settings.maxMessageBytes data with
  | .ignored => ({ s with guard }, [])
  | .disconnected points error =>
      ({ s with guard := (guard.penalize now propagationSource points).1 },
        [.disconnect propagationSource, .logError error])
  | .penalized points error =>
      ({ s with guard := (guard.penalize now propagationSource points).1 }, [.logError error])
  | .rewarded message =>
      received settings { s with guard := guard.reward propagationSource } now propagationSource
        messageSource message

def onSyncRequest (s : Swarm) (now : ℕ) (peer : String) (channel fromHeight : ℕ) :
    Swarm × List SwarmOutput :=
  let (guard, decision) := s.guard.check now peer
  if decision = .temporarilyBlocked then ({ s with guard }, [])
  else
    let waiting := getD s.pendingSyncResponses peer []
    ({ guard, pendingSyncResponses := s.pendingSyncResponses.insert peer (waiting ++ [channel]) },
      [.event (.syncRequested peer peer fromHeight)])

/-- An answer is taken from whoever gives it. -/
def onSyncResponse (s : Swarm) (now : ℕ) (peer : String) (response : DirectSyncResponse) :
    Swarm × List SwarmOutput :=
  if response.responder ≠ peer then
    ({ s with guard := (s.guard.penalize now peer 100).1 },
      [.logError "[동기화 직접 응답 거부] 연결 PeerId와 responder가 다릅니다."])
  else
    ({ s with guard := s.guard.reward peer }, [.event (.syncReceived peer response.response)])

def onCommunicationRequest (settings : SwarmSettings) (s : Swarm) (now : ℕ) (peer : String)
    (envelope : CommunicationEnvelope) (clock : ℕ) (alive : Bool) : Swarm × List SwarmOutput :=
  let (guard, decision) := s.guard.check now peer
  if decision = .temporarilyBlocked then ({ s with guard }, [])
  else
    let accepted := (validateDirectCommunication settings.localPeerId peer envelope clock).isOk
    let guard := if accepted then guard.reward peer else (guard.penalize now peer 50).1
    if ¬alive then ({ s with guard }, [.logError "통신 신호 응답 전송에 실패했습니다."])
    else
      ({ s with guard }, .acknowledge envelope.id accepted ::
        if accepted then [.event (.communicationReceived peer envelope)] else [])

/-- The oldest channel of the one that asked gets the answer, and everyone hears it, too. -/
def onRespondSync (settings : SwarmSettings) (s : Swarm) (requester : String)
    (response : SyncResponse) : Swarm × List SwarmOutput :=
  let published := [.publish (.syncResponse requester settings.localPeerId response.tip
    response.certificates)]
  match settings.parsePeerId requester with
  | none => (s, published)
  | some peer =>
      match getD s.pendingSyncResponses peer [] with
      | [] => ({ s with pendingSyncResponses := s.pendingSyncResponses.erase peer }, published)
      | channel :: rest =>
          ({ s with
              pendingSyncResponses :=
                if rest = [] then s.pendingSyncResponses.erase peer
                else s.pendingSyncResponses.insert peer rest },
            .answer channel { responder := settings.localPeerId, response } :: published)

def onPenalizePeer (s : Swarm) (now : ℕ) (peer : String) (points : ℤ) :
    Swarm × List SwarmOutput :=
  let (guard, decision) := s.guard.penalize now peer points
  ({ s with guard }, if decision = .temporarilyBlocked then [.disconnect peer] else [])

def handle (settings : SwarmSettings) (s : Swarm) :
    ℕ × SwarmInput → Swarm × List SwarmOutput
  | (now, .gossip propagationSource source topic data) =>
      s.onGossip settings now propagationSource source topic data
  | (now, .syncRequest peer channel fromHeight) => s.onSyncRequest now peer channel fromHeight
  | (now, .syncResponse peer response) => s.onSyncResponse now peer response
  | (_, .syncInboundFailure peer) =>
      ({ s with pendingSyncResponses := s.pendingSyncResponses.erase peer }, [])
  | (now, .communicationRequest peer envelope clock alive) =>
      s.onCommunicationRequest settings now peer envelope clock alive
  | (now, .communicationInboundFailure peer) =>
      ({ s with guard := (s.guard.penalize now peer 25).1 }, [])
  | (_, .respondSync requester response) => s.onRespondSync settings requester response
  | (now, .penalizePeer peer points) => s.onPenalizePeer now peer points

def run (settings : SwarmSettings) (s : Swarm) (inputs : List (ℕ × SwarmInput)) : Swarm :=
  inputs.foldl (fun s i => (s.handle settings i).1) s

/-- What each input of a run gives in the state it finds. -/
def along {β : Type} (settings : SwarmSettings) (f : Swarm → ℕ × SwarmInput → List β) :
    Swarm → List (ℕ × SwarmInput) → List β
  | _, [] => []
  | s, i :: rest => f s i ++ along settings f (s.handle settings i).1 rest

def outputs (settings : SwarmSettings) (s : Swarm) (inputs : List (ℕ × SwarmInput)) :
    List SwarmOutput :=
  s.along settings (fun s i => (s.handle settings i).2) inputs

theorem run_concat (settings : SwarmSettings) (s : Swarm) (inputs : List (ℕ × SwarmInput))
    (i : ℕ × SwarmInput) :
    s.run settings (inputs ++ [i]) = ((s.run settings inputs).handle settings i).1 := by
  rw [run, List.foldl_concat, ← run]

theorem along_append {β : Type} (settings : SwarmSettings) (f : Swarm → ℕ × SwarmInput → List β)
    (s : Swarm) (u v : List (ℕ × SwarmInput)) :
    s.along settings f (u ++ v) = s.along settings f u ++ (s.run settings u).along settings f v := by
  induction u generalizing s with
  | nil => rfl
  | cons i rest ih =>
      rw [List.cons_append, along, ih, along, List.append_assoc]
      rfl

theorem along_concat {β : Type} (settings : SwarmSettings) (f : Swarm → ℕ × SwarmInput → List β)
    (s : Swarm) (inputs : List (ℕ × SwarmInput)) (i : ℕ × SwarmInput) :
    s.along settings f (inputs ++ [i]) =
      s.along settings f inputs ++ f (s.run settings inputs) i := by
  rw [along_append, along, along, List.append_nil]

theorem mem_along {β : Type} {settings : SwarmSettings} {f : Swarm → ℕ × SwarmInput → List β}
    {s : Swarm} {inputs : List (ℕ × SwarmInput)} {b : β} (h : b ∈ s.along settings f inputs) :
    ∃ s', ∃ i ∈ inputs, b ∈ f s' i := by
  induction inputs generalizing s with
  | nil => cases h
  | cons i rest ih =>
      rw [along, List.mem_append] at h
      rcases h with h | h
      · exact ⟨s, i, List.mem_cons_self, h⟩
      · obtain ⟨s', j, hj, hb⟩ := ih h
        exact ⟨s', j, List.mem_cons_of_mem i hj, hb⟩

end Swarm

end IeumChain
