import IeumChain.Library.ByteCodec
import IeumChain.Library.FiniteMap
import IeumChain.Library.MachineWords
import IeumChain.Library.Text

/-!
# The data model

Transactions, blocks, system events and the signed messages they carry, with the
byte strings that are hashed or signed. Amounts and counters are natural numbers;
where the width of the machine word matters, the operations state it. The
cryptographic packages are a parameter of the whole development.
-/
namespace IeumChain

open ByteCodec Text

abbrev Address := String

/-- The functions taken from cryptographic packages. A secp256k1 public key is
represented by its uncompressed encoding. -/
class Crypto where
  sha256 : Bytes → Bytes
  keccak256 : Bytes → Bytes
  ed25519KeyValid : Bytes → Bool
  ed25519Verify : Bytes → Bytes → Bytes → Bool
  secp256k1Key : Bytes → Option Bytes
  secp256k1SignatureValid : Bytes → Bool
  secp256k1Verify : Bytes → Bytes → Bytes → Bool
  secp256k1Recover : Bytes → Bytes → ℕ → Option Bytes
  peerIdOfPublicKey : Bytes → Option String
  peerKeyVerify : Bytes → Bytes → Bytes → Bool

inductive VoteType
  | prevote
  | precommit
  deriving Repr, DecidableEq

structure Validator where
  id : String
  votingPower : ℕ
  deriving Repr, DecidableEq

/-- A signed vote. -/
structure ConsensusMessage where
  height : ℕ
  round : ℕ
  validatorId : String
  voteType : VoteType
  blockHash : String
  signature : String
  deriving Repr, DecidableEq

/-- Two votes of one validator for the same height, round and step. -/
structure DoubleVoteEvidence where
  first : ConsensusMessage
  second : ConsensusMessage
  deriving Repr, DecidableEq

structure ValidatorRegistration where
  validatorId : String
  peerId : String
  signatureHex : String
  deriving Repr, DecidableEq

structure NodeRewardRegistration where
  rewardAddress : String
  peerId : String
  signatureHex : String
  registrationSigner : String
  nodePublicKeyHex : String
  nodeSignatureHex : String
  rewardSignatureHex : String
  deriving Repr, DecidableEq

structure NodeServiceAttestation where
  peerId : String
  rewardAddress : String
  epoch : ℕ
  observedAt : ℕ
  uptimeBps : ℕ
  networkGroup : String
  validatorId : String
  signatureHex : String
  deriving Repr, DecidableEq

structure EventPayment where
  address : Address
  amount : ℕ
  deriving Repr, DecidableEq

inductive ScheduledEventAction
  | treasuryDistribution (recipients : List EventPayment)
  | periodicProducerReward (producer : Address) (amount : ℕ)
  | incidentCompensation (incidentId : String) (victim : Address) (amount : ℕ)
  | protocolCheckpoint (protocolVersion : ℕ)
  | bootstrapValidatorReward (registrations : List ValidatorRegistration) (amount : ℕ)
  | nodeMilestoneReward (registrations : List NodeRewardRegistration) (amount : ℕ)
  | validatorDailyInterest (snapshotHeight : ℕ) (policyHash : String) (annualRateBps : ℕ)
      (payments : List EventPayment)
  | holderDailyReward (snapshotHeight : ℕ) (policyHash : String) (annualRateBps : ℕ)
      (payments : List EventPayment)
  | doubleVoteSlash (evidence : DoubleVoteEvidence) (penaltyBps : ℕ)
  | delegationDailyReward (snapshotHeight : ℕ) (policyHash : String) (annualRateBps : ℕ)
      (payments : List EventPayment)
  | nodeServiceDailyReward (snapshotHeight epoch : ℕ)
      (attestations : List NodeServiceAttestation) (payments : List EventPayment)
  deriving Repr, DecidableEq

structure ScheduledEvent where
  id : String
  executeAt : ℕ
  action : ScheduledEventAction
  deriving Repr, DecidableEq

inductive TransactionAction
  | transfer
  | delegate (validator : Address)
  | undelegate (validator : Address)
  | claimUnbonded
  deriving Repr, DecidableEq

/-- A user transaction; `sender` is the source's `from`. -/
structure Transaction where
  sender : Address
  receiver : Address
  amount : ℕ
  fee : ℕ
  nonce : ℕ
  action : TransactionAction
  signature : String
  deriving Repr, DecidableEq

structure Block where
  height : ℕ
  previousHash : String
  timestamp : ℕ
  producer : Address
  transactions : List Transaction
  systemEvents : List ScheduledEvent
  hash : String
  deriving Repr, DecidableEq

namespace TransactionAction

def isTransfer : TransactionAction → Bool
  | transfer => true
  | _ => false

def consensusBytes : TransactionAction → Bytes
  | transfer => [0]
  | delegate validator => 1 :: pushText validator
  | undelegate validator => 2 :: pushText validator
  | claimUnbonded => [3]

end TransactionAction

/-! ## JSON texts of the nested records -/

def VoteType.name : VoteType → String
  | .prevote => "Prevote"
  | .precommit => "Precommit"

def ConsensusMessage.json (m : ConsensusMessage) : Json :=
  jsonObject [("height", jsonNumber m.height), ("round", jsonNumber m.round),
    ("validator_id", jsonString m.validatorId), ("vote_type", jsonString m.voteType.name),
    ("block_hash", jsonString m.blockHash), ("signature", jsonString m.signature)]

def DoubleVoteEvidence.json (e : DoubleVoteEvidence) : Json :=
  jsonObject [("first", e.first.json), ("second", e.second.json)]

def ValidatorRegistration.json (r : ValidatorRegistration) : Json :=
  jsonObject [("validator_id", jsonString r.validatorId), ("peer_id", jsonString r.peerId),
    ("signature_hex", jsonString r.signatureHex)]

def NodeRewardRegistration.json (r : NodeRewardRegistration) : Json :=
  jsonObject [("reward_address", jsonString r.rewardAddress), ("peer_id", jsonString r.peerId),
    ("signature_hex", jsonString r.signatureHex),
    ("registration_signer", jsonString r.registrationSigner),
    ("node_public_key_hex", jsonString r.nodePublicKeyHex),
    ("node_signature_hex", jsonString r.nodeSignatureHex),
    ("reward_signature_hex", jsonString r.rewardSignatureHex)]

def NodeServiceAttestation.json (a : NodeServiceAttestation) : Json :=
  jsonObject [("peer_id", jsonString a.peerId), ("reward_address", jsonString a.rewardAddress),
    ("epoch", jsonNumber a.epoch), ("observed_at", jsonNumber a.observedAt),
    ("uptime_bps", jsonNumber a.uptimeBps), ("network_group", jsonString a.networkGroup),
    ("validator_id", jsonString a.validatorId), ("signature_hex", jsonString a.signatureHex)]

def EventPayment.json (p : EventPayment) : Json :=
  jsonObject [("address", jsonString p.address), ("amount", jsonDecimal p.amount)]

/-- The three daily reward events share their fields. -/
def dailyRewardJson (type : String) (snapshotHeight : ℕ) (policyHash : String)
    (annualRateBps : ℕ) (payments : List EventPayment) : Json :=
  jsonObject [("type", jsonString type), ("snapshot_height", jsonNumber snapshotHeight),
    ("policy_hash", jsonString policyHash), ("annual_rate_bps", jsonNumber annualRateBps),
    ("payments", jsonArray (payments.map EventPayment.json))]

def ScheduledEventAction.json : ScheduledEventAction → Json
  | treasuryDistribution recipients =>
      jsonObject [("type", jsonString "treasury_distribution"),
        ("recipients", jsonArray (recipients.map EventPayment.json))]
  | periodicProducerReward producer amount =>
      jsonObject [("type", jsonString "periodic_producer_reward"),
        ("producer", jsonString producer), ("amount", jsonDecimal amount)]
  | incidentCompensation incidentId victim amount =>
      jsonObject [("type", jsonString "incident_compensation"),
        ("incident_id", jsonString incidentId), ("victim", jsonString victim),
        ("amount", jsonDecimal amount)]
  | protocolCheckpoint protocolVersion =>
      jsonObject [("type", jsonString "protocol_checkpoint"),
        ("protocol_version", jsonNumber protocolVersion)]
  | bootstrapValidatorReward registrations amount =>
      jsonObject [("type", jsonString "bootstrap_validator_reward"),
        ("registrations", jsonArray (registrations.map ValidatorRegistration.json)),
        ("amount", jsonDecimal amount)]
  | nodeMilestoneReward registrations amount =>
      jsonObject [("type", jsonString "node_milestone_reward"),
        ("registrations", jsonArray (registrations.map NodeRewardRegistration.json)),
        ("amount", jsonDecimal amount)]
  | validatorDailyInterest snapshotHeight policyHash annualRateBps payments =>
      dailyRewardJson "validator_daily_interest" snapshotHeight policyHash annualRateBps payments
  | holderDailyReward snapshotHeight policyHash annualRateBps payments =>
      dailyRewardJson "holder_daily_reward" snapshotHeight policyHash annualRateBps payments
  | doubleVoteSlash evidence penaltyBps =>
      jsonObject [("type", jsonString "double_vote_slash"), ("evidence", evidence.json),
        ("penalty_bps", jsonNumber penaltyBps)]
  | delegationDailyReward snapshotHeight policyHash annualRateBps payments =>
      dailyRewardJson "delegation_daily_reward" snapshotHeight policyHash annualRateBps payments
  | nodeServiceDailyReward snapshotHeight epoch attestations payments =>
      jsonObject [("type", jsonString "node_service_daily_reward"),
        ("snapshot_height", jsonNumber snapshotHeight), ("epoch", jsonNumber epoch),
        ("attestations", jsonArray (attestations.map NodeServiceAttestation.json)),
        ("payments", jsonArray (payments.map EventPayment.json))]

/-- The event as the text whose bytes enter block hashes. -/
def ScheduledEvent.consensusText (e : ScheduledEvent) : String :=
  String.ofList (jsonObject [("id", jsonString e.id), ("execute_at", jsonNumber e.executeAt),
    ("action", e.action.json)])

def ScheduledEvent.consensusBytes (e : ScheduledEvent) : Bytes := utf8 e.consensusText

/-! ## Signed and hashed bytes -/

/-- The fields of a transaction in fixed order, each text with its length. -/
def Transaction.signingBytes (tx : Transaction) : Bytes :=
  pushText tx.sender ++ pushText tx.receiver ++ beBytes 16 tx.amount ++ beBytes 16 tx.fee ++
    beBytes 8 tx.nonce ++
    if tx.action.isTransfer then []
    else utf8 "IEUM-TX-ACTION-V1" ++ tx.action.consensusBytes

section
variable [Crypto]

def sha256Hex (bytes : Bytes) : String := hexEncode (Crypto.sha256 bytes)

def Transaction.id (tx : Transaction) : String :=
  sha256Hex (tx.signingBytes ++ utf8 tx.signature)

/-- What a block feeds into its hash: nothing separates the producer, the
transaction ids and the events. -/
def Block.hashPreimage (b : Block) : Bytes :=
  beBytes 8 b.height ++ utf8 b.previousHash ++ beBytes 8 b.timestamp ++ utf8 b.producer ++
    b.transactions.flatMap (fun tx => utf8 tx.id) ++
    b.systemEvents.flatMap (fun e => utf8 e.id ++ e.consensusBytes)

def Block.calculateHash (b : Block) : String := sha256Hex b.hashPreimage

def Block.sealed (b : Block) : Block := { b with hash := b.calculateHash }

/-- Block zero at the configured time. -/
def Block.genesisAt (timestamp : ℕ) : Block :=
  Block.sealed
    { height := 0, previousHash := String.ofList (List.replicate 64 '0'), timestamp
      producer := "genesis", transactions := [], systemEvents := [], hash := "" }

def Block.new (height : ℕ) (previousHash : String) (timestamp : ℕ) (producer : Address)
    (transactions : List Transaction) : Block :=
  Block.sealed
    { height, previousHash, timestamp, producer, transactions, systemEvents := [], hash := "" }

def Block.withSystemEvents (b : Block) (events : List ScheduledEvent) : Block :=
  Block.sealed { b with systemEvents := events }

end

theorem Block.new_hash [Crypto] (height : ℕ) (previousHash : String) (timestamp : ℕ)
    (producer : Address) (transactions : List Transaction) :
    (Block.new height previousHash timestamp producer transactions).hash =
      (Block.new height previousHash timestamp producer transactions).calculateHash := rfl

theorem Block.withSystemEvents_hash [Crypto] (b : Block) (events : List ScheduledEvent) :
    (b.withSystemEvents events).hash = (b.withSystemEvents events).calculateHash := rfl

end IeumChain
