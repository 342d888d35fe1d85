import IeumChain.Consensus
import IeumChain.Library.Journal
import IeumChain.Mempool

/-!
# The append-only stores

Finality certificates, evidence of double votes and a validator's own votes are each kept in a
file of JSON lines. Certificates are written unchecked and verified when they are read; the
other two are verified when written and again when read. The reader of a line is a parameter.
A file is the list of its bytes, empty while it is missing.
-/
namespace IeumChain

open ByteCodec Text Outcome FiniteMap JsonText Journal

/-! ## Records as JSON -/

def ScheduledEvent.json (e : ScheduledEvent) : Json :=
  jsonObject [("id", jsonString e.id), ("execute_at", jsonNumber e.executeAt),
    ("action", e.action.json)]

/-- The events are left out when there are none. -/
def Block.json (b : Block) : Json :=
  jsonObject <|
    [("height", jsonNumber b.height), ("previous_hash", jsonString b.previousHash),
      ("timestamp", jsonNumber b.timestamp), ("producer", jsonString b.producer),
      ("transactions", jsonArray (b.transactions.map Transaction.json))] ++
    (if b.systemEvents = [] then []
      else [("system_events", jsonArray (b.systemEvents.map ScheduledEvent.json))]) ++
    [("hash", jsonString b.hash)]

def FinalityCertificate.json (c : FinalityCertificate) : Json :=
  jsonObject [("block", c.block.json), ("round", jsonNumber c.round),
    ("precommits", jsonArray (c.precommits.map ConsensusMessage.json))]

/-- A line of the write-ahead log. -/
def walVoteJson (m : ConsensusMessage) : Json := jsonObject [("message", m.json)]

theorem ConsensusMessage.isJson (m : ConsensusMessage) : IsJson m.json :=
  isJson_object (by simp [isJson_number, isJson_string])

theorem DoubleVoteEvidence.isJson (e : DoubleVoteEvidence) : IsJson e.json :=
  isJson_object (by simp [ConsensusMessage.isJson])

theorem ScheduledEventAction.isJson (action : ScheduledEventAction) : IsJson action.json := by
  have hpayment : ∀ p : EventPayment, IsJson p.json := fun p =>
    isJson_object (by simp [isJson_string, isJson_decimal])
  have hvalidator : ∀ r : ValidatorRegistration, IsJson r.json := fun r =>
    isJson_object (by simp [isJson_string])
  have hnode : ∀ r : NodeRewardRegistration, IsJson r.json := fun r =>
    isJson_object (by simp [isJson_string])
  have hattestation : ∀ a : NodeServiceAttestation, IsJson a.json := fun a =>
    isJson_object (by simp [isJson_string, isJson_number])
  cases action <;> refine isJson_object ?_ <;>
    simp [isJson_string, isJson_number, isJson_decimal, isJson_map hpayment,
      isJson_map hvalidator, isJson_map hnode, isJson_map hattestation, DoubleVoteEvidence.isJson]

theorem Transaction.isJson (tx : Transaction) : IsJson tx.json := by
  have haction : IsJson tx.action.json := by
    cases tx.action <;> exact isJson_object (by simp [isJson_string])
  refine isJson_object ?_
  split_ifs <;> simp [isJson_string, isJson_number, isJson_decimal, haction]

theorem Block.isObject (b : Block) : IsObject b.json := by
  have hevent : ∀ e : ScheduledEvent, IsJson e.json := fun e =>
    isJson_object (by simp [isJson_string, isJson_number, ScheduledEventAction.isJson])
  refine isObject_jsonObject ?_
  split_ifs <;>
    simp [isJson_string, isJson_number, isJson_map Transaction.isJson, isJson_map hevent]

theorem Block.isJson (b : Block) : IsJson b.json := b.isObject.isJson

theorem FinalityCertificate.isObject (c : FinalityCertificate) : IsObject c.json :=
  isObject_jsonObject
    (by simp [Block.isJson, isJson_number, isJson_map ConsensusMessage.isJson])

theorem DoubleVoteEvidence.isObject (e : DoubleVoteEvidence) : IsObject e.json :=
  isObject_jsonObject (by simp [ConsensusMessage.isJson])

theorem isObject_walVoteJson (m : ConsensusMessage) : IsObject (walVoteJson m) :=
  isObject_jsonObject (by simp [ConsensusMessage.isJson])

/-! ## The stores -/

section
variable [Crypto]

namespace FinalityStore

def append (file : Bytes) (certificate : FinalityCertificate) : Bytes :=
  file ++ line FinalityCertificate.json certificate

/-- Neighbours of one height must carry the same block. -/
def checkPairs : List FinalityCertificate → Except String Unit
  | a :: b :: rest => do
      reject (a.block.height = b.block.height ∧ a.block.hash ≠ b.block.hash)
        ("확정성 위반: 높이 " ++ decimal a.block.height ++ "의 인증서 해시가 서로 다릅니다.")
      checkPairs (b :: rest)
  | _ => .ok ()

def addVerified (validators : List Validator) (certificates : List FinalityCertificate)
    (certificate : FinalityCertificate) : Except String (List FinalityCertificate) := do
  certificate.verify validators
  pure (certificates ++ [certificate])

def load (read : String → Except String FinalityCertificate) (file : Bytes)
    (validators : List Validator) : Except String (List FinalityCertificate) := do
  let certificates ← loadBytes read (addVerified validators)
    (fun row error => "확정 인증서 " ++ decimal row ++ "행 오류: " ++ error) [] file
  let sorted := certificates.insertionSort (·.block.height ≤ ·.block.height)
  checkPairs sorted
  pure sorted

end FinalityStore

namespace EvidenceStore

/-- Evidence of an offence that is known already is passed over. -/
def addVerified (evidence : List DoubleVoteEvidence) (item : DoubleVoteEvidence) :
    Except String (List DoubleVoteEvidence) := do
  item.verify
  pure (if item.id ∈ evidence.map DoubleVoteEvidence.id then evidence else evidence ++ [item])

def load (read : String → Except String DoubleVoteEvidence) (file : Bytes) :
    Except String (List DoubleVoteEvidence) :=
  loadText read addVerified
    (fun row error => "이중투표 증거 " ++ decimal row ++ "번째 줄 오류: " ++ error) [] file

/-- The file afterwards, and whether anything was written. -/
def append (read : String → Except String DoubleVoteEvidence) (file : Bytes)
    (evidence : DoubleVoteEvidence) : Except String (Bytes × Bool) := do
  evidence.verify
  let known ← load read file
  if evidence.id ∈ known.map DoubleVoteEvidence.id then pure (file, false)
  else pure (file ++ line DoubleVoteEvidence.json evidence, true)

end EvidenceStore

/-- The log of one validator's votes, with the votes signed so far. -/
structure ConsensusWal where
  file : Bytes
  signed : HashMap (ℕ × ℕ × VoteType) String

namespace ConsensusWal

def voteKey (m : ConsensusMessage) : ℕ × ℕ × VoteType := (m.height, m.round, m.voteType)

def addVerified (signed : HashMap (ℕ × ℕ × VoteType) String) (m : ConsensusMessage) :
    Except String (HashMap (ℕ × ℕ × VoteType) String) := do
  m.verify
  reject (∃ previous ∈ signed.lookup (voteKey m), previous ≠ m.blockHash)
    "WAL에서 과거 이중투표 기록을 발견했습니다."
  pure (signed.insert (voteKey m) m.blockHash)

def reload (read : String → Except String ConsensusMessage) (file : Bytes) :
    Except String (HashMap (ℕ × ℕ × VoteType) String) :=
  loadText read addVerified
    (fun row error => "WAL " ++ decimal row ++ "번째 줄 복구 실패: " ++ error) ∅ file

/-- Opens the log that the file holds. -/
def openFile (read : String → Except String ConsensusMessage) (file : Bytes) :
    Except String ConsensusWal := do
  let signed ← reload read file
  pure { file, signed }

def recordBeforeBroadcast (wal : ConsensusWal) (m : ConsensusMessage) :
    Except String ConsensusWal := do
  m.verify
  match wal.signed.lookup (voteKey m) with
  | some previous => do
      reject (previous ≠ m.blockHash) "WAL이 이중투표 서명을 차단했습니다."
      pure wal
  | none =>
      pure {
        file := wal.file ++ line walVoteJson m
        signed := wal.signed.insert (voteKey m) m.blockHash }

end ConsensusWal

end

end IeumChain
