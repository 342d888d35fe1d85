import IeumChain.Library.Outcome
import IeumChain.Model

/-!
# Signature checks

An account is an Ed25519 public key in hexadecimal, or a `0x` address derived from
a secp256k1 key. A transaction signed by an Ethereum wallet carries its raw form and
is checked elsewhere, against the chain identifier.
-/
namespace IeumChain

open ByteCodec Text Outcome

def trimHexMarkers (s : String) : String := String.ofList (trimPair '0' 'x' s.toList)

/-- Encoded bytes have no marker to lose. -/
theorem trimHexMarkers_hexEncode (bytes : Bytes) :
    trimHexMarkers (hexEncode bytes) = hexEncode bytes := by
  have hmarker : 'x' ∉ hexChars bytes := by
    intro hx
    obtain ⟨n, hn, heq⟩ := mem_hexChars hx
    exact (hexDigit_ne hn).2 heq.symm
  rw [trimHexMarkers, hexEncode, String.toList_ofList, trimPair_of_notMem hmarker]

theorem trimHexMarkers_trimHexMarkers (s : String) :
    trimHexMarkers (trimHexMarkers s) = trimHexMarkers s := by
  rw [trimHexMarkers, trimHexMarkers, String.toList_ofList, trimPair_trimPair]

def normalizeAddress (address : String) : String := "0x" ++ lowercase (trimHexMarkers address)

variable [Crypto]

/-- Ed25519 verification with the public key taken from the address. -/
def verifySignature (address : String) (message : Bytes) (signature : String) :
    Except String Unit := do
  let key ← okOr (hexDecode address) "보내는 주소가 hex 문자열이 아닙니다."
  reject (key.length ≠ 32) "보내는 주소 길이가 잘못되었습니다."
  let sig ← okOr (hexDecode signature) "서명이 hex 문자열이 아닙니다."
  reject (sig.length ≠ 64) "서명 길이가 잘못되었습니다."
  reject (¬Crypto.ed25519KeyValid key) "공개키가 잘못되었습니다."
  reject (¬Crypto.ed25519Verify key message sig) "전자서명이 일치하지 않습니다."

theorem verifySignature_eq_ok {address : String} {message : Bytes} {signature : String} :
    verifySignature address message signature = .ok () ↔
      ∃ key sig, hexDecode address = some key ∧ key.length = 32 ∧
        hexDecode signature = some sig ∧ sig.length = 64 ∧
        Crypto.ed25519KeyValid key ∧ Crypto.ed25519Verify key message sig := by
  simp only [verifySignature, bind_eq_ok, okOr_eq_ok, reject_eq_ok, not_not]
  constructor
  · rintro ⟨key, hkey, -, hlen, sig, hsig, -, hsiglen, -, hvalid, hverify⟩
    exact ⟨key, sig, hkey, hlen, hsig, hsiglen, hvalid, hverify⟩
  · rintro ⟨key, sig, hkey, hlen, hsig, hsiglen, hvalid, hverify⟩
    exact ⟨key, hkey, (), hlen, sig, hsig, (), hsiglen, (), hvalid, hverify⟩

/-- The last twenty bytes of the hashed point, without its leading tag. -/
def ethereumAddress (key : Bytes) : String :=
  "0x" ++ hexEncode ((Crypto.keccak256 (key.drop 1)).drop 12)

/-- The signature carries the public key; the address must be derived from that key. -/
def verifyAccountSignature (address : String) (message : Bytes) (encodedSignature : String) :
    Except String Unit := do
  let bytes ← okOr (hexDecode encodedSignature) "서명이 hex 문자열이 아닙니다."
  reject (bytes.length ≠ 129) "secp256k1 서명은 공개키 65바이트와 서명 64바이트여야 합니다."
  let key ← okOr (Crypto.secp256k1Key (bytes.take 65)) "secp256k1 공개키가 잘못되었습니다."
  reject (ethereumAddress key ≠ normalizeAddress address)
    "서명 공개키에서 계산한 Ethereum 주소가 보내는 주소와 다릅니다."
  reject (¬Crypto.secp256k1SignatureValid (bytes.drop 65)) "ECDSA 서명이 잘못되었습니다."
  reject (¬Crypto.secp256k1Verify key message (bytes.drop 65)) "전자서명이 일치하지 않습니다."

def ethrawMarker : String := "ethraw:"

/-- Raw Ethereum transactions pass here; the ledger checks them with its chain identifier. -/
def verifyTransaction (tx : Transaction) : Except String Unit :=
  if startsWith tx.signature ethrawMarker then .ok ()
  else if startsWith tx.sender "0x" then
    verifyAccountSignature tx.sender tx.signingBytes tx.signature
  else verifySignature tx.sender tx.signingBytes tx.signature

/-! ## Registrations and attestations -/

def ValidatorRegistration.bytesToSign (validatorId peerId : String) : Bytes :=
  utf8 ("ieum-validator-registration-v1:" ++ validatorId ++ ":" ++ peerId)

namespace NodeRewardRegistration

def signer (r : NodeRewardRegistration) : String :=
  if r.registrationSigner = "" then r.rewardAddress else r.registrationSigner

def bytesToSign (rewardAddress peerId : String) : Bytes :=
  utf8 ("ieum-node-reward-registration-v1:" ++ rewardAddress ++ ":" ++ peerId)

/-- The peer identifier belongs to the node key, and that key signed the registration. -/
def verifyNodeIdentity (r : NodeRewardRegistration) : Except String Unit := do
  let publicKey ← okOr (hexDecode r.nodePublicKeyHex) "노드 공개키 hex 오류"
  let expectedPeerId ← okOr (Crypto.peerIdOfPublicKey publicKey) "노드 공개키 형식 오류"
  reject (expectedPeerId ≠ r.peerId) "노드 공개키에서 계산한 PeerId가 등록 PeerId와 다릅니다."
  let signature ← okOr (hexDecode r.nodeSignatureHex) "노드 서명 hex 오류"
  reject (¬Crypto.peerKeyVerify publicKey (bytesToSign r.rewardAddress r.peerId) signature)
    "PeerId 개인키 소유권 서명이 올바르지 않습니다."

end NodeRewardRegistration

/-- A `0x` address of twenty bytes in hexadecimal. -/
def isAccountAddress (address : String) : Bool :=
  startsWith address "0x" ∧ address.utf8ByteSize = 42 ∧ (address.toList.drop 2).all isHexDigit

/-- A public key of 32 bytes in hexadecimal. -/
def isPublicKeyHex (address : String) : Bool :=
  address.utf8ByteSize = 64 ∧ allChars isHexDigit address

end IeumChain
