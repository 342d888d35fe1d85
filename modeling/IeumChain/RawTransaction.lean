import IeumChain.Wallet

/-!
# Ethereum raw transactions

An EIP-155 legacy transaction is a list of nine RLP items. The sender is recovered
from the signature over the re-encoded fields, and staking commands are texts sent
to the staking system address.
-/
namespace IeumChain.RawTransaction

open ByteCodec Text Outcome MachineWords

def stakingSystemAddress : String := "0x0000000000000000000000000000000000021004"

/-- Accepts a public key of 32 bytes in hexadecimal. -/
def validateValidator (validator : String) : Except String Unit :=
  reject (¬isPublicKeyHex validator) "이음지기 주소는 32바이트 공개키 hex여야 합니다."

/-! ## RLP -/

def beValue (bytes : Bytes) : ℕ := bytes.foldl (fun acc b => acc * 256 + b.toNat) 0

def readLength (input : Bytes) (start width : ℕ) : Except String ℕ := do
  reject (width = 0 ∨ 8 < width ∨ input.length < start + width) "RLP 길이 필드가 잘못되었습니다."
  pure (beValue ((input.drop start).take width))

/-- The payload of the first item and the number of bytes it takes. -/
def decodeItem (input : Bytes) (requireList : Bool) : Except String (Bytes × ℕ) := do
  let first ← okOr input.head? "빈 RLP입니다."
  let tag := first.toNat
  let (isList, start, length) ←
    if tag ≤ 0x7f then pure (false, 0, 1)
    else if tag ≤ 0xb7 then pure (false, 1, tag - 0x80)
    else if tag ≤ 0xbf then do
      let length ← readLength input 1 (tag - 0xb7)
      pure (false, 1 + (tag - 0xb7), length)
    else if tag ≤ 0xf7 then pure (true, 1, tag - 0xc0)
    else do
      let length ← readLength input 1 (tag - 0xf7)
      pure (true, 1 + (tag - 0xf7), length)
  reject (requireList ≠ isList) "예상한 RLP 항목 종류와 다릅니다."
  let stop ← okOr (checkedAdd u64Max start length) "RLP 길이가 넘쳤습니다."
  reject (input.length < stop) "RLP 길이가 실제 데이터보다 큽니다."
  pure ((input.take stop).drop start, stop)

/-- Reads items until the payload is used up; every item takes at least one byte. -/
def decodeItems : ℕ → Bytes → Except String (List Bytes)
  | _, [] => .ok []
  | 0, _ :: _ => .ok []
  | fuel + 1, payload@(_ :: _) => do
      let (value, size) ← decodeItem payload false
      let rest ← decodeItems fuel (payload.drop size)
      pure (value :: rest)

def decodeList (input : Bytes) : Except String (List Bytes) := do
  let (payload, consumed) ← decodeItem input true
  reject (consumed ≠ input.length) "RLP 목록 뒤에 불필요한 바이트가 있습니다."
  decodeItems payload.length payload

def dropZeros : Bytes → Bytes
  | [] => []
  | b :: rest => if b = 0 then dropZeros rest else b :: rest

def encodeLength (length shortBase longBase : ℕ) : Bytes :=
  if length ≤ 55 then [UInt8.ofNat (shortBase + length)]
  else
    let encoded := dropZeros (beBytes 8 length)
    UInt8.ofNat (longBase + encoded.length) :: encoded

def encodeBytes (value : Bytes) : Bytes :=
  match value with
  | [b] => if b.toNat < 0x80 then [b] else encodeLength 1 0x80 0xb7 ++ [b]
  | _ => encodeLength value.length 0x80 0xb7 ++ value

/-- Both integer encoders of the source: leading zero bytes are dropped. -/
def encodeNat (width value : ℕ) : Bytes := encodeBytes (dropZeros (beBytes width value))

def encodeU64 (value : ℕ) : Bytes := encodeNat 8 value
def encodeU128 (value : ℕ) : Bytes := encodeNat 16 value

def encodeList (items : List Bytes) : Bytes :=
  encodeLength items.flatten.length 0xc0 0xf7 ++ items.flatten

/-! ## Field values -/

def valueNat (width : ℕ) (word : String) (value : Bytes) (name : String) : Except String ℕ := do
  reject (width < value.length) (name ++ "이 " ++ word ++ " 범위를 벗어났습니다.")
  pure (beValue value)

def valueU64 (value : Bytes) (name : String) : Except String ℕ := valueNat 8 "u64" value name
def valueU128 (value : Bytes) (name : String) : Except String ℕ := valueNat 16 "u128" value name

def paddedScalar (value : Bytes) (name : String) : Except String Bytes := do
  reject (32 < value.length) ("서명 " ++ name ++ "이 32바이트를 넘습니다.")
  pure (List.replicate (32 - value.length) 0 ++ value)

def decodeAction (receiver data : Bytes) : Except String TransactionAction := do
  if data = [] then pure .transfer
  else
    reject ("0x" ++ hexEncode receiver ≠ stakingSystemAddress)
      "EVM calldata는 스테이킹 시스템 주소에서만 지원합니다."
    let text ← okOr (String.fromUTF8? ⟨data.toArray⟩) "스테이킹 calldata는 UTF-8이어야 합니다."
    if text = "claim" then pure .claimUnbonded
    else
      match stripStart text "delegate:", stripStart text "undelegate:" with
      | some v, _ => do
          validateValidator v
          pure (.delegate v)
      | none, some v => do
          validateValidator v
          pure (.undelegate v)
      | none, none => .error "지원하지 않는 스테이킹 calldata입니다."

section
variable [Crypto]

/-- The nine fields of a legacy transfer, in the order of the list. -/
def decodeFields (raw : Bytes) (fields : List Bytes) (expectedChainId : ℕ) :
    Except String Transaction := do
  match fields with
  | [f0, f1, f2, f3, f4, f5, f6, f7, f8] => do
      let nonce ← valueU64 f0 "nonce"
      let gasPrice ← valueU64 f1 "gasPrice"
      let gasLimit ← valueU64 f2 "gasLimit"
      reject (f3.length ≠ 20) "현재는 20바이트 수신 주소 송금만 지원합니다."
      let amount ← valueU128 f4 "value"
      let action ← decodeAction f3 f5
      let v ← valueU64 f6 "v"
      reject (v < 35) "EIP-155 체인 ID가 없는 거래는 재생 공격 방지를 위해 거부합니다."
      let chainId := (v - 35) / 2
      reject (chainId ≠ expectedChainId)
        ("체인 ID 불일치: 기대 " ++ decimal expectedChainId ++ ", 입력 " ++ decimal chainId)
      let r ← paddedScalar f7 "r"
      let s ← paddedScalar f8 "s"
      reject (¬Crypto.secp256k1SignatureValid (r ++ s)) "ECDSA r/s가 잘못되었습니다."
      let signing := encodeList [encodeU64 nonce, encodeU64 gasPrice, encodeU64 gasLimit,
        encodeBytes f3, encodeU128 amount, encodeBytes f5, encodeU64 chainId,
        encodeBytes [], encodeBytes []]
      let key ← okOr (Crypto.secp256k1Recover (Crypto.keccak256 signing) (r ++ s) ((v - 35) % 2))
        "raw transaction 서명에서 공개키를 복구하지 못했습니다."
      let fee ← okOr (checkedMul u128Max gasPrice gasLimit)
        "gasPrice와 gasLimit의 곱이 u128 범위를 넘습니다."
      pure
        { sender := ethereumAddress key, receiver := "0x" ++ hexEncode f3, amount, fee, nonce
          action, signature := ethrawMarker ++ hexEncode raw }
  | _ => .error "v0.0.4는 EIP-155 legacy RLP 거래만 지원합니다."

def decodeLegacy (rawHex : String) (expectedChainId : ℕ) : Except String Transaction := do
  let raw ← okOr (hexDecode (trimHexMarkers rawHex)) "raw transaction이 올바른 hex가 아닙니다."
  let fields ← decodeList raw
  decodeFields raw fields expectedChainId

/-- The ledger transaction must be the one its raw form decodes to. -/
def verifyEmbedded (tx : Transaction) (expectedChainId : ℕ) : Except String Unit := do
  let raw ← okOr (stripStart tx.signature ethrawMarker)
    "Ethereum raw transaction 표식이 없습니다."
  let bytes ← okOr (hexDecode raw) "raw transaction이 올바른 hex가 아닙니다."
  let fields ← decodeList bytes
  reject (fields.length ≠ 9) "legacy RLP 거래 필드 수가 9개가 아닙니다."
  let v ← valueU64 (fields.getD 6 []) "v"
  reject (v < 35) "EIP-155 체인 ID가 없는 거래입니다."
  let decoded ← decodeLegacy raw expectedChainId
  reject (decoded ≠ tx) "raw transaction과 원장 거래 필드가 일치하지 않습니다."

/-- What is decoded carries its own raw form. -/
theorem decodeFields_signature {raw : Bytes} {fields : List Bytes} {chainId : ℕ}
    {tx : Transaction} (h : decodeFields raw fields chainId = .ok tx) :
    tx.signature = ethrawMarker ++ hexEncode raw ∧ fields.length = 9 ∧
      ∃ v, valueU64 (fields.getD 6 []) "v" = .ok v ∧ ¬v < 35 := by
  unfold decodeFields at h
  split at h
  · simp only [bind_eq_ok, exists_const, reject_eq_ok, not_not, pure_eq_ok] at h
    obtain ⟨-, -, -, -, -, -, -, -, -, -, -, v, hv, hlow, -, -, -, -, -, -, -, -, -, -, rfl⟩ := h
    exact ⟨rfl, rfl, v, hv, hlow⟩
  · cases h

/-- A raw transaction that was decoded for a chain passes the check of that chain. -/
theorem verifyEmbedded_of_decodeLegacy {raw : String} {chainId : ℕ} {tx : Transaction}
    (h : decodeLegacy raw chainId = .ok tx) :
    startsWith tx.signature ethrawMarker = true ∧ verifyEmbedded tx chainId = .ok () := by
  simp only [decodeLegacy, bind_eq_ok, okOr_eq_ok] at h
  obtain ⟨bytes, -, fields, hfields, hdecode⟩ := h
  obtain ⟨hsignature, hlength, v, hv, hlow⟩ := decodeFields_signature hdecode
  have hagain : decodeLegacy (hexEncode bytes) chainId = .ok tx := by
    simp only [decodeLegacy, trimHexMarkers_hexEncode, hexDecode_hexEncode, bind_eq_ok, okOr_eq_ok]
    exact ⟨bytes, rfl, fields, hfields, hdecode⟩
  constructor
  · rw [hsignature, startsWith, String.toList_append, List.isPrefixOf_iff_prefix]
    exact List.prefix_append _ _
  · simp only [verifyEmbedded, bind_eq_ok, exists_const, okOr_eq_ok, reject_eq_ok, not_not]
    refine ⟨hexEncode bytes, ?_, bytes, hexDecode_hexEncode bytes, fields, hfields, hlength, v, hv,
      hlow, tx, hagain, rfl⟩
    rw [hsignature]
    exact stripStart_append _ _

/-- The chain identifier stands in the raw form. -/
theorem decodeFields_chainId {raw : Bytes} {fields : List Bytes} {chainId : ℕ} {tx : Transaction}
    (h : decodeFields raw fields chainId = .ok tx) :
    ∃ v, valueU64 (fields.getD 6 []) "v" = .ok v ∧ chainId = (v - 35) / 2 := by
  unfold decodeFields at h
  split at h
  · simp only [bind_eq_ok, exists_const, reject_eq_ok, not_not] at h
    obtain ⟨-, -, -, -, -, -, -, -, -, -, -, v, hv, -, hchainId, -⟩ := h
    exact ⟨v, hv, hchainId.symm⟩
  · cases h

/-- One signature is good for one chain. -/
theorem verifyEmbedded_chainId {tx : Transaction} {chainId chainId' : ℕ}
    (h : verifyEmbedded tx chainId = .ok ()) (h' : verifyEmbedded tx chainId' = .ok ()) :
    chainId = chainId' := by
  have hdecoded : ∀ id, verifyEmbedded tx id = .ok () → ∃ raw,
      stripStart tx.signature ethrawMarker = some raw ∧ decodeLegacy raw id = .ok tx := by
    intro id hid
    simp only [verifyEmbedded, bind_eq_ok, okOr_eq_ok, reject_eq_ok, not_not] at hid
    obtain ⟨raw, hraw, -, -, -, -, -, -, -, -, -, -, decoded, hdecoded, -, rfl⟩ := hid
    exact ⟨raw, hraw, hdecoded⟩
  have hfields : ∀ id raw, decodeLegacy raw id = .ok tx → ∃ bytes fields v,
      hexDecode (trimHexMarkers raw) = some bytes ∧ decodeList bytes = .ok fields ∧
        valueU64 (fields.getD 6 []) "v" = .ok v ∧ id = (v - 35) / 2 := by
    intro id raw hid
    simp only [decodeLegacy, bind_eq_ok, okOr_eq_ok] at hid
    obtain ⟨bytes, hbytes, fields, hfields, hdecode⟩ := hid
    obtain ⟨v, hv, hchainId⟩ := decodeFields_chainId hdecode
    exact ⟨bytes, fields, v, hbytes, hfields, hv, hchainId⟩
  obtain ⟨raw, hraw, hid⟩ := hdecoded chainId h
  obtain ⟨raw', hraw', hid'⟩ := hdecoded chainId' h'
  cases hraw.symm.trans hraw'
  obtain ⟨bytes, fields, v, hbytes, hlist, hv, hchainId⟩ := hfields chainId raw hid
  obtain ⟨bytes', fields', v', hbytes', hlist', hv', hchainId'⟩ := hfields chainId' raw hid'
  cases hbytes.symm.trans hbytes'
  cases hlist.symm.trans hlist'
  cases hv.symm.trans hv'
  exact hchainId.trans hchainId'.symm

end

end IeumChain.RawTransaction
