import IeumChain.Consensus
import IeumChain.RawTransaction
import IeumChain.Snapshot

/-!
# Gossip messages on the wire

A message travels as JSON, or, when that is long and compresses well, as a zstd frame
behind a header with the length of the JSON. A receiver bounds both what it is sent and what
a frame claims to hold by the same limit. So a frame within the limit is read back exactly
when its JSON is within the limit too.
-/
namespace IeumChain

open ByteCodec Text Outcome MachineWords

/-- The state a node tells others it is in. -/
structure SyncTip where
  height : ℕ
  blockHash : String
  stateRoot : String
  deriving Repr, DecidableEq

inductive WireMessage
  | block (block : Block)
  | transaction (transaction : Transaction)
  | proposal (proposal : SignedProposal)
  | consensus (message : ConsensusMessage)
  | evidence (evidence : DoubleVoteEvidence)
  | validatorRegistration (registration : ValidatorRegistration)
  | nodeRewardRegistration (registration : NodeRewardRegistration)
  | updateAvailable (version : String)
  | syncRequest (requester : String) (fromHeight : ℕ)
  | syncResponse (requester responder : String) (tip : SyncTip)
      (certificates : List FinalityCertificate)
  | snapshotAttestation (attestation : SnapshotAttestation)
  | roundChange (message : SignedRoundChange)
  | nodeServiceAttestation (attestation : NodeServiceAttestation)
  deriving DecidableEq

/-- The serializer and the compressor, which are packages. -/
structure WireCodec where
  toVec : WireMessage → Except String Bytes
  fromSlice : Bytes → Except String WireMessage
  compress : Bytes → Except String Bytes
  /-- The second argument is the capacity of the result. -/
  decompress : Bytes → ℕ → Except String Bytes

/-- What the packages document: both round trips, and that a JSON text of a message starts
with a brace or a quote. -/
structure WireCodec.Documented (codec : WireCodec) : Prop where
  json : ∀ m json, codec.toVec m = .ok json → codec.fromSlice json = .ok m
  start : ∀ m json, codec.toVec m = .ok json → json.head? = some 0x7b ∨ json.head? = some 0x22
  zstd : ∀ bytes compressed, codec.compress bytes = .ok compressed →
    codec.decompress compressed bytes.length = .ok bytes

def compressedWireMagic : Bytes := [0x49, 0x45, 0x55, 0x4d, 0x5a, 0x01]

def compressionThresholdBytes : ℕ := 1024

def wireHeaderBytes : ℕ := compressedWireMagic.length + 4

section
variable (codec : WireCodec)

/-- Short texts, and those that would not get shorter, stay as they are. -/
def encodeWireMessage (message : WireMessage) : Except String Bytes := do
  let json ← codec.toVec message
  if json.length < compressionThresholdBytes ∨ u32Max < json.length then pure json
  else
    let compressed ← codec.compress json
    if json.length ≤ wireHeaderBytes + compressed.length then pure json
    else pure (compressedWireMagic ++ beBytes 4 json.length ++ compressed)

/-- The declared length is checked before anything is decompressed. -/
def inflateWireMessage (bytes : Bytes) (maxMessageBytes : ℕ) : Except String Bytes :=
  if compressedWireMagic.isPrefixOf bytes then do
    reject (bytes.length < wireHeaderBytes) "압축 P2P 메시지 헤더가 잘렸습니다."
    let declared := RawTransaction.beValue
      ((bytes.drop compressedWireMagic.length).take (wireHeaderBytes - compressedWireMagic.length))
    reject (maxMessageBytes < declared)
      ("압축 해제 크기가 제한을 넘습니다: declared=" ++ decimal declared ++ ", max=" ++
        decimal maxMessageBytes)
    let decoded ← (codec.decompress (bytes.drop wireHeaderBytes) declared).mapError fun e =>
      "zstd 압축 해제 실패: " ++ e
    reject (decoded.length ≠ declared)
      ("압축 해제 크기가 헤더와 다릅니다: declared=" ++ decimal declared ++ ", actual=" ++
        decimal decoded.length)
    pure decoded
  else .ok bytes

def decodeWireMessage (bytes : Bytes) (maxMessageBytes : ℕ) : Except String WireMessage := do
  let json ← inflateWireMessage codec bytes maxMessageBytes
  (codec.fromSlice json).mapError fun e => "json=" ++ e

/-- What a receiver does about the peer that relayed a message. -/
inductive GossipOutcome
  | ignored
  | disconnected (points : ℕ) (error : String)
  | penalized (points : ℕ) (error : String)
  | rewarded (message : WireMessage)

def handleGossip (temporarilyBlocked : Bool) (messageSource topic : String) (maxMessageBytes : ℕ)
    (data : Bytes) : GossipOutcome :=
  if temporarilyBlocked then .ignored
  else if maxMessageBytes < data.length then
    .disconnected 100 "최대 크기를 넘는 메시지를 보낸 피어를 차단했습니다."
  else
    match decodeWireMessage codec data maxMessageBytes with
    | .ok message => .rewarded message
    | .error e =>
        .penalized 25 ("해석할 수 없는 메시지입니다: peer=" ++ messageSource ++ ", topic=" ++ topic ++
          ", bytes=" ++ decimal data.length ++ ", detail=" ++ e)

end

/-! ## Reading a frame back -/

theorem beValue_beBytes {width n : ℕ} (h : n < 256 ^ width) :
    RawTransaction.beValue (beBytes width n) = n := by
  induction width generalizing n with
  | zero =>
      rw [pow_zero, Nat.lt_one_iff] at h
      rw [h]
      rfl
  | succ width ih =>
      have hhigh : n / 256 < 256 ^ width := by
        rw [pow_succ, mul_comm] at h
        exact Nat.div_lt_of_lt_mul h
      have hlow : (UInt8.ofNat n).toNat = n % 256 := rfl
      rw [beBytes, RawTransaction.beValue, List.foldl_append, ← RawTransaction.beValue, ih hhigh]
      simp only [List.foldl_cons, List.foldl_nil, hlow]
      omega

section
variable {codec : WireCodec} {m : WireMessage} {json bytes : Bytes} {maxMessageBytes : ℕ}

/-- The three ways of sending: short, incompressible, and as a frame. -/
theorem encodeWireMessage_cases (hjson : codec.toVec m = .ok json)
    (hencode : encodeWireMessage codec m = .ok bytes) :
    bytes = json ∨ ∃ compressed, codec.compress json = .ok compressed ∧ json.length ≤ u32Max ∧
      bytes = compressedWireMagic ++ beBytes 4 json.length ++ compressed := by
  simp only [encodeWireMessage, bind_eq_ok, hjson, Except.ok.injEq, exists_eq_left'] at hencode
  split_ifs at hencode with hplain
  · exact .inl (pure_eq_ok.1 hencode).symm
  · simp only [bind_eq_ok] at hencode
    obtain ⟨compressed, hcompress, hframe⟩ := hencode
    split_ifs at hframe
    · exact .inl (pure_eq_ok.1 hframe).symm
    · refine .inr ⟨compressed, hcompress, ?_, (pure_eq_ok.1 hframe).symm⟩
      exact not_lt.1 fun hlt => hplain (.inr hlt)

/-- A JSON text is not taken for a frame. -/
theorem inflateWireMessage_json (hdoc : codec.Documented) (hjson : codec.toVec m = .ok json)
    (maxMessageBytes : ℕ) : inflateWireMessage codec json maxMessageBytes = .ok json := by
  have hplain : ¬compressedWireMagic.isPrefixOf json = true := by
    rw [List.isPrefixOf_iff_prefix]
    rintro ⟨rest, rfl⟩
    have hstart := hdoc.start m _ hjson
    simp [compressedWireMagic] at hstart
  rw [inflateWireMessage, if_neg hplain]

/-- A frame is opened if the length it declares is within the limit. -/
theorem inflateWireMessage_frame {compressed : Bytes} (hlength : json.length ≤ u32Max)
    (hzstd : codec.decompress compressed json.length = .ok json) (maxMessageBytes : ℕ) :
    inflateWireMessage codec (compressedWireMagic ++ beBytes 4 json.length ++ compressed)
        maxMessageBytes =
      if maxMessageBytes < json.length then
        .error ("압축 해제 크기가 제한을 넘습니다: declared=" ++ decimal json.length ++ ", max=" ++
          decimal maxMessageBytes)
      else .ok json := by
  have hmagic : compressedWireMagic.isPrefixOf
      (compressedWireMagic ++ beBytes 4 json.length ++ compressed) = true := by
    rw [List.isPrefixOf_iff_prefix, List.append_assoc]
    exact List.prefix_append _ _
  have hheader : (compressedWireMagic ++ beBytes 4 json.length).length = wireHeaderBytes := by
    simp [wireHeaderBytes]
  have hwhole : ¬(compressedWireMagic ++ beBytes 4 json.length ++ compressed).length <
      wireHeaderBytes := by
    rw [List.length_append, hheader]
    omega
  have hdeclared : RawTransaction.beValue (((compressedWireMagic ++ beBytes 4 json.length ++
      compressed).drop compressedWireMagic.length).take
        (wireHeaderBytes - compressedWireMagic.length)) = json.length := by
    have hwidth : wireHeaderBytes - compressedWireMagic.length =
        (beBytes 4 json.length).length := by
      simp [wireHeaderBytes]
    rw [List.append_assoc, List.drop_left, hwidth, List.take_left]
    exact beValue_beBytes (Nat.lt_of_le_of_lt hlength (by decide))
  have hrest : (compressedWireMagic ++ beBytes 4 json.length ++ compressed).drop wireHeaderBytes =
      compressed := by
    rw [← hheader, List.drop_left]
  rw [inflateWireMessage, if_pos hmagic, hdeclared, hrest]
  dsimp only
  rw [hzstd]
  by_cases hover : maxMessageBytes < json.length
  · rw [if_pos hover, reject, if_neg hwhole, reject, if_pos hover]
    rfl
  · rw [if_neg hover, reject, if_neg hwhole, reject, if_neg hover]
    simp [Except.mapError, reject, bind, Except.bind, pure, Except.pure]

theorem inflateWireMessage_encoded (hdoc : codec.Documented) (hjson : codec.toVec m = .ok json)
    (hencode : encodeWireMessage codec m = .ok bytes) (hfits : bytes.length ≤ maxMessageBytes) :
    inflateWireMessage codec bytes maxMessageBytes =
      if maxMessageBytes < json.length then
        .error ("압축 해제 크기가 제한을 넘습니다: declared=" ++ decimal json.length ++ ", max=" ++
          decimal maxMessageBytes)
      else .ok json := by
  rcases encodeWireMessage_cases hjson hencode with rfl | ⟨compressed, hcompress, hlength, rfl⟩
  · rw [inflateWireMessage_json hdoc hjson, if_neg (not_lt.2 hfits)]
  · exact inflateWireMessage_frame hlength (hdoc.zstd _ _ hcompress) _

/-- The bound on the declared length refuses a frame that fits. -/
theorem wireMessage_refused (hdoc : codec.Documented) (hjson : codec.toVec m = .ok json)
    (hencode : encodeWireMessage codec m = .ok bytes) (hfits : bytes.length ≤ maxMessageBytes)
    (hover : maxMessageBytes < json.length) :
    decodeWireMessage codec bytes maxMessageBytes =
        .error ("압축 해제 크기가 제한을 넘습니다: declared=" ++ decimal json.length ++ ", max=" ++
          decimal maxMessageBytes) ∧
      ∀ source topic, ∃ e, handleGossip codec false source topic maxMessageBytes bytes =
        .penalized 25 e := by
  have hdecode : decodeWireMessage codec bytes maxMessageBytes =
      .error ("압축 해제 크기가 제한을 넘습니다: declared=" ++ decimal json.length ++ ", max=" ++
        decimal maxMessageBytes) := by
    rw [decodeWireMessage, inflateWireMessage_encoded hdoc hjson hencode hfits, if_pos hover]
    rfl
  refine ⟨hdecode, fun source topic => ?_⟩
  rw [handleGossip, if_neg Bool.false_ne_true, if_neg (not_lt.2 hfits), hdecode]
  exact ⟨_, rfl⟩

/-- A message whose frame is within the limit is read back, and its sender rewarded, if its
JSON is within the limit too; otherwise it is refused and its sender penalized. -/
theorem wireMessage_readable (hdoc : codec.Documented) (hjson : codec.toVec m = .ok json)
    (hencode : encodeWireMessage codec m = .ok bytes) (hfits : bytes.length ≤ maxMessageBytes) :
    (json.length ≤ maxMessageBytes → decodeWireMessage codec bytes maxMessageBytes = .ok m ∧
        ∀ source topic, handleGossip codec false source topic maxMessageBytes bytes =
          .rewarded m) ∧
      (maxMessageBytes < json.length →
        decodeWireMessage codec bytes maxMessageBytes =
            .error ("압축 해제 크기가 제한을 넘습니다: declared=" ++ decimal json.length ++ ", max=" ++
              decimal maxMessageBytes) ∧
          ∀ source topic, ∃ e, handleGossip codec false source topic maxMessageBytes bytes =
            .penalized 25 e) := by
  refine ⟨fun hwithin => ?_, wireMessage_refused hdoc hjson hencode hfits⟩
  have hdecode : decodeWireMessage codec bytes maxMessageBytes = .ok m := by
    have hinflate := inflateWireMessage_encoded hdoc hjson hencode hfits
    rw [if_neg (not_lt.2 hwithin)] at hinflate
    simp only [decodeWireMessage, hinflate, bind_eq_ok, Except.ok.injEq, exists_eq_left',
      mapError_eq_ok]
    exact hdoc.json m json hjson
  refine ⟨hdecode, fun source topic => ?_⟩
  rw [handleGossip, if_neg Bool.false_ne_true, if_neg (not_lt.2 hfits), hdecode]

end

/-! ## A message that compresses well -/

namespace Wire

def ascii (s : String) : Bytes := s.toList.map fun c => UInt8.ofNat c.toNat

/-- A version of 1024 letters. -/
def notice : WireMessage := .updateAvailable (String.ofList (List.replicate 1024 'a'))

def noticeJson : Bytes :=
  ascii "\x7b\"UpdateAvailable\":\x7b\"version\":\"" ++ List.replicate 1024 0x61 ++ ascii "\"\x7d\x7d"

/-- Its zstd frame at level 3. -/
def noticeFrame : Bytes :=
  [40, 181, 47, 253, 96, 34, 3, 93, 1, 0, 52, 2, 123, 34, 85, 112, 100, 97, 116, 101, 65,
   118, 97, 105, 108, 97, 98, 108, 101, 34, 58, 123, 34, 118, 101, 114, 115, 105, 111, 110,
   34, 58, 34, 97, 34, 125, 125, 1, 0, 224, 95, 129, 39]

/-- The packages on this message. -/
def codec : WireCodec where
  toVec m := if m = notice then .ok noticeJson else .error "not this message"
  fromSlice bytes := if bytes = noticeJson then .ok notice else .error "not this text"
  compress bytes := if bytes = noticeJson then .ok noticeFrame else .error "not this text"
  decompress bytes capacity :=
    if bytes = noticeFrame ∧ capacity = noticeJson.length then .ok noticeJson
    else .error "not this frame"

theorem documented : codec.Documented := by
  constructor
  · intro m json h
    simp only [codec] at h ⊢
    split_ifs at h with hm
    cases h
    rw [if_pos rfl, hm]
  · intro m json h
    simp only [codec] at h
    split_ifs at h
    cases h
    exact .inl rfl
  · intro bytes compressed h
    simp only [codec] at h ⊢
    split_ifs at h with hbytes
    cases h
    rw [if_pos ⟨rfl, by rw [hbytes]⟩, hbytes]

theorem length_noticeJson : noticeJson.length = 1058 := by
  simp only [noticeJson, List.length_append, List.length_replicate]
  decide

theorem toVec_notice : codec.toVec notice = .ok noticeJson := by
  simp only [codec, if_pos]

theorem encode_notice : ∃ bytes, encodeWireMessage codec notice = .ok bytes ∧
    bytes.length = 63 := by
  refine ⟨compressedWireMagic ++ beBytes 4 noticeJson.length ++ noticeFrame, ?_, ?_⟩
  · have hlong : ¬(noticeJson.length < compressionThresholdBytes ∨ u32Max < noticeJson.length) := by
      rw [length_noticeJson]
      decide
    have hshorter : ¬noticeJson.length ≤ wireHeaderBytes + noticeFrame.length := by
      rw [length_noticeJson]
      decide
    simp only [encodeWireMessage, codec, if_pos, bind_eq_ok, Except.ok.injEq, exists_eq_left',
      if_neg hlong, if_neg hshorter, pure_eq_ok]
  · rw [List.length_append, List.length_append, length_beBytes]
    decide

/-- The frame of the message fits the limit and is refused, and its sender is penalized. -/
theorem fitting_frame_refused : codec.Documented ∧ ∃ bytes,
    encodeWireMessage codec notice = .ok bytes ∧ bytes.length ≤ 100 ∧
    decodeWireMessage codec bytes 100 ≠ .ok notice ∧
    ∃ e, handleGossip codec false "peer" "topic" 100 bytes = .penalized 25 e := by
  obtain ⟨bytes, hencode, hlength⟩ := encode_notice
  have hfits : bytes.length ≤ 100 := by omega
  have hover : 100 < noticeJson.length := by
    rw [length_noticeJson]
    omega
  obtain ⟨hdecode, hgossip⟩ := wireMessage_refused documented toVec_notice hencode hfits hover
  refine ⟨documented, bytes, hencode, hfits, ?_, hgossip "peer" "topic"⟩
  rw [hdecode]
  exact nofun

/-- With a limit that its JSON is within, too, the message is read back. -/
theorem wireMessage_readable_notice : ∃ bytes, encodeWireMessage codec notice = .ok bytes ∧
    decodeWireMessage codec bytes 2097152 = .ok notice := by
  obtain ⟨bytes, hencode, hlength⟩ := encode_notice
  have hfits : bytes.length ≤ 2097152 := by omega
  have hwithin : noticeJson.length ≤ 2097152 := by
    rw [length_noticeJson]
    omega
  have hread := (wireMessage_readable documented toVec_notice hencode hfits).1 hwithin
  exact ⟨bytes, hencode, hread.1⟩

end Wire

end IeumChain
