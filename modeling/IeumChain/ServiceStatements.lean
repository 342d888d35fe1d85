import IeumChain.Library.SeparatedText
import IeumChain.Rewards

/-!
# What a service attestation says

The signed bytes join seven fields with colons, and peer ids, network groups and validator ids
may have colons of their own. The four fields in the middle have a fixed shape, so two readings
of the same bytes differ in one of two ways: where these four stand, or where the network group
ends.
-/
namespace IeumChain

open ByteCodec Text SeparatedText Outcome

namespace NodeServiceAttestation

variable {a b : NodeServiceAttestation}

/-- The checks of `verify` before the signature. -/
def checkFields (a : NodeServiceAttestation) : Except String Unit :=
  reject (a.peerId = "" ∨ ¬isAccountAddress a.rewardAddress ∨
      a.epoch ≠ a.observedAt / NodeEmission.rewardEpochSeconds ∨ 10000 < a.uptimeBps ∨
      a.networkGroup = "" ∨ 96 < a.networkGroup.utf8ByteSize)
    "노드 서비스 증명 필드가 올바르지 않습니다."

theorem verify_eq [Crypto] (a : NodeServiceAttestation) : a.verify = (do
    a.checkFields
    verifySignature a.validatorId a.bytesToSign a.signatureHex) := rfl

/-- The fields that are signed. -/
structure SameStatement (a b : NodeServiceAttestation) : Prop where
  peerId : a.peerId = b.peerId
  rewardAddress : a.rewardAddress = b.rewardAddress
  epoch : a.epoch = b.epoch
  observedAt : a.observedAt = b.observedAt
  uptimeBps : a.uptimeBps = b.uptimeBps
  networkGroup : a.networkGroup = b.networkGroup
  validatorId : a.validatorId = b.validatorId

/-- The four fields between the peer id and the network group. -/
def header (a : NodeServiceAttestation) : String :=
  a.rewardAddress ++ ":" ++ decimal a.epoch ++ ":" ++ decimal a.observedAt ++ ":" ++
    decimal a.uptimeBps

/-- The fields behind them. -/
def trailer (a : NodeServiceAttestation) : String := a.networkGroup ++ ":" ++ a.validatorId

/-- The peer id of the second attestation goes on with the four fields of the first, and what
follows these in the first has the four fields of the second in it. -/
def Nested (a b : NodeServiceAttestation) : Prop :=
  ∃ middle, b.peerId ++ ":" = a.peerId ++ ":" ++ a.header ++ ":" ++ middle ∧
    a.trailer = middle ++ b.header ++ ":" ++ b.trailer

/-- The attestations agree up to a part that the first has in front of its validator id and the
second behind its network group. -/
def Regrouped (a b : NodeServiceAttestation) : Prop :=
  (a.peerId = b.peerId ∧ a.rewardAddress = b.rewardAddress ∧ a.epoch = b.epoch ∧
    a.observedAt = b.observedAt ∧ a.uptimeBps = b.uptimeBps) ∧
  ∃ part, b.networkGroup = a.networkGroup ++ ":" ++ part ∧
    a.validatorId = part ++ ":" ++ b.validatorId

/-! ## The parts of the signed text -/

theorem bytesToSign_eq_iff : a.bytesToSign = b.bytesToSign ↔
    a.peerId ++ ":" ++ a.header ++ ":" ++ a.trailer =
      b.peerId ++ ":" ++ b.header ++ ":" ++ b.trailer := by
  have hbytes : ∀ a : NodeServiceAttestation, a.bytesToSign =
      utf8 ("ieum-node-service-v1:" ++ (a.peerId ++ ":" ++ a.header ++ ":" ++ a.trailer)) := by
    intro a
    simp only [bytesToSign, header, trailer, String.append_assoc]
  rw [hbytes, hbytes]
  constructor
  · intro h
    exact (String.append_right_inj _).1 (utf8_inj h)
  · intro h
    rw [h]

theorem toList_joined (s t u : String) : (s ++ ":" ++ t ++ ":" ++ u).toList =
    s.toList ++ ':' :: (t.toList ++ ':' :: u.toList) := by
  simp [String.toList_append]

theorem toList_header (a : NodeServiceAttestation) : a.header.toList =
    a.rewardAddress.toList ++ ':' :: ((decimal a.epoch).toList ++
      ':' :: ((decimal a.observedAt).toList ++ ':' :: (decimal a.uptimeBps).toList)) := by
  simp [header, String.toList_append]

theorem toList_of_isAccountAddress {address : Address} (h : isAccountAddress address = true) :
    ∃ rest, address.toList = '0' :: 'x' :: rest ∧ ∀ c ∈ rest, isHexDigit c = true := by
  simp only [isAccountAddress, decide_eq_true_eq] at h
  obtain ⟨hmarker, -, hdigits⟩ := h
  obtain ⟨rest, hrest⟩ := List.isPrefixOf_iff_prefix.1 hmarker
  have hlist : address.toList = '0' :: 'x' :: rest := hrest.symm
  rw [hlist] at hdigits
  exact ⟨rest, hlist, List.all_eq_true.1 hdigits⟩

theorem colon_notMem_address {address : Address} (h : isAccountAddress address = true) :
    ':' ∉ address.toList := by
  obtain ⟨rest, hlist, hhex⟩ := toList_of_isAccountAddress h
  rw [hlist]
  intro hmem
  simp only [List.mem_cons] at hmem
  rcases hmem with hzero | hmarker | hrest
  · exact absurd hzero (by decide)
  · exact absurd hmarker (by decide)
  · exact absurd (hhex _ hrest) (by decide)

/-- The four fields can be read off from the front of a text. -/
theorem header_inj (ha : isAccountAddress a.rewardAddress = true)
    (hb : isAccountAddress b.rewardAddress = true) {s t : List Char}
    (h : a.header.toList ++ ':' :: s = b.header.toList ++ ':' :: t) :
    a.rewardAddress = b.rewardAddress ∧ a.epoch = b.epoch ∧ a.observedAt = b.observedAt ∧
      a.uptimeBps = b.uptimeBps ∧ s = t := by
  rw [toList_header, toList_header] at h
  simp only [List.append_assoc, List.cons_append] at h
  obtain ⟨hreward, h⟩ := append_cons_inj (colon_notMem_address ha) (colon_notMem_address hb) h
  obtain ⟨hepoch, h⟩ := append_cons_inj (colon_notMem_decimal _) (colon_notMem_decimal _) h
  obtain ⟨hobserved, h⟩ := append_cons_inj (colon_notMem_decimal _) (colon_notMem_decimal _) h
  obtain ⟨huptime, h⟩ := append_cons_inj (colon_notMem_decimal _) (colon_notMem_decimal _) h
  exact ⟨String.toList_injective hreward, decimal_injective (String.toList_injective hepoch),
    decimal_injective (String.toList_injective hobserved),
    decimal_injective (String.toList_injective huptime), h⟩

/-- Behind a colon of the four fields there are numbers only. -/
theorem x_notMem_of_header (ha : isAccountAddress a.rewardAddress = true) {m k : List Char}
    (h : a.header.toList = m ++ ':' :: k) : 'x' ∉ k := by
  have hnumber : ∀ n, 'x' ∉ (decimal n).toList := notMem_decimal rfl
  have hnumbers : 'x' ∉ (decimal a.epoch).toList ++
      ':' :: ((decimal a.observedAt).toList ++ ':' :: (decimal a.uptimeBps).toList) := by
    simp [hnumber]
  rw [toList_header] at h
  rcases append_separator_cases h with ⟨-, rfl⟩ | ⟨t, -, ht⟩ | ⟨t, ht, -⟩
  · exact hnumbers
  · rw [ht] at hnumbers
    exact fun hmem => hnumbers (List.mem_append_right _ (List.mem_cons_of_mem _ hmem))
  · have hcolon := colon_notMem_address ha
    rw [ht] at hcolon
    exact absurd (List.mem_append_right _ (List.mem_cons_self ..)) hcolon

/-- No address begins behind a colon of the four fields. -/
theorem header_not_inside (ha : isAccountAddress a.rewardAddress = true)
    (hb : isAccountAddress b.rewardAddress = true) {m k s t : List Char}
    (hk : a.header.toList = m ++ ':' :: k) (h : b.header.toList ++ s = k ++ ':' :: t) : False := by
  obtain ⟨rest, hreward, -⟩ := toList_of_isAccountAddress hb
  have hx := x_notMem_of_header ha hk
  rw [toList_header, hreward] at h
  cases k with
  | nil => exact absurd (List.cons.inj h).1 (by decide)
  | cons c k =>
      have hsecond := (List.cons.inj h).2
      cases k with
      | nil => exact absurd (List.cons.inj hsecond).1 (by decide)
      | cons d k =>
          have hd : 'x' = d := (List.cons.inj hsecond).1
          exact hx (hd ▸ List.mem_cons_of_mem _ (List.mem_cons_self ..))

/-! ## Two readings of one text -/

theorem nested_of_longer (ha : isAccountAddress a.rewardAddress = true)
    (hb : isAccountAddress b.rewardAddress = true) {m : List Char}
    (hpeer : b.peerId.toList = a.peerId.toList ++ ':' :: m)
    (hrest : a.header.toList ++ ':' :: a.trailer.toList =
      m ++ ':' :: (b.header.toList ++ ':' :: b.trailer.toList)) : a.Nested b := by
  rcases append_separator_cases hrest with ⟨hm, ht⟩ | ⟨k, hm, ht⟩ | ⟨k, hk, ht⟩
  · refine ⟨"", String.toList_injective ?_, String.toList_injective ?_⟩
    · simp [String.toList_append, hpeer, hm]
    · simp [String.toList_append, ht]
  · refine ⟨String.ofList k ++ ":", String.toList_injective ?_, String.toList_injective ?_⟩
    · simp [String.toList_append, hpeer, hm]
    · simp [String.toList_append, ht]
  · exact (header_not_inside ha hb hk ht).elim

theorem regrouped_or_same (ha : isAccountAddress a.rewardAddress = true)
    (hb : isAccountAddress b.rewardAddress = true) (hpeer : a.peerId = b.peerId)
    (hrest : a.header.toList ++ ':' :: a.trailer.toList =
      b.header.toList ++ ':' :: b.trailer.toList) :
    SameStatement a b ∨ a.Regrouped b ∨ b.Regrouped a := by
  obtain ⟨hreward, hepoch, hobserved, huptime, htrailer⟩ := header_inj ha hb hrest
  have hfields : a.networkGroup.toList ++ ':' :: a.validatorId.toList =
      b.networkGroup.toList ++ ':' :: b.validatorId.toList := by
    simpa [trailer, String.toList_append] using htrailer
  rcases append_separator_cases hfields with ⟨hgroup, hvalidator⟩ | ⟨part, hgroup, hvalidator⟩ |
    ⟨part, hgroup, hvalidator⟩
  · exact .inl ⟨hpeer, hreward, hepoch, hobserved, huptime, String.toList_injective hgroup,
      String.toList_injective hvalidator⟩
  · refine .inr (.inl ⟨⟨hpeer, hreward, hepoch, hobserved, huptime⟩, String.ofList part, ?_, ?_⟩)
    · exact String.toList_injective (by simp [String.toList_append, hgroup])
    · exact String.toList_injective (by simp [String.toList_append, hvalidator])
  · refine .inr (.inr ⟨⟨hpeer.symm, hreward.symm, hepoch.symm, hobserved.symm, huptime.symm⟩,
      String.ofList part, ?_, ?_⟩)
    · exact String.toList_injective (by simp [String.toList_append, hgroup])
    · exact String.toList_injective (by simp [String.toList_append, hvalidator])

theorem readings (ha : isAccountAddress a.rewardAddress = true)
    (hb : isAccountAddress b.rewardAddress = true) (h : a.bytesToSign = b.bytesToSign) :
    SameStatement a b ∨ (a.Nested b ∨ b.Nested a) ∨ a.Regrouped b ∨ b.Regrouped a := by
  have hlists := congrArg String.toList (bytesToSign_eq_iff.1 h)
  rw [toList_joined, toList_joined] at hlists
  rcases append_separator_cases hlists with ⟨hpeer, hrest⟩ | ⟨m, hpeer, hrest⟩ | ⟨m, hpeer, hrest⟩
  · rcases regrouped_or_same ha hb (String.toList_injective hpeer) hrest with hsame | hgroup
    · exact .inl hsame
    · exact .inr (.inr hgroup)
  · exact .inr (.inl (.inl (nested_of_longer ha hb hpeer hrest)))
  · exact .inr (.inl (.inr (nested_of_longer hb ha hpeer hrest)))

/-- The peer id that has the other four fields in it has a colon. -/
theorem Nested.colon_mem (h : a.Nested b) : ':' ∈ b.peerId.toList := by
  obtain ⟨middle, hpeer, -⟩ := h
  have hlists := congrArg String.toList hpeer
  rw [toList_joined, String.toList_append] at hlists
  rcases append_separator_cases hlists with ⟨-, hnil⟩ | ⟨t, -, hnil⟩ | ⟨t, hb, -⟩
  · exact absurd hnil.symm (by simp)
  · exact absurd hnil (by simp)
  · rw [hb]
    exact List.mem_append_right _ (List.mem_cons_self ..)

theorem Nested.bytesToSign_eq (h : a.Nested b) : a.bytesToSign = b.bytesToSign := by
  obtain ⟨middle, hpeer, htrailer⟩ := h
  rw [bytesToSign_eq_iff, htrailer, hpeer]
  simp only [String.append_assoc]

theorem Nested.peerId_ne (h : a.Nested b) : a.peerId ≠ b.peerId := by
  obtain ⟨middle, hpeer, -⟩ := h
  intro hsame
  have hlength := congrArg (fun s => s.toList.length) hpeer
  simp only [hsame, String.toList_append, List.length_append] at hlength
  have hcolon : ":".toList.length = 1 := rfl
  omega

theorem Regrouped.bytesToSign_eq (h : a.Regrouped b) : a.bytesToSign = b.bytesToSign := by
  obtain ⟨⟨hpeer, hreward, hepoch, hobserved, huptime⟩, part, hgroup, hvalidator⟩ := h
  simp only [bytesToSign, hpeer, hreward, hepoch, hobserved, huptime, hgroup, hvalidator,
    String.append_assoc]

theorem Regrouped.networkGroup_ne (h : a.Regrouped b) : a.networkGroup ≠ b.networkGroup := by
  obtain ⟨-, part, hgroup, -⟩ := h
  intro hsame
  have hlength := congrArg (fun s => s.toList.length) hgroup
  simp only [hsame, String.toList_append, List.length_append] at hlength
  have hcolon : ":".toList.length = 1 := rfl
  omega

/-- The validator id that takes over a part of the network group has a colon. -/
theorem Regrouped.colon_mem (h : a.Regrouped b) : ':' ∈ a.validatorId.toList := by
  obtain ⟨-, part, -, hvalidator⟩ := h
  rw [hvalidator]
  simp [String.toList_append]

theorem isAccountAddress_of_checkFields (h : a.checkFields = .ok ()) :
    isAccountAddress a.rewardAddress = true := by
  rw [checkFields, reject_eq_ok, not_or, not_or, not_not] at h
  exact h.2.1

/-- The bytes determine the fields exactly if neither attestation can be read as the other one by
moving the four fields or the end of the network group. -/
theorem unambiguous_iff (ha : a.checkFields = .ok ()) (hb : b.checkFields = .ok ()) :
    (a.bytesToSign = b.bytesToSign → SameStatement a b) ↔
      ¬a.Nested b ∧ ¬b.Nested a ∧ ¬a.Regrouped b ∧ ¬b.Regrouped a := by
  constructor
  · intro hunambiguous
    refine ⟨fun h => ?_, fun h => ?_, fun h => ?_, fun h => ?_⟩
    · exact h.peerId_ne (hunambiguous h.bytesToSign_eq).peerId
    · exact h.peerId_ne (hunambiguous h.bytesToSign_eq.symm).peerId.symm
    · exact h.networkGroup_ne (hunambiguous h.bytesToSign_eq).networkGroup
    · exact h.networkGroup_ne (hunambiguous h.bytesToSign_eq.symm).networkGroup.symm
  · rintro ⟨hnested, hnested', hgroup, hgroup'⟩ hbytes
    rcases readings (isAccountAddress_of_checkFields ha) (isAccountAddress_of_checkFields hb)
      hbytes with hsame | (h | h) | h | h
    · exact hsame
    · exact absurd h hnested
    · exact absurd h hnested'
    · exact absurd h hgroup
    · exact absurd h hgroup'

/-- Without colons in the outer fields the bytes have one reading, whatever the network group. -/
theorem sameStatement_of_plain (ha : a.checkFields = .ok ()) (hb : b.checkFields = .ok ())
    (hplain : ∀ s ∈ [a.peerId, b.peerId, a.validatorId, b.validatorId], ':' ∉ s.toList)
    (h : a.bytesToSign = b.bytesToSign) : SameStatement a b := by
  refine (unambiguous_iff ha hb).2
    ⟨fun h => ?_, fun h => ?_, fun h => ?_, fun h => ?_⟩ h
  · exact hplain _ (by simp) h.colon_mem
  · exact hplain _ (by simp) h.colon_mem
  · exact hplain _ (by simp) h.colon_mem
  · exact hplain _ (by simp) h.colon_mem

end NodeServiceAttestation

/-! ## One signature for two nodes -/

namespace TwoReadings

def firstOwner : Address := "0x1111111111111111111111111111111111111111"

def secondOwner : Address := "0x2222222222222222222222222222222222222222"

def validator : Address := "0x3333333333333333333333333333333333333333"

/-- A plain peer id, and the fields of the second attestation in the network group. -/
def first : NodeServiceAttestation :=
  { peerId := "x", rewardAddress := firstOwner, epoch := 0, observedAt := 0, uptimeBps := 10000
    networkGroup := secondOwner ++ ":0:0:10000:g", validatorId := validator, signatureHex := "" }

def second : NodeServiceAttestation :=
  { peerId := "x:" ++ firstOwner ++ ":0:0:10000", rewardAddress := secondOwner, epoch := 0
    observedAt := 0, uptimeBps := 10000, networkGroup := "g", validatorId := validator
    signatureHex := "" }

/-- The same bytes pay two owners. -/
theorem one_signature_two_owners : first.checkFields = .ok () ∧ second.checkFields = .ok () ∧
    first.bytesToSign = second.bytesToSign ∧ first.peerId ≠ second.peerId ∧
    first.rewardAddress ≠ second.rewardAddress := by
  have hnested : first.Nested second := ⟨"", by decide, by decide⟩
  exact ⟨by decide, by decide, hnested.bytesToSign_eq, hnested.peerId_ne, by decide⟩

theorem unambiguous_iff_first : (first.bytesToSign = second.bytesToSign →
    NodeServiceAttestation.SameStatement first second) ↔
      ¬first.Nested second ∧ ¬second.Nested first ∧ ¬first.Regrouped second ∧
        ¬second.Regrouped first :=
  NodeServiceAttestation.unambiguous_iff (by decide) (by decide)

end TwoReadings

end IeumChain
