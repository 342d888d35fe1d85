import IeumChain.Agreement

/-!
# What a block hash binds

The hash of a block covers its fields without separators, so a text at the end of one
field can be read as the beginning of the next. A block hash determines the block
exactly when nothing follows the producer and the producer does not itself end like a
transaction or an event.
-/
namespace IeumChain

open ByteCodec Outcome

/-- The parts of a block that its hash is meant to fix. -/
structure BlockContent where
  height : ℕ
  previousHash : String
  timestamp : ℕ
  producer : Address
  transactionIds : List String
  systemEvents : List ScheduledEvent
  deriving DecidableEq

namespace Block

/-- The fields have the widths of the format. -/
def WellFormed (b : Block) : Prop :=
  b.height < 2 ^ 64 ∧ b.timestamp < 2 ^ 64 ∧ b.previousHash.utf8ByteSize = 64

/-- What an event adds to the hash. -/
def eventText (e : ScheduledEvent) : String := e.id ++ e.consensusText

section
variable [Crypto]

def content (b : Block) : BlockContent :=
  { height := b.height, previousHash := b.previousHash, timestamp := b.timestamp
    producer := b.producer, transactionIds := b.transactions.map Transaction.id
    systemEvents := b.systemEvents }

/-- Everything after the timestamp, as one text. -/
def trailer (b : Block) : String :=
  b.producer ++ (joined (b.transactions.map Transaction.id) ++ joined (b.systemEvents.map eventText))

theorem hashPreimage_eq (b : Block) :
    b.hashPreimage =
      beBytes 8 b.height ++ (utf8 b.previousHash ++ (beBytes 8 b.timestamp ++ utf8 b.trailer)) := by
  have hevents : b.systemEvents.flatMap (fun e => utf8 e.id ++ e.consensusBytes) =
      utf8 (joined (b.systemEvents.map eventText)) := by
    have htext : ∀ e, utf8 (eventText e) = utf8 e.id ++ e.consensusBytes :=
      fun e => utf8_append e.id e.consensusText
    rw [utf8_joined, List.flatMap_map]
    simp only [htext]
  have hids : b.transactions.flatMap (fun tx => utf8 tx.id) =
      utf8 (joined (b.transactions.map Transaction.id)) := by
    rw [utf8_joined, List.flatMap_map]
  simp only [hashPreimage, hevents, hids, trailer, utf8_append, List.append_assoc]

theorem calculateHash_congr {b b' : Block} (hheight : b'.height = b.height)
    (hprevious : b'.previousHash = b.previousHash) (htimestamp : b'.timestamp = b.timestamp)
    (htrailer : b'.trailer = b.trailer) : b'.calculateHash = b.calculateHash := by
  rw [calculateHash, calculateHash, hashPreimage_eq, hashPreimage_eq, hheight, hprevious,
    htimestamp, htrailer]

/-- An identifier at the start of the transactions may as well stand at the end of the producer. -/
theorem calculateHash_new_absorb (height : ℕ) (previousHash : String) (timestamp : ℕ)
    (producer : Address) (tx : Transaction) (rest : List Transaction) :
    (Block.new height previousHash timestamp (producer ++ tx.id) rest).calculateHash =
      (Block.new height previousHash timestamp producer (tx :: rest)).calculateHash :=
  calculateHash_congr rfl rfl rfl (by simp [trailer, Block.new, Block.sealed, String.append_assoc])

/-- The fixed-width fields and the trailer can be read back; the trailer cannot be split. -/
theorem eq_of_hashPreimage_eq {b b' : Block} (hb : b.WellFormed) (hb' : b'.WellFormed)
    (h : b'.hashPreimage = b.hashPreimage) :
    b'.height = b.height ∧ b'.previousHash = b.previousHash ∧ b'.timestamp = b.timestamp ∧
      b'.trailer = b.trailer := by
  rw [hashPreimage_eq, hashPreimage_eq] at h
  have hwidth : (2 : ℕ) ^ 64 = 256 ^ 8 := by norm_num
  obtain ⟨hheight, h₁⟩ := beBytes_append_inj (hwidth ▸ hb'.1) (hwidth ▸ hb.1) h
  have hlength : (utf8 b'.previousHash).length = (utf8 b.previousHash).length := by
    rw [utf8_length, utf8_length, hb'.2.2, hb.2.2]
  obtain ⟨hprevious, h₂⟩ := List.append_inj h₁ hlength
  obtain ⟨htimestamp, h₃⟩ := beBytes_append_inj (hwidth ▸ hb'.2.1) (hwidth ▸ hb.2.1) h₂
  exact ⟨hheight, utf8_inj hprevious, htimestamp, utf8_inj h₃⟩

/-- No other block has the same hash. -/
def HashBinds (b : Block) : Prop :=
  ∀ b' : Block, b'.WellFormed → b'.calculateHash = b.calculateHash → b'.content = b.content

/-- No certificate for the block can be moved to another one. -/
def CertificateBinds (b : Block) : Prop :=
  ∀ (b' : Block) (validators : List Validator) (round : ℕ) (precommits : List ConsensusMessage),
    b'.WellFormed →
    FinalityCertificate.verify { block := b, round, precommits } validators = .ok () →
    FinalityCertificate.verify { block := b', round, precommits } validators = .ok () →
    b'.content = b.content

/-- Nothing follows the producer, and the producer does not end like something that could. -/
def Unambiguous (b : Block) : Prop :=
  b.transactions = [] ∧ b.systemEvents = [] ∧ (∀ (tx : Transaction) q, b.producer ≠ q ++ tx.id) ∧
    ∀ e q, b.producer ≠ q ++ eventText e

/-- Two blocks that one certificate verifies with have the same hash. -/
theorem calculateHash_eq_of_certificate {b b' : Block} {validators : List Validator} {round : ℕ}
    {precommits : List ConsensusMessage}
    (h : FinalityCertificate.verify { block := b, round, precommits } validators = .ok ())
    (h' : FinalityCertificate.verify { block := b', round, precommits } validators = .ok ()) :
    b'.calculateHash = b.calculateHash := by
  have hvote : ∀ {c : Block}, FinalityCertificate.verify { block := c, round, precommits }
      validators = .ok () → c.hash = c.calculateHash ∧
        ∃ v rest, precommits = v :: rest ∧ v.blockHash = c.hash := by
    intro c hc
    simp only [FinalityCertificate.verify, check_bind_eq_ok, reject_eq_ok, not_not] at hc
    obtain ⟨hhash, -, hc⟩ := hc
    simp only [bind_eq_ok] at hc
    obtain ⟨power, hcount, hquorum⟩ := hc
    refine ⟨hhash, ?_⟩
    cases precommits with
    | nil =>
        simp only [VoteTally.count, VoteTally.loop, Except.ok.injEq] at hcount
        simp [← hcount] at hquorum
    | cons v rest =>
        refine ⟨v, rest, rfl, ?_⟩
        simp only [VoteTally.count, VoteTally.loop, check_bind_eq_ok, reject_eq_ok, not_not] at hcount
        have hmatching := hcount.1
        simp only [FinalityCertificate.rule, votesFor, decide_eq_true_eq] at hmatching
        exact hmatching.2.2.2
  obtain ⟨hhash, v, rest, hprecommits, hv⟩ := hvote h
  obtain ⟨hhash', v', rest', hprecommits', hv'⟩ := hvote h'
  rw [hprecommits, List.cons.injEq] at hprecommits'
  rw [← hhash', ← hhash, ← hv', ← hv, hprecommits'.1]

theorem HashBinds.certificateBinds {b : Block} (h : HashBinds b) : CertificateBinds b := by
  intro b' validators round precommits hb' hcertificate hcertificate'
  exact h b' hb' (calculateHash_eq_of_certificate hcertificate hcertificate')

/-- A block that only reads the trailer differently has the same hash. -/
theorem HashBinds.content_eq {b : Block} (h : HashBinds b) (hb : b.WellFormed) (b' : Block)
    (hheight : b'.height = b.height) (hprevious : b'.previousHash = b.previousHash)
    (htimestamp : b'.timestamp = b.timestamp) (htrailer : b'.trailer = b.trailer) :
    b'.content = b.content := by
  refine h b' ?_ ?_
  · rw [WellFormed, hheight, hprevious, htimestamp]
    exact hb
  · exact calculateHash_congr hheight hprevious htimestamp htrailer

/-- The first transaction can be read as part of the producer. -/
theorem HashBinds.transactions_eq_nil {b : Block} (h : HashBinds b) (hb : b.WellFormed) :
    b.transactions = [] := by
  cases htransactions : b.transactions with
  | nil => rfl
  | cons tx rest =>
      have hcontent := h.content_eq hb
        { b with producer := b.producer ++ tx.id, transactions := rest } rfl rfl rfl (by
          simp [trailer, htransactions, String.append_assoc])
      have hlength := congrArg (fun c => c.transactionIds.length) hcontent
      simp [content, htransactions] at hlength

/-- Without transactions the first event can. -/
theorem HashBinds.systemEvents_eq_nil {b : Block} (h : HashBinds b) (hb : b.WellFormed) :
    b.systemEvents = [] := by
  have htransactions := h.transactions_eq_nil hb
  cases hevents : b.systemEvents with
  | nil => rfl
  | cons e rest =>
      have hcontent := h.content_eq hb
        { b with producer := b.producer ++ eventText e, systemEvents := rest } rfl rfl rfl (by
          simp [trailer, htransactions, hevents, String.append_assoc])
      have hlength := congrArg (fun c => c.systemEvents.length) hcontent
      simp [content, hevents] at hlength

theorem HashBinds.unambiguous {b : Block} (h : HashBinds b) (hb : b.WellFormed) :
    b.Unambiguous := by
  have htransactions := h.transactions_eq_nil hb
  have hevents := h.systemEvents_eq_nil hb
  refine ⟨htransactions, hevents, fun tx q hproducer => ?_, fun e q hproducer => ?_⟩
  · have hcontent := h.content_eq hb { b with producer := q, transactions := [tx] } rfl rfl rfl
      (by simp [trailer, htransactions, hevents, hproducer])
    have hids := congrArg BlockContent.transactionIds hcontent
    simp [content, htransactions] at hids
  · have hcontent := h.content_eq hb { b with producer := q, systemEvents := [e] } rfl rfl rfl
      (by simp [trailer, htransactions, hevents, hproducer])
    have hlist := congrArg BlockContent.systemEvents hcontent
    simp [content, hevents] at hlist

/-- A producer that ends like nothing else leaves one reading of the trailer. -/
theorem Unambiguous.content_eq {b b' : Block} (h : b.Unambiguous) (hheight : b'.height = b.height)
    (hprevious : b'.previousHash = b.previousHash) (htimestamp : b'.timestamp = b.timestamp)
    (htrailer : b'.trailer = b.trailer) : b'.content = b.content := by
  obtain ⟨htransactions, hevents, hids, htexts⟩ := h
  have hproducer : b.producer = b'.trailer := by
    rw [htrailer, trailer, htransactions, hevents]
    simp
  have hevents' : b'.systemEvents = [] := by
    rcases List.eq_nil_or_concat b'.systemEvents with hnil | ⟨rest, e, hlast⟩
    · exact hnil
    · refine absurd hproducer ?_
      rw [trailer, hlast, List.concat_eq_append, List.map_append, joined_append]
      simp only [List.map_cons, List.map_nil, joined_cons, joined_nil, String.append_empty,
        ← String.append_assoc]
      exact htexts e _
  have htransactions' : b'.transactions = [] := by
    rcases List.eq_nil_or_concat b'.transactions with hnil | ⟨rest, tx, hlast⟩
    · exact hnil
    · refine absurd hproducer ?_
      rw [trailer, hlast, hevents', List.concat_eq_append, List.map_append, joined_append]
      simp only [List.map_cons, List.map_nil, joined_cons, joined_nil, String.append_empty,
        ← String.append_assoc]
      exact hids tx _
  have hsame : b'.producer = b.producer := by
    rw [hproducer, trailer, htransactions', hevents']
    simp
  simp [content, hheight, hprevious, htimestamp, hsame, htransactions, htransactions', hevents,
    hevents']

/-- With a hash without collisions, a block hash fixes the block, and a certificate for it can be
used for no other block, exactly if the block is unambiguous. -/
theorem hashBinds_iff_unambiguous (hsha : Function.Injective Crypto.sha256) {b : Block}
    (hb : b.WellFormed) : b.HashBinds ∧ b.CertificateBinds ↔ b.Unambiguous := by
  constructor
  · rintro ⟨h, -⟩
    exact h.unambiguous hb
  · intro h
    have hbinds : b.HashBinds := by
      intro b' hb' hhash
      have hpreimage : b'.hashPreimage = b.hashPreimage := hsha (hexEncode_injective hhash)
      obtain ⟨hheight, hprevious, htimestamp, htrailer⟩ := eq_of_hashPreimage_eq hb hb' hpreimage
      exact h.content_eq hheight hprevious htimestamp htrailer
    exact ⟨hbinds, hbinds.certificateBinds⟩

end

end Block

/-! A hash without collisions does not help: the identity is one. -/

namespace Lone

/-- One precommit of the only validator is a certificate. -/
theorem verify_certificate (hash : Bytes → Bytes) {b : Block}
    (hhash : b.hash = @Block.calculateHash (StandIn.crypto hash) b) (hheight : b.height = 1) :
    @FinalityCertificate.verify (StandIn.crypto hash)
      { block := b, round := 0, precommits := [vote b .precommit] } [⟨self, 1⟩] = .ok () := by
  have hverify : @ConsensusMessage.verify (StandIn.crypto hash) (vote b .precommit) = .ok () :=
    StandIn.verifySignature_sign hash 1 _
  simp only [FinalityCertificate.verify, check_bind_eq_ok, reject_eq_ok, not_not]
  refine ⟨hhash, by simp [listedPower], ?_⟩
  simp only [bind_eq_ok, reject_eq_ok]
  refine ⟨1, VoteTally.count_singleton _ ?_ hverify lookup_self one_le_u128Max,
    by simp [listedPower]⟩
  simp [FinalityCertificate.rule, votesFor, vote, hheight]

section
local instance bindingCrypto : Crypto := StandIn.crypto id

def transfer : Transaction :=
  StandIn.signed 1
    { sender := self, receiver := self, amount := 5, fee := 7, nonce := 0, action := .transfer
      signature := "" }

def zeroHash : String := String.ofList (List.replicate 64 '0')

def carrier : Block := Block.new 1 zeroHash 5 self [transfer]

/-- The same block with the identifier of its transaction read as part of the producer. -/
def absorbed : Block := Block.new 1 zeroHash 5 (self ++ transfer.id) []

theorem utf8ByteSize_zeroHash : zeroHash.utf8ByteSize = 64 := by decide

theorem wellFormed_new (producer : Address) (transactions : List Transaction) :
    (Block.new 1 zeroHash 5 producer transactions).WellFormed :=
  ⟨by norm_num [Block.new, Block.sealed], by norm_num [Block.new, Block.sealed],
    utf8ByteSize_zeroHash⟩

theorem calculateHash_absorbed : absorbed.calculateHash = carrier.calculateHash :=
  Block.calculateHash_new_absorb ..

theorem content_absorbed_ne : absorbed.content ≠ carrier.content := by
  intro h
  have hids := congrArg BlockContent.transactionIds h
  simp [Block.content, absorbed, carrier, Block.new, Block.sealed] at hids

/-- Two well-formed blocks of different content with the same hash, and one certificate for both,
though hash, transaction identifiers and event texts do not collide. -/
theorem certificate_for_two_blocks :
    Function.Injective Crypto.sha256 ∧
      Set.InjOn Transaction.id {tx | tx ∈ carrier.transactions ++ absorbed.transactions} ∧
      Set.InjOn ScheduledEvent.consensusBytes {e | e ∈ carrier.systemEvents ++ absorbed.systemEvents} ∧
      carrier.WellFormed ∧ absorbed.WellFormed ∧
      absorbed.calculateHash = carrier.calculateHash ∧ absorbed.content ≠ carrier.content ∧
      FinalityCertificate.verify { block := carrier, round := 0, precommits :=
        [vote carrier .precommit] } [⟨self, 1⟩] = .ok () ∧
      FinalityCertificate.verify { block := absorbed, round := 0, precommits :=
        [vote carrier .precommit] } [⟨self, 1⟩] = .ok () := by
  have hvote : vote carrier .precommit = vote absorbed .precommit := by
    have hhash : carrier.hash = absorbed.hash :=
      (Block.new_hash ..).trans (calculateHash_absorbed.symm.trans (Block.new_hash ..).symm)
    simp only [vote, hhash]
  refine ⟨fun _ _ h => h, ?_, ?_, wellFormed_new _ _, wellFormed_new _ _, calculateHash_absorbed,
    content_absorbed_ne, verify_certificate id (Block.new_hash ..) rfl, ?_⟩
  · intro a ha b hb _
    simp only [carrier, absorbed, Block.new, Block.sealed, List.append_nil, List.mem_singleton,
      Set.mem_ofPred_eq] at ha hb
    rw [ha, hb]
  · intro a ha
    simp [carrier, absorbed, Block.new, Block.sealed] at ha
  · rw [hvote]
    exact verify_certificate id (Block.new_hash ..) rfl

def plain : Block := Block.new 1 zeroHash 5 self []

/-- Identifiers are longer than addresses under this hash, and event texts end in a brace. -/
theorem unambiguous_plain : plain.Unambiguous := by
  refine ⟨rfl, rfl, fun tx q h => ?_, fun e q h => ?_⟩
  · have hid : 112 ≤ tx.id.length := by
      have hsha : ∀ bytes : Bytes, Crypto.sha256 bytes = bytes := fun _ => rfl
      rw [Transaction.id, sha256Hex, length_hexEncode, hsha]
      simp only [Transaction.signingBytes, pushText, List.length_append, length_beBytes]
      omega
    have hself : (64 : ℕ) = plain.producer.length := by decide
    have hlength := congrArg String.length h
    rw [← hself, String.length_append] at hlength
    omega
  · have hlast : plain.producer.toList.getLast? = some '1' := by decide
    have hbrace : ∀ fields, ∃ text, Text.jsonObject fields = text ++ ['\x7d'] :=
      fun fields => ⟨_, List.cons_append.symm⟩
    obtain ⟨text, htext⟩ := hbrace [("id", Text.jsonString e.id),
      ("execute_at", Text.jsonNumber e.executeAt), ("action", e.action.json)]
    rw [h, Block.eventText, ScheduledEvent.consensusText, htext] at hlast
    simp [String.toList_append, ← List.append_assoc] at hlast

theorem hashBinds_plain : plain.HashBinds ∧ plain.CertificateBinds :=
  (Block.hashBinds_iff_unambiguous (fun _ _ h => h) (wellFormed_new _ _)).2 unambiguous_plain

end

end Lone

end IeumChain
