import IeumChain.Penalties
import IeumChain.Quorums
import IeumChain.Timeouts

/-!
# Who is to blame for a conflict

Two certificates prove something about a round: that a block was finalized in it, or that it
was left without one. Both are more than two thirds of the power. When two of them
contradict each other, more than a third of the power has voted twice, and the two
certificates hold the evidence against each of these validators.
-/
namespace IeumChain

open ByteCodec Text Outcome MachineWords FiniteMap VoteTally

/-- The value of a vote for no block. -/
def nilBlockHash : String := "ieum:nil"

structure RoundChangeCertificate where
  height : ℕ
  fromRound : ℕ
  votes : List ConsensusMessage

section
variable [Crypto]

namespace RoundChangeCertificate

def rule (c : RoundChangeCertificate) (validators : List Validator) : Rule ConsensusMessage where
  matching := votesFor c.height c.fromRound .precommit nilBlockHash
  mismatch := "round-change 인증서에 다른 투표가 섞였습니다."
  verify := ConsensusMessage.verify
  voter := (·.validatorId)
  power := (validatorPowers validators).lookup
  unknown := "등록되지 않은 검증자의 round-change 투표입니다."
  duplicate := none
  top := u128Max
  overflow := "round-change 투표권 합계가 범위를 넘었습니다."

def verify (c : RoundChangeCertificate) (validators : List Validator) : Except String Unit := do
  reject (listedPower validators = 0) "검증자 총 투표권이 0입니다."
  let signed ← count (c.rule validators) c.votes
  reject (signed * 3 ≤ listedPower validators * 2)
    "round-change에 필요한 2/3 초과 서명이 없습니다."

end RoundChangeCertificate

end

/-- What can be proved about a round. -/
inductive RoundCertificate
  | finality (c : FinalityCertificate)
  | roundChange (c : RoundChangeCertificate)

namespace RoundCertificate

def height : RoundCertificate → ℕ
  | .finality c => c.block.height
  | .roundChange c => c.height

def round : RoundCertificate → ℕ
  | .finality c => c.round
  | .roundChange c => c.fromRound

def value : RoundCertificate → String
  | .finality c => c.block.hash
  | .roundChange _ => nilBlockHash

def votes : RoundCertificate → List ConsensusMessage
  | .finality c => c.precommits
  | .roundChange c => c.votes

section
variable [Crypto]

def verify : RoundCertificate → List Validator → Except String Unit
  | .finality c, validators => c.verify validators
  | .roundChange c, validators => c.verify validators

/-- A vote that a certificate rests on. -/
def RestsOn (c : RoundCertificate) (v : ConsensusMessage) : Prop :=
  v ∈ c.votes ∧ votesFor c.height c.round .precommit c.value v = true ∧ v.verify = .ok ()

/-- The power that a list gives to an identifier. -/
def listedPowerOf (validators : List Validator) (id : String) : ℕ :=
  ((validatorPowers validators).lookup id).getD 0

/-- More than two thirds of the power stand behind a certificate that verifies. -/
theorem voters_of_verify {c : RoundCertificate} {validators : List Validator}
    (h : c.verify validators = .ok ()) :
    ∃ ids : Finset String, listedPower validators * 2 < (∑ id ∈ ids, listedPowerOf validators id) * 3 ∧
      ∀ id ∈ ids, ((validatorPowers validators).lookup id).isSome ∧
        ∃ v, c.RestsOn v ∧ v.validatorId = id := by
  cases c with
  | finality c =>
      simp only [verify, FinalityCertificate.verify, check_bind_eq_ok] at h
      simp only [bind_eq_ok, reject_eq_ok, not_le] at h
      obtain ⟨-, -, signedPower, hcount, hpower⟩ := h
      obtain ⟨ids, rfl, hvotes⟩ := count_sound _ hcount
      refine ⟨ids, hpower, fun id hid => ?_⟩
      obtain ⟨v, hmem, rfl, hmatching, hverify, hknown⟩ := hvotes id hid
      exact ⟨hknown, v, ⟨hmem, hmatching, hverify⟩, rfl⟩
  | roundChange c =>
      simp only [verify, RoundChangeCertificate.verify, check_bind_eq_ok] at h
      simp only [bind_eq_ok, reject_eq_ok, not_le] at h
      obtain ⟨-, signed, hcount, hpower⟩ := h
      obtain ⟨ids, rfl, hvotes⟩ := count_sound _ hcount
      refine ⟨ids, hpower, fun id hid => ?_⟩
      obtain ⟨v, hmem, rfl, hmatching, hverify, hknown⟩ := hvotes id hid
      exact ⟨hknown, v, ⟨hmem, hmatching, hverify⟩, rfl⟩

omit [Crypto] in
theorem sum_listedPowerOf_le {validators : List Validator} (haccepted : ∃ c, BftConsensus.new validators = .ok c)
    {ids : Finset String} (hids : ∀ id ∈ ids, ((validatorPowers validators).lookup id).isSome) :
    ∑ id ∈ ids, listedPowerOf validators id ≤ listedPower validators := by
  obtain ⟨c, hc⟩ := haccepted
  obtain ⟨hnodup, -, hlookup, -, -⟩ := BftConsensus.new_spec hc
  have hsub : ids ⊆ (validators.map (·.id)).toFinset := by
    intro id hid
    have hmem : id ∈ validatorPowers validators := AList.lookup_isSome.1 (hids id hid)
    obtain ⟨p, hp, rfl⟩ := List.mem_map.1 (mem_collect.1 hmem)
    obtain ⟨v, hv, rfl⟩ := List.mem_map.1 hp
    exact List.mem_toFinset.2 (List.mem_map_of_mem hv)
  have hall : ∑ id ∈ (validators.map (·.id)).toFinset, listedPowerOf validators id =
      listedPower validators := by
    rw [List.sum_toFinset _ hnodup, List.map_map, listedPower]
    refine congrArg List.sum (List.map_congr_left fun v hv => ?_)
    rw [Function.comp_apply, listedPowerOf, hlookup v hv, Option.getD_some]
  exact hall ▸ Finset.sum_le_sum_of_subset hsub

/-- Two votes for different values in one round are evidence. -/
theorem verify_evidence {a b : RoundCertificate} {v w : ConsensusMessage} (hheight : a.height = b.height)
    (hround : a.round = b.round) (hvalue : a.value ≠ b.value) (hv : a.RestsOn v) (hw : b.RestsOn w)
    (hid : v.validatorId = w.validatorId) : DoubleVoteEvidence.verify ⟨v, w⟩ = .ok () := by
  obtain ⟨-, hmatching, hverify⟩ := hv
  obtain ⟨-, hmatching', hverify'⟩ := hw
  simp only [votesFor, decide_eq_true_eq] at hmatching hmatching'
  obtain ⟨hv₁, hv₂, hv₃, hv₄⟩ := hmatching
  obtain ⟨hw₁, hw₂, hw₃, hw₄⟩ := hmatching'
  simp only [DoubleVoteEvidence.verify, check_bind_eq_ok, reject_eq_ok, hverify, hverify', hv₁, hv₂,
    hv₃, hv₄, hw₁, hw₂, hw₃, hw₄, hheight, hround, hid]
  simpa using hvalue

/-- The penalty that a proposer puts into its block. -/
def slashEvent (evidence : DoubleVoteEvidence) (timestamp : ℕ) : ScheduledEvent :=
  { id := slashEventId evidence, executeAt := timestamp
    action := .doubleVoteSlash evidence Staking.doubleVoteSlashBps }

theorem validate_slashEvent (hdigest : ∀ bytes, (Crypto.sha256 bytes).length = 32)
    {evidence : DoubleVoteEvidence} (h : evidence.verify = .ok ()) {timestamp : ℕ}
    (htime : timestamp ≠ 0) : (slashEvent evidence timestamp).validate = .ok () := by
  have hsize : (slashEvent evidence timestamp).id.utf8ByteSize = 78 := by
    rw [slashEvent, slashEventId, String.utf8ByteSize_append, sha256Hex, utf8ByteSize_hexEncode,
      hdigest]
    rfl
  have hchars : allChars isEventIdChar (slashEvent evidence timestamp).id = true := by
    rw [slashEvent, slashEventId, allChars_append, sha256Hex, allChars_hexEncode (by decide),
      Bool.and_true]
    decide
  have hne : (slashEvent evidence timestamp).id ≠ "" := by
    intro hempty
    rw [hempty] at hsize
    exact absurd hsize (by decide)
  simp only [ScheduledEvent.validate, check_bind_eq_ok, reject_eq_ok, hsize, hchars, hne]
  refine ⟨by simp, htime, ?_⟩
  simp only [slashEvent, validateAction, check_bind_eq_ok, reject_eq_ok]
  exact ⟨h, by simp, by simp⟩

theorem checkEvent_slashEvent (hdigest : ∀ bytes, (Crypto.sha256 bytes).length = 32)
    {rt : ConsensusRuntime} {evidence : DoubleVoteEvidence} (h : evidence.verify = .ok ())
    (hvalidator : rt.isValidator evidence.first.validatorId = true) {block : Block}
    (htime : block.timestamp ≠ 0) (hfresh : slashEventId evidence ∉ rt.chain.executedEvents) :
    rt.checkEvent block (slashEvent evidence block.timestamp) = .ok () := by
  have hbuiltIn : isConfigured (slashEvent evidence block.timestamp).action = false := rfl
  rw [ConsensusRuntime.checkEvent, if_neg (by rw [hbuiltIn]; exact Bool.false_ne_true)]
  simp only [check_bind_eq_ok, validate_slashEvent hdigest h htime, reject_eq_ok]
  refine ⟨?_, trivial, hfresh⟩
  simp only [ConsensusRuntime.checkBuiltInEvent, slashEvent, check_bind_eq_ok, reject_eq_ok]
  exact ⟨by simp, by simp [hvalidator], h⟩

/-- Certificates of one round for different values: more than a third of the power has signed both,
and for each of these validators the two certificates hold the evidence for a penalty that every
block can carry until it has been executed. -/
theorem conflict_convicts (hdigest : ∀ bytes, (Crypto.sha256 bytes).length = 32)
    {rt : ConsensusRuntime} (haccepted : ∃ c, BftConsensus.new rt.validators = .ok c)
    {a b : RoundCertificate} (ha : a.verify rt.validators = .ok ())
    (hb : b.verify rt.validators = .ok ()) (hheight : a.height = b.height)
    (hround : a.round = b.round) (hvalue : a.value ≠ b.value) :
    ∃ culprits : Finset String,
      listedPower rt.validators < (∑ id ∈ culprits, listedPowerOf rt.validators id) * 3 ∧
        ∀ id ∈ culprits, ∃ evidence : DoubleVoteEvidence, evidence.first ∈ a.votes ∧
          evidence.second ∈ b.votes ∧ evidence.first.validatorId = id ∧
          ∀ block : Block, block.timestamp ≠ 0 →
            slashEventId evidence ∉ rt.chain.executedEvents →
            rt.checkEvent block (slashEvent evidence block.timestamp) = .ok () := by
  obtain ⟨ids, hids, hvotes⟩ := voters_of_verify ha
  obtain ⟨ids', hids', hvotes'⟩ := voters_of_verify hb
  have hunion : ∑ id ∈ ids ∪ ids', listedPowerOf rt.validators id ≤ listedPower rt.validators := by
    refine sum_listedPowerOf_le haccepted fun id hid => ?_
    rcases Finset.mem_union.1 hid with h | h
    · exact (hvotes id h).1
    · exact (hvotes' id h).1
  have hinter : (∑ id ∈ ids ∪ ids', listedPowerOf rt.validators id) +
      ∑ id ∈ ids ∩ ids', listedPowerOf rt.validators id =
        (∑ id ∈ ids, listedPowerOf rt.validators id) +
          ∑ id ∈ ids', listedPowerOf rt.validators id := Finset.sum_union_inter
  refine ⟨ids ∩ ids', by omega, fun id hid => ?_⟩
  obtain ⟨hmem, hmem'⟩ := Finset.mem_inter.1 hid
  obtain ⟨hknown, v, hv, rfl⟩ := hvotes id hmem
  obtain ⟨-, w, hw, hsame⟩ := hvotes' v.validatorId hmem'
  have hevidence := verify_evidence hheight hround hvalue hv hw hsame.symm
  have hlisted : rt.isValidator v.validatorId = true := by
    obtain ⟨p, hp, hpid⟩ := List.mem_map.1 (mem_collect.1 (AList.lookup_isSome.1 hknown))
    obtain ⟨u, hu, rfl⟩ := List.mem_map.1 hp
    rw [ConsensusRuntime.isValidator, decide_eq_true_iff, ← hpid]
    exact List.mem_map_of_mem hu
  exact ⟨⟨v, w⟩, hv.1, hw.1, rfl,
    fun _ htime hfresh => checkEvent_slashEvent hdigest hevidence hlisted htime hfresh⟩

end

end RoundCertificate

/-! Three of four validators finalize a block, and three of them leave the same round without it. -/

namespace Quartet

open ConsensusRuntime RoundCertificate

local instance culpritsCrypto : Crypto := StandIn.crypto StandIn.digest

def precommitOf (blockHash : String) (n : ℕ) : ConsensusMessage :=
  { height := 1, round := 0, validatorId := StandIn.address n, voteType := .precommit, blockHash
    signature := StandIn.sign n
      (ConsensusMessage.bytesToSign 1 0 (StandIn.address n) .precommit blockHash) }

def finalizedEmpty : RoundCertificate :=
  .finality
    { block := emptyBlock, round := 0, precommits := [1, 2, 3].map (precommitOf emptyBlock.hash) }

def leftEmpty : RoundCertificate :=
  .roundChange { height := 1, fromRound := 0, votes := [2, 3, 4].map (precommitOf nilBlockHash) }

theorem lookup_powers (n : ℕ) (hn : n ∈ [1, 2, 3, 4]) :
    (validatorPowers members).lookup (StandIn.address n) = some 1 := by
  obtain ⟨c, hc⟩ := members_ok
  exact (BftConsensus.new_spec hc).2.2.1 ⟨StandIn.address n, 1⟩ (List.mem_map_of_mem hn)

/-- Three votes that match the rule of a certificate count for three. -/
theorem count_three (rule : VoteTally.Rule ConsensusMessage) {numbers : List ℕ} {blockHash : String}
    (hnumbers : numbers.Sublist [1, 2, 3, 4]) (hthree : numbers.length = 3)
    (hmatching : rule.matching = votesFor 1 0 .precommit blockHash)
    (hverify : rule.verify = ConsensusMessage.verify) (hvoter : rule.voter = (·.validatorId))
    (hpower : rule.power = (validatorPowers members).lookup) (htop : rule.top = u128Max) :
    VoteTally.count rule (numbers.map (precommitOf blockHash)) = .ok 3 := by
  have hlookup : ∀ n ∈ numbers, rule.power (StandIn.address n) = some 1 := by
    intro n hn
    rw [hpower]
    exact lookup_powers n (hnumbers.subset hn)
  have hones : ∀ n ∈ numbers, ((fun m => VoteTally.powerOf rule (rule.voter m)) ∘
      precommitOf blockHash) n = (fun _ => 1) n := by
    intro n hn
    rw [Function.comp_apply, VoteTally.powerOf, hvoter]
    exact congrArg (·.getD 0) (hlookup n hn)
  have hsum : ((numbers.map (precommitOf blockHash)).map
      fun m => VoteTally.powerOf rule (rule.voter m)).sum = 3 := by
    rw [List.map_map, List.map_congr_left hones, List.map_const', List.sum_replicate, hthree]
    rfl
  have hnodup : ((numbers.map (precommitOf blockHash)).map rule.voter).Nodup := by
    rw [hvoter, List.map_map]
    exact nodup_addresses.sublist (hnumbers.map StandIn.address)
  have haccepted : ∀ m ∈ numbers.map (precommitOf blockHash), VoteTally.Accepted rule m := by
    intro m hm
    obtain ⟨n, hn, rfl⟩ := List.mem_map.1 hm
    refine ⟨by simp [hmatching, votesFor, precommitOf], ?_, ?_⟩
    · rw [hverify]
      exact StandIn.verifySignature_sign _ n _
    · rw [hvoter]
      exact Option.isSome_iff_exists.2 ⟨1, hlookup n hn⟩
  rw [VoteTally.count_complete rule haccepted hnodup (by rw [hsum, htop]; decide), hsum]

theorem verify_finalizedEmpty : finalizedEmpty.verify members = .ok () := by
  have hfour : listedPower members = 4 := rfl
  simp only [finalizedEmpty, RoundCertificate.verify, FinalityCertificate.verify, check_bind_eq_ok,
    reject_eq_ok, not_not, hfour]
  simp only [bind_eq_ok, reject_eq_ok]
  exact ⟨Block.new_hash .., by decide, 3,
    count_three _ (by decide) rfl rfl rfl rfl rfl rfl, by decide⟩

theorem verify_leftEmpty : leftEmpty.verify members = .ok () := by
  have hfour : listedPower members = 4 := rfl
  simp only [leftEmpty, RoundCertificate.verify, RoundChangeCertificate.verify, check_bind_eq_ok,
    reject_eq_ok, hfour]
  simp only [bind_eq_ok, reject_eq_ok]
  exact ⟨by decide, 3, count_three _ (by decide) rfl rfl rfl rfl rfl rfl, by decide⟩

theorem conflict_convicts_two : ∃ rt, started = .ok rt ∧ ∃ culprits : Finset String,
    4 < (∑ id ∈ culprits, listedPowerOf members id) * 3 := by
  obtain ⟨rt, hrt⟩ := started_ok
  obtain ⟨-, hvalidators, -⟩ := started_spec hrt
  have hheight : finalizedEmpty.height = leftEmpty.height := by
    simp [finalizedEmpty, leftEmpty, RoundCertificate.height, emptyBlock, Block.new, Block.sealed]
  have hvalue : finalizedEmpty.value ≠ leftEmpty.value := by
    decide +kernel
  obtain ⟨culprits, hpower, -⟩ := conflict_convicts StandIn.length_digest
    (hvalidators ▸ members_ok) (hvalidators ▸ verify_finalizedEmpty)
    (hvalidators ▸ verify_leftEmpty) hheight rfl hvalue
  rw [hvalidators] at hpower
  exact ⟨rt, hrt, culprits, hpower⟩

end Quartet

end IeumChain
