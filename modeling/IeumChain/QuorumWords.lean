import IeumChain.CachedBlocks
import IeumChain.RoundAuthority

/-!
# Quorum tests in machine words

The voting machine, the two proofs of a valid round and the finality certificate each test
for more than two thirds of the power. The certificate counts in 128 bits. The others keep
the total in 64 bits, add with or without an overflow check and multiply with saturation,
so they are exact as long as the total is below half of the word. Above it they differ from
the certificate for the sets that are named here.
-/
namespace IeumChain

open Outcome MachineWords FiniteMap VoteTally

/-- The 64-bit tests of a set with the given power agree with exact arithmetic: the total fits
half a word, or the set has too little power and the remainders say so, or it has enough, fits
the word and the total does not. -/
def ExactInWords (signed listed : ℕ) : Prop :=
  listed < 2 ^ 63 ∨
    3 * signed ≤ 2 * listed ∧
      (2 ^ 63 ≤ listed % 2 ^ 64 ∨ 3 * (signed % 2 ^ 64) ≤ 2 * (listed % 2 ^ 64)) ∨
    2 * listed < 3 * signed ∧ 2 ^ 64 ≤ listed ∧ signed < 2 ^ 64

/-- What the saturating products compare. -/
theorem BftConsensus.exceedsTwoThirds_word (signed listed : ℕ) :
    exceedsTwoThirds signed (listed % 2 ^ 64) = true ↔
      listed % 2 ^ 64 < 2 ^ 63 ∧ 2 * (listed % 2 ^ 64) < 3 * signed := by
  rw [exceedsTwoThirds, decide_eq_true_eq, saturatingMul, saturatingMul, u64Max]
  omega

/-- The sum that wraps and the sum that is checked give the exact answer together exactly in
the given range. -/
theorem exactInWords_iff {signed listed : ℕ} (hle : signed ≤ listed) :
    ((BftConsensus.exceedsTwoThirds (signed % 2 ^ 64) (listed % 2 ^ 64) = true ↔
          2 * listed < 3 * signed) ∧
        (signed ≤ u64Max ∧ BftConsensus.exceedsTwoThirds signed (listed % 2 ^ 64) = true ↔
          2 * listed < 3 * signed)) ↔
      ExactInWords signed listed := by
  rw [BftConsensus.exceedsTwoThirds_word, BftConsensus.exceedsTwoThirds_word, ExactInWords, u64Max]
  by_cases hword : signed < 2 ^ 64
  · rw [Nat.mod_eq_of_lt hword]
    by_cases hlisted : listed < 2 ^ 64
    · rw [Nat.mod_eq_of_lt hlisted]
      omega
    · omega
  · omega

/-- The votes of the listed validators, one of each, for one height, round, step and block. -/
structure VotesOf [Crypto] (S : List Validator) (height round : ℕ) (voteType : VoteType)
    (blockHash : String) (votes : List ConsensusMessage) : Prop where
  voters : (votes.map (·.validatorId)).Perm (S.map (·.id))
  matching : ∀ v ∈ votes, votesFor height round voteType blockHash v = true
  verified : ∀ v ∈ votes, v.verify = .ok ()

section
variable {validators S : List Validator}

theorem listedPower_sublist (hS : S.Sublist validators) : listedPower S ≤ listedPower validators :=
  (hS.map _).sum_le_sum fun _ _ => Nat.zero_le _

/-- Powers that fit 64 bits, in a list whose length does, add up in 128 bits. -/
theorem listedPower_le_u128Max (hwords : ∀ v ∈ validators, v.votingPower ≤ u64Max)
    (hlength : validators.length ≤ u64Max) : listedPower validators ≤ u128Max := by
  have hsum : listedPower validators ≤ validators.length * u64Max := by
    have h := List.sum_le_card_nsmul (validators.map (·.votingPower)) u64Max (by
      intro x hx
      obtain ⟨v, hv, rfl⟩ := List.mem_map.1 hx
      exact hwords v hv)
    rwa [List.length_map, Nat.nsmul_eq_mul] at h
  calc listedPower validators ≤ validators.length * u64Max := hsum
    _ ≤ u64Max * u64Max := Nat.mul_le_mul_right _ hlength
    _ ≤ u128Max := by decide

end

/-! ## One set, four tests -/

section
variable [Crypto] {validators S : List Validator} {c₀ c : BftConsensus} {height round : ℕ}
  {voteType : VoteType} {blockHash : String} {votes : List ConsensusMessage}

/-- Looking up the voters of a set and adding up is its power. -/
theorem sum_lookup_voters (hnew : BftConsensus.new validators = .ok c₀)
    (hS : S.Sublist validators) (hvotes : VotesOf S height round voteType blockHash votes) :
    ((votes.map (·.validatorId)).map fun id =>
      ((validatorPowers validators).lookup id).getD 0).sum = listedPower S := by
  obtain ⟨-, -, hlookup, -, -⟩ := BftConsensus.new_spec hnew
  rw [(hvotes.voters.map _).sum_eq, List.map_map, listedPower]
  congr 1
  refine List.map_congr_left fun v hv => ?_
  rw [Function.comp_apply, hlookup v (hS.subset hv), Option.getD_some]

/-- The votes of a set pass every check of a rule that counts such votes, each voter is met
once, and their powers add up to that of the set. -/
theorem VotesOf.counted (hnew : BftConsensus.new validators = .ok c₀)
    (hS : S.Sublist validators) (hvotes : VotesOf S height round voteType blockHash votes)
    (rule : Rule ConsensusMessage) (hmatching : rule.matching = votesFor height round voteType blockHash)
    (hverify : rule.verify = ConsensusMessage.verify) (hvoter : rule.voter = (·.validatorId))
    (hpower : rule.power = (validatorPowers validators).lookup) :
    (∀ vote ∈ votes, Accepted rule vote) ∧ (votes.map rule.voter).Nodup ∧
      (votes.map fun vote => powerOf rule (rule.voter vote)).sum = listedPower S := by
  obtain ⟨hnodup, -, hlookup, -, -⟩ := BftConsensus.new_spec hnew
  refine ⟨fun vote hvote => ⟨?_, ?_, ?_⟩, ?_, ?_⟩
  · rw [hmatching]
    exact hvotes.matching vote hvote
  · rw [hverify]
    exact hvotes.verified vote hvote
  · have hmem : vote.validatorId ∈ S.map (·.id) :=
      hvotes.voters.subset (List.mem_map_of_mem hvote)
    obtain ⟨v, hv, hid⟩ := List.mem_map.1 hmem
    rw [hpower, hvoter]
    dsimp only
    rw [← hid, hlookup v (hS.subset hv)]
    rfl
  · rw [hvoter]
    exact hvotes.voters.nodup_iff.2 (hnodup.sublist (hS.map _))
  · have hsum := sum_lookup_voters hnew hS hvotes
    rw [List.map_map] at hsum
    unfold powerOf
    rw [hpower, hvoter]
    exact hsum

/-- There are not more votes than validators. -/
theorem VotesOf.length_le (hnew : BftConsensus.new validators = .ok c₀)
    (hS : S.Sublist validators) (hvotes : VotesOf S height round voteType blockHash votes) :
    votes.length ≤ (validatorPowers validators).keys.length := by
  obtain ⟨hnodup, -, hlookup, -, -⟩ := BftConsensus.new_spec hnew
  have hdistinct : (votes.map (·.validatorId)).Nodup :=
    hvotes.voters.nodup_iff.2 (hnodup.sublist (hS.map _))
  have hsub : votes.map (·.validatorId) ⊆ (validatorPowers validators).keys := by
    intro id hid
    obtain ⟨v, hv, rfl⟩ := List.mem_map.1 (hvotes.voters.subset hid)
    rw [← AList.mem_keys, ← AList.lookup_isSome, hlookup v (hS.subset hv)]
    rfl
  have hle := (hdistinct.subperm hsub).length_le
  rwa [List.length_map] at hle

variable (hnew : BftConsensus.new validators = .ok c₀) (hS : S.Sublist validators)
  (hpowers : c.validators = c₀.validators) (htotal : c.totalPower = c₀.totalPower)
include hnew hS hpowers htotal

omit [Crypto] in
theorem hasQuorum_iff (htally : getD c.votes (voteType, blockHash) ∅ = (S.map (·.id)).toFinset) :
    c.hasQuorum voteType blockHash = true ↔
      BftConsensus.exceedsTwoThirds (listedPower S % 2 ^ 64) (listedPower validators % 2 ^ 64) =
        true := by
  obtain ⟨hnodup, hmap, hlookup, -, htotal'⟩ := BftConsensus.new_spec hnew
  have hpower : c.votePower voteType blockHash = listedPower S % 2 ^ 64 := by
    rw [BftConsensus.votePower, htally, hpowers, hmap,
      List.sum_toFinset _ (hnodup.sublist (hS.map _)), List.map_map, listedPower]
    congr 2
    refine List.map_congr_left fun v hv => ?_
    rw [Function.comp_apply, hlookup v (hS.subset hv), Option.getD_some]
  rw [BftConsensus.hasQuorum, hpower, htotal, htotal']

omit htotal in
/-- The count of both proofs of a valid round. -/
theorem count_prevoteRule (hvotes : VotesOf S height round .prevote blockHash votes)
    (mismatch unknown duplicate overflow : String) {n : ℕ} :
    count (c.prevoteRule height round blockHash mismatch unknown duplicate overflow) votes = .ok n ↔
      n = listedPower S ∧ n ≤ u64Max := by
  obtain ⟨-, hmap, -, -, -⟩ := BftConsensus.new_spec hnew
  have hlookup : (c.prevoteRule height round blockHash mismatch unknown duplicate overflow).power =
      (validatorPowers validators).lookup := by
    rw [← hmap, ← hpowers]
    rfl
  obtain ⟨haccepted, hdistinct, hsum⟩ := hvotes.counted hnew hS
    (c.prevoteRule height round blockHash mismatch unknown duplicate overflow) rfl rfl rfl hlookup
  rw [count_eq_ok _ rfl, hsum]
  exact ⟨fun h => h.2.2, fun h => ⟨haccepted, hdistinct, h⟩⟩

theorem verifyValidRoundCertificate_iff {p : SignedProposal} {validRound : ℕ}
    (hround : validRound < p.round)
    (hvotes : VotesOf S p.height validRound .prevote p.block.hash p.validRoundPrevotes) :
    c.verifyValidRoundCertificate p validRound = .ok () ↔
      listedPower S ≤ u64Max ∧
        BftConsensus.exceedsTwoThirds (listedPower S) (listedPower validators % 2 ^ 64) = true := by
  obtain ⟨-, hmap, -, -, htotal'⟩ := BftConsensus.new_spec hnew
  have hlength := hvotes.length_le hnew hS
  rw [← hmap, ← hpowers] at hlength
  simp only [BftConsensus.verifyValidRoundCertificate, check_bind_eq_ok, reject_eq_ok, not_le,
    not_lt, hround, hlength, true_and]
  simp only [bind_eq_ok, reject_eq_ok, not_not,
    count_prevoteRule hnew hS hpowers hvotes, htotal, htotal']
  constructor
  · rintro ⟨n, ⟨rfl, hle⟩, hexceeds⟩
    exact ⟨hle, hexceeds⟩
  · rintro ⟨hle, hexceeds⟩
    exact ⟨_, ⟨rfl, hle⟩, hexceeds⟩

theorem adoptValidValue_iff (hvotes : VotesOf S c.height round .prevote blockHash votes) :
    (c.adoptValidValue blockHash round votes).2 = .ok () ↔
      listedPower S ≤ u64Max ∧
        BftConsensus.exceedsTwoThirds (listedPower S) (listedPower validators % 2 ^ 64) = true := by
  obtain ⟨-, hmap, -, -, htotal'⟩ := BftConsensus.new_spec hnew
  have hlength := hvotes.length_le hnew hS
  rw [← hmap, ← hpowers] at hlength
  have hchecked : (c.adoptValidValue blockHash round votes).2 = .ok () ↔
      c.checkValidValue blockHash round votes = .ok () := by
    unfold BftConsensus.adoptValidValue
    cases c.checkValidValue blockHash round votes with
    | error e => simp
    | ok u =>
        dsimp only
        split_ifs <;> simp
  rw [hchecked]
  simp only [BftConsensus.checkValidValue, check_bind_eq_ok, reject_eq_ok, not_lt, hlength,
    true_and]
  simp only [bind_eq_ok, reject_eq_ok, not_not,
    count_prevoteRule hnew hS hpowers hvotes, htotal, htotal']
  constructor
  · rintro ⟨n, ⟨rfl, hle⟩, hexceeds⟩
    exact ⟨hle, hexceeds⟩
  · rintro ⟨hle, hexceeds⟩
    exact ⟨_, ⟨rfl, hle⟩, hexceeds⟩

omit hpowers htotal in
theorem certificate_iff (hwords : ∀ v ∈ validators, v.votingPower ≤ u64Max)
    (hlength : validators.length ≤ u64Max) {certificate : FinalityCertificate}
    (hhash : certificate.block.hash = certificate.block.calculateHash)
    (hvotes : VotesOf S certificate.block.height certificate.round .precommit
      certificate.block.hash certificate.precommits) :
    certificate.verify validators = .ok () ↔ 2 * listedPower validators < 3 * listedPower S := by
  obtain ⟨-, -, -, hpositive, -⟩ := BftConsensus.new_spec hnew
  obtain ⟨haccepted, hdistinct, hsum⟩ := hvotes.counted hnew hS
    (certificate.rule validators) rfl rfl rfl rfl
  have htop : listedPower S ≤ u128Max :=
    (listedPower_sublist hS).trans (listedPower_le_u128Max hwords hlength)
  have hcount : count (certificate.rule validators) certificate.precommits =
      .ok (listedPower S) := by
    have hcomplete := count_complete (certificate.rule validators) haccepted hdistinct
      (by rw [hsum]; exact htop)
    rwa [hsum] at hcomplete
  simp only [FinalityCertificate.verify, check_bind_eq_ok, reject_eq_ok, hcount]
  simp only [bind_eq_ok, reject_eq_ok, Except.ok.injEq, exists_eq_left']
  constructor
  · rintro ⟨-, -, hexceeds⟩
    omega
  · intro hexceeds
    exact ⟨not_not.2 hhash, hpositive.ne', by omega⟩

/-- The four tests are given the same set of validators: as the tally of a block, as the
prevotes of a proposal and of a round change, and as the precommits of a certificate. -/
structure Tested (S : List Validator) (c₀ c : BftConsensus) (voteType : VoteType) (tallied : String)
    (p : SignedProposal) (validRound : ℕ) (blockHash : String) (round : ℕ)
    (prevotes : List ConsensusMessage) (certificate : FinalityCertificate) : Prop where
  validators : c.validators = c₀.validators
  totalPower : c.totalPower = c₀.totalPower
  tally : getD c.votes (voteType, tallied) ∅ = (S.map (·.id)).toFinset
  earlier : validRound < p.round
  proposal : VotesOf S p.height validRound .prevote p.block.hash p.validRoundPrevotes
  prevotes : VotesOf S c.height round .prevote blockHash prevotes
  sealed : certificate.block.hash = certificate.block.calculateHash
  precommits : VotesOf S certificate.block.height certificate.round .precommit
    certificate.block.hash certificate.precommits

omit hpowers htotal in
/-- For a list that the voting machine accepts, the four tests of a set of its validators all
give the exact answer if and only if the powers are in the given range. -/
theorem quorumTests_exact_iff (hwords : ∀ v ∈ validators, v.votingPower ≤ u64Max)
    (hlength : validators.length ≤ u64Max) {tallied : String} {p : SignedProposal} {validRound : ℕ}
    {prevotes : List ConsensusMessage} {certificate : FinalityCertificate}
    (htested : Tested S c₀ c voteType tallied p validRound blockHash round prevotes certificate) :
    ((c.hasQuorum voteType tallied = true ↔ 2 * listedPower validators < 3 * listedPower S) ∧
        (c.verifyValidRoundCertificate p validRound = .ok () ↔
          2 * listedPower validators < 3 * listedPower S) ∧
        ((c.adoptValidValue blockHash round prevotes).2 = .ok () ↔
          2 * listedPower validators < 3 * listedPower S) ∧
        (certificate.verify validators = .ok () ↔
          2 * listedPower validators < 3 * listedPower S)) ↔
      ExactInWords (listedPower S) (listedPower validators) := by
  obtain ⟨hpowers, htotal, htally, hearlier, hproposal, hprevotes, hsealed, hprecommits⟩ := htested
  rw [hasQuorum_iff hnew hS hpowers htotal htally,
    verifyValidRoundCertificate_iff hnew hS hpowers htotal hearlier hproposal,
    adoptValidValue_iff hnew hS hpowers htotal hprevotes,
    certificate_iff hnew hS hwords hlength hsealed hprecommits,
    ← exactInWords_iff (listedPower_sublist hS)]
  simp only [iff_self, and_true, and_self]

end

/-! Three validators with powers 2, 3 and 4. -/

namespace Trio

open Duo

attribute [local instance] duoCrypto

def member (n : ℕ) : Validator := ⟨StandIn.address n, n + 1⟩

def members : List Validator := [1, 2, 3].map member

theorem votesOf_members (voters : List ℕ) (voteType : VoteType) :
    VotesOf (voters.map member) 1 0 voteType block.hash (voters.map (vote voteType)) where
  voters := by
    rw [List.map_map, List.map_map]
    exact .refl _
  matching v hv := by
    obtain ⟨n, -, rfl⟩ := List.mem_map.1 hv
    exact decide_eq_true ⟨rfl, rfl, rfl, rfl⟩
  verified v hv := by
    obtain ⟨n, -, rfl⟩ := List.mem_map.1 hv
    exact StandIn.verifySignature_sign _ n _

/-- The machine in which the prevotes of some of them have been counted. -/
def tallied (voters : List ℕ) (c : BftConsensus) : BftConsensus :=
  { c with
    height := 1
    votes := AList.insert (.prevote, block.hash) ((voters.map member).map (·.id)).toFinset ∅ }

def reproposal (voters : List ℕ) : SignedProposal :=
  { proposal with
    round := 1, validRound := some 0, validRoundPrevotes := voters.map (vote .prevote) }

def certificate (voters : List ℕ) : FinalityCertificate :=
  { block, round := 0, precommits := voters.map (vote .precommit) }

theorem tested_members (voters : List ℕ) (c₀ : BftConsensus) :
    Tested (voters.map member) c₀ (tallied voters c₀) .prevote block.hash (reproposal voters) 0
      block.hash 0 (voters.map (vote .prevote)) (certificate voters) where
  validators := rfl
  totalPower := rfl
  tally := getD_insert_self _ _ _ _
  earlier := Nat.zero_lt_one
  proposal := votesOf_members voters .prevote
  prevotes := votesOf_members voters .prevote
  sealed := Block.new_hash ..
  precommits := votesOf_members voters .precommit

/-- Seven of nine pass the four tests, and five pass none of them. -/
theorem quorumTests_exact_iff_trio : ∃ c₀, BftConsensus.new members = .ok c₀ ∧
    ((tallied [2, 3] c₀).hasQuorum .prevote block.hash = true ∧
      (tallied [2, 3] c₀).verifyValidRoundCertificate (reproposal [2, 3]) 0 = .ok () ∧
      ((tallied [2, 3] c₀).adoptValidValue block.hash 0 ([2, 3].map (vote .prevote))).2 = .ok () ∧
      (certificate [2, 3]).verify members = .ok ()) ∧
    ((tallied [1, 2] c₀).hasQuorum .prevote block.hash ≠ true ∧
      (tallied [1, 2] c₀).verifyValidRoundCertificate (reproposal [1, 2]) 0 ≠ .ok () ∧
      ((tallied [1, 2] c₀).adoptValidValue block.hash 0 ([1, 2].map (vote .prevote))).2 ≠ .ok () ∧
      (certificate [1, 2]).verify members ≠ .ok ()) := by
  obtain ⟨c₀, hnew⟩ : ∃ c₀, BftConsensus.new members = .ok c₀ := isOk_iff.1 (by decide +kernel)
  have hwords : ∀ v ∈ members, v.votingPower ≤ u64Max := by decide
  have hlength : members.length ≤ u64Max := by decide
  have hmost : ([2, 3].map member).Sublist members := ((List.sublist_cons_self ..).map _)
  have hfew : ([1, 2].map member).Sublist members :=
    (List.Sublist.map _ (List.sublist_append_left [1, 2] [3]))
  obtain ⟨htally, hproposal, hadopted, hsealed⟩ :=
    (quorumTests_exact_iff hnew hmost hwords hlength (tested_members [2, 3] c₀)).2
      (.inl (by decide))
  obtain ⟨htally', hproposal', hadopted', hsealed'⟩ :=
    (quorumTests_exact_iff hnew hfew hwords hlength (tested_members [1, 2] c₀)).2
      (.inl (by decide))
  have hquorum : 2 * listedPower members < 3 * listedPower ([2, 3].map member) := by decide
  have hshort : ¬2 * listedPower members < 3 * listedPower ([1, 2].map member) := by decide
  exact ⟨c₀, hnew,
    ⟨htally.2 hquorum, hproposal.2 hquorum, hadopted.2 hquorum, hsealed.2 hquorum⟩,
    ⟨mt htally'.1 hshort, mt hproposal'.1 hshort, mt hadopted'.1 hshort, mt hsealed'.1 hshort⟩⟩

end Trio

namespace Lone

attribute [local instance] agreementCrypto

/-- The vote of the lone validator is that of its list. -/
theorem votesOf_self (power : ℕ) (voteType : VoteType) :
    VotesOf [⟨self, power⟩] 1 0 voteType block.hash [vote block voteType] where
  voters := .refl _
  matching v hv := by
    rw [List.mem_singleton.1 hv]
    exact decide_eq_true ⟨rfl, rfl, rfl, rfl⟩
  verified v hv := by
    rw [List.mem_singleton.1 hv]
    exact StandIn.verifySignature_sign _ 1 _

/-- The machine of a list in which the vote of the lone validator has been counted. -/
def tallied (c : BftConsensus) : BftConsensus :=
  { c with height := 1, votes := AList.insert (.prevote, block.hash) {self} ∅ }

def reproposal : SignedProposal :=
  { proposal block with
    round := 1, validRound := some 0, validRoundPrevotes := [vote block .prevote] }

theorem tested_self {power : ℕ} {c₀ : BftConsensus} :
    Tested [⟨self, power⟩] c₀ (tallied c₀) .prevote block.hash reproposal 0 block.hash 0
      [vote block .prevote] certificate where
  validators := rfl
  totalPower := rfl
  tally := getD_insert_self _ _ _ _
  earlier := Nat.zero_lt_one
  proposal := votesOf_self power .prevote
  prevotes := votesOf_self power .prevote
  sealed := Block.new_hash ..
  precommits := votesOf_self power .precommit

/-- The whole power of a list near the end of the word finalizes a block for a certificate but
is no quorum for the machine. -/
theorem full_power_no_quorum : ∃ c₀, BftConsensus.new [⟨self, u64Max⟩] = .ok c₀ ∧
    Tested [⟨self, u64Max⟩] c₀ (tallied c₀) .prevote block.hash reproposal 0 block.hash 0
      [vote block .prevote] certificate ∧
    2 * listedPower [⟨self, u64Max⟩] < 3 * listedPower [⟨self, u64Max⟩] ∧
    certificate.verify [⟨self, u64Max⟩] = .ok () ∧
    (tallied c₀).hasQuorum .prevote block.hash = false := by
  obtain ⟨c₀, hnew⟩ := @BftConsensus.new_ok [⟨self, u64Max⟩] (List.cons_ne_nil _ _)
    (List.forall_mem_singleton.2 (by decide)) (List.nodup_singleton _)
  have htested : Tested [⟨self, u64Max⟩] c₀ (tallied c₀) .prevote block.hash reproposal 0
    block.hash 0 [vote block .prevote] certificate := tested_self
  have hexact : 2 * listedPower [⟨self, u64Max⟩] < 3 * listedPower [⟨self, u64Max⟩] := by decide
  refine ⟨c₀, hnew, htested, hexact, ?_, ?_⟩
  · exact (certificate_iff hnew (.refl _) (List.forall_mem_singleton.2 le_rfl) (by decide)
      htested.sealed htested.precommits).2 hexact
  · rw [← Bool.not_eq_true, hasQuorum_iff hnew (.refl _) htested.validators htested.totalPower
      htested.tally]
    decide

end Lone

end IeumChain
