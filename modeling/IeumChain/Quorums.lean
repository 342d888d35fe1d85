import IeumChain.ConsensusSpec
import IeumChain.Library.LockedVoting

/-!
# Quorums of a validator set

A validator set that a voting machine accepts is a committee of weighted voters. The
counts of the code, on saturating and wrapping machine words, are exact for it, so
that a count above two thirds is a quorum of the committee.
-/
namespace IeumChain

open ByteCodec Outcome MachineWords FiniteMap VoteTally LockedVoting

theorem BftConsensus.newLoop_spec {validators : List Validator} {m m' : HashMap String ℕ}
    (h : newLoop m validators = .ok m') :
    m' = (validators.map fun v => (v.id, v.votingPower)).foldl (fun m p => m.insert p.1 p.2) m ∧
      (validators.map (·.id)).Nodup ∧ (∀ v ∈ validators, v.id ∉ m) ∧
      (∀ v ∈ validators, m'.lookup v.id = some v.votingPower) ∧
      (∀ id, id ∉ validators.map (·.id) → m'.lookup id = m.lookup id) ∧
      total m' = total m + listedPower validators := by
  induction validators generalizing m with
  | nil =>
      cases h
      simp [listedPower]
  | cons v rest ih =>
      simp only [newLoop, check_bind_eq_ok, reject_eq_ok, not_or] at h
      obtain ⟨⟨-, hnew⟩, h⟩ := h
      obtain ⟨hmap, hnodup, hfresh, hlookup, hother, htotal⟩ := ih h
      have hhead : v.id ∉ rest.map (·.id) := by
        intro hmem
        obtain ⟨u, hu, hid⟩ := List.mem_map.1 hmem
        refine hfresh u hu ?_
        rw [hid]
        exact (AList.mem_insert _).2 (.inl rfl)
      refine ⟨by simpa using hmap, List.nodup_cons.2 ⟨hhead, hnodup⟩, ?_, ?_, ?_, ?_⟩
      · intro u hu
        rcases List.mem_cons.1 hu with rfl | hu
        · exact hnew
        · exact fun hmem => hfresh u hu ((AList.mem_insert _).2 (.inr hmem))
      · intro u hu
        rcases List.mem_cons.1 hu with rfl | hu
        · rw [hother _ hhead, AList.lookup_insert]
        · exact hlookup u hu
      · intro id hid
        rw [List.map_cons, List.mem_cons, not_or] at hid
        rw [hother id hid.2, AList.lookup_insert_ne hid.1]
      · have hinsert := total_insert m v.id v.votingPower
        have hzero : getD m v.id 0 = 0 := by
          rw [getD, AList.lookup_eq_none.2 hnew, Option.getD_none]
        rw [htotal, listedPower, listedPower, List.map_cons, List.sum_cons]
        omega

theorem BftConsensus.newLoop_ok {validators : List Validator} {m : HashMap String ℕ}
    (hpower : ∀ v ∈ validators, v.votingPower ≠ 0) (hnodup : (validators.map (·.id)).Nodup)
    (hfresh : ∀ v ∈ validators, v.id ∉ m) : ∃ m', newLoop m validators = .ok m' := by
  induction validators generalizing m with
  | nil => exact ⟨m, rfl⟩
  | cons v rest ih =>
      rw [List.map_cons, List.nodup_cons] at hnodup
      obtain ⟨m', hrest⟩ := ih (m := m.insert v.id v.votingPower)
        (fun u hu => hpower u (List.mem_cons_of_mem _ hu)) hnodup.2 (by
          intro u hu hmem
          rcases (AList.mem_insert _).1 hmem with heq | hmem
          · exact hnodup.1 (heq ▸ List.mem_map_of_mem hu)
          · exact hfresh u (List.mem_cons_of_mem _ hu) hmem)
      refine ⟨m', ?_⟩
      simp only [newLoop, check_bind_eq_ok, reject_eq_ok, not_or]
      exact ⟨⟨hpower v (List.mem_cons_self ..), hfresh v (List.mem_cons_self ..)⟩, hrest⟩

/-- Distinct validators with power are accepted. -/
theorem BftConsensus.new_ok {validators : List Validator} (hne : validators ≠ [])
    (hpower : ∀ v ∈ validators, v.votingPower ≠ 0) (hnodup : (validators.map (·.id)).Nodup) :
    ∃ c, new validators = .ok c := by
  obtain ⟨m, hm⟩ := newLoop_ok (m := ∅) hpower hnodup fun v _ => AList.notMem_empty v.id
  simp only [new, check_bind_eq_ok, reject_eq_ok, hm]
  exact ⟨_, hne, rfl⟩

theorem BftConsensus.newLoop_positive {validators : List Validator} {m m' : HashMap String ℕ}
    (h : newLoop m validators = .ok m') : ∀ v ∈ validators, 0 < v.votingPower := by
  induction validators generalizing m with
  | nil => exact List.forall_mem_nil _
  | cons v rest ih =>
      simp only [newLoop, check_bind_eq_ok, reject_eq_ok, not_or] at h
      exact List.forall_mem_cons.2 ⟨Nat.pos_of_ne_zero h.1.1, ih h.2⟩

/-- A new machine has distinct validators with power, looks each one up in the list, and keeps
the sum of the powers as a machine word. -/
theorem BftConsensus.new_spec {validators : List Validator} {c : BftConsensus}
    (h : new validators = .ok c) :
    (validators.map (·.id)).Nodup ∧ c.validators = validatorPowers validators ∧
      (∀ v ∈ validators, (validatorPowers validators).lookup v.id = some v.votingPower) ∧
      0 < listedPower validators ∧ c.totalPower = listedPower validators % 2 ^ 64 := by
  simp only [new, check_bind_eq_ok, reject_eq_ok] at h
  simp only [bind_eq_ok, pure_eq_ok] at h
  obtain ⟨hne, map, hmap, rfl⟩ := h
  obtain ⟨hfold, hnodup, -, hlookup, -, htotal⟩ := newLoop_spec hmap
  have hpowers : map = validatorPowers validators := hfold
  refine ⟨hnodup, hpowers, fun v hv => hpowers ▸ hlookup v hv, ?_, ?_⟩
  · obtain ⟨v, hv⟩ := List.exists_mem_of_ne_nil _ hne
    exact (newLoop_positive hmap v hv).trans_le
      (List.single_le_sum (fun _ _ => Nat.zero_le _) _ (List.mem_map_of_mem hv))
  · have hempty : total (∅ : HashMap String ℕ) = 0 := rfl
    rw [hempty, Nat.zero_add] at htotal
    rw [← htotal]
    rfl

/-- A validator set that the voting machine accepts and whose powers add up without
overflow, with the validators that may deviate from the protocol. -/
structure ValidatorSet where
  validators : List Validator
  byzantine : Finset String
  accepted : ∃ c, BftConsensus.new validators = .ok c
  power_lt : listedPower validators < 2 ^ 62
  byzantine_lt : 3 * listedPower (validators.filter fun v => v.id ∈ byzantine) <
    listedPower validators

namespace ValidatorSet

variable (S : ValidatorSet)

theorem newLoop_eq : BftConsensus.newLoop ∅ S.validators = .ok (validatorPowers S.validators) := by
  obtain ⟨c, hc⟩ := S.accepted
  simp only [BftConsensus.new, check_bind_eq_ok] at hc
  simp only [bind_eq_ok] at hc
  obtain ⟨-, map, hmap, -⟩ := hc
  rw [hmap, (BftConsensus.newLoop_spec hmap).1]
  rfl

def members : Finset String := (S.validators.map (·.id)).toFinset

/-- A validator that follows the protocol. -/
def Honest (id : String) : Prop := id ∈ S.members ∧ id ∉ S.byzantine

def power (id : String) : ℕ := ((validatorPowers S.validators).lookup id).getD 0

theorem nodup : (S.validators.map (·.id)).Nodup := (BftConsensus.newLoop_spec S.newLoop_eq).2.1

theorem lookup_of_mem {v : Validator} (hv : v ∈ S.validators) :
    (validatorPowers S.validators).lookup v.id = some v.votingPower :=
  (BftConsensus.newLoop_spec S.newLoop_eq).2.2.2.1 v hv

theorem mem_members_of_lookup {id : String}
    (h : ((validatorPowers S.validators).lookup id).isSome) : id ∈ S.members := by
  by_contra hid
  rw [members, List.mem_toFinset] at hid
  rw [(BftConsensus.newLoop_spec S.newLoop_eq).2.2.2.2.1 id hid] at h
  cases h

theorem total_powers : total (validatorPowers S.validators) = listedPower S.validators := by
  simpa [total, values] using (BftConsensus.newLoop_spec S.newLoop_eq).2.2.2.2.2

/-- Summing over identifiers is summing over the list. -/
theorem sum_power_sublist {listed : List Validator} (h : listed.Sublist S.validators) :
    ∑ id ∈ (listed.map (·.id)).toFinset, S.power id = listedPower listed := by
  rw [List.sum_toFinset _ (S.nodup.sublist (h.map _)), List.map_map, listedPower]
  congr 1
  apply List.map_congr_left
  intro v hv
  rw [Function.comp_apply, power, S.lookup_of_mem (h.subset hv), Option.getD_some]

theorem sum_power_members : ∑ id ∈ S.members, S.power id = listedPower S.validators :=
  S.sum_power_sublist (List.Sublist.refl _)

/-- The validator set as a committee. -/
def committee : Committee String where
  members := S.members
  power := S.power
  Honest := S.Honest
  faultyPower F hF hfaulty := by
    have hsub : F ⊆ ((S.validators.filter fun v => v.id ∈ S.byzantine).map (·.id)).toFinset := by
      intro id hid
      obtain ⟨v, hv, rfl⟩ := List.mem_map.1 (List.mem_toFinset.1 (hF hid))
      rw [List.mem_toFinset]
      refine List.mem_map_of_mem (List.mem_filter.2 ⟨hv, ?_⟩)
      rw [decide_eq_true_eq]
      by_contra hhonest
      exact hfaulty _ hid ⟨hF hid, hhonest⟩
    have hle := Finset.sum_le_sum_of_subset (f := S.power) hsub
    rw [S.sum_power_sublist List.filter_sublist] at hle
    rw [S.sum_power_members]
    have := S.byzantine_lt
    omega

theorem total_committee : S.committee.total = listedPower S.validators := S.sum_power_members

theorem sum_power_lt {ids : Finset String} (h : ids ⊆ S.members) :
    ∑ id ∈ ids, S.power id < 2 ^ 62 := by
  have hle := Finset.sum_le_sum_of_subset (f := S.power) h
  rw [S.sum_power_members] at hle
  exact hle.trans_lt S.power_lt

/-- The machine of a node counts for this validator set. -/
structure Counts (c : BftConsensus) : Prop where
  validators : c.validators = validatorPowers S.validators
  totalPower : c.totalPower = listedPower S.validators

variable {S}

theorem counts_new {c : BftConsensus} (h : BftConsensus.new S.validators = .ok c) :
    S.Counts c := by
  simp only [BftConsensus.new, check_bind_eq_ok, S.newLoop_eq] at h
  simp only [bind_eq_ok, Except.ok.injEq, pure_eq_ok] at h
  obtain ⟨-, map, rfl, rfl⟩ := h
  refine ⟨rfl, ?_⟩
  have htotal := S.total_powers
  have hlt := S.power_lt
  simp only [total] at htotal
  simp only [wrappingSum, htotal]
  exact Nat.mod_eq_of_lt (hlt.trans_le (by norm_num [u64Max]))

/-- Above two thirds in machine words is above two thirds. -/
theorem Counts.quorum {c : BftConsensus} (h : S.Counts c) {ids : Finset String}
    (hids : ids ⊆ S.members)
    (hexceeds : BftConsensus.exceedsTwoThirds (∑ id ∈ ids, S.power id) c.totalPower = true) :
    S.committee.Quorum ids := by
  rw [h.totalPower, BftConsensus.exceedsTwoThirds_iff (S.sum_power_lt hids) S.power_lt] at hexceeds
  refine ⟨hids, ?_⟩
  rw [total_committee]
  exact hexceeds

/-- The votes filed in the current round. -/
theorem Counts.hasQuorum {c : BftConsensus} (h : S.Counts c) {voteType : VoteType} {x : String}
    (hmembers : getD c.votes (voteType, x) ∅ ⊆ S.members) (hquorum : c.hasQuorum voteType x = true) :
    S.committee.Quorum (getD c.votes (voteType, x) ∅) := by
  refine h.quorum hmembers ?_
  have hsum : c.votePower voteType x = ∑ id ∈ getD c.votes (voteType, x) ∅, S.power id := by
    rw [BftConsensus.votePower, h.validators]
    exact Nat.mod_eq_of_lt ((S.sum_power_lt hmembers).trans_le (by norm_num))
  rw [← hsum]
  exact hquorum

/-- A count under the powers of the set is a sum over members with accepted votes. -/
theorem exists_members_of_count {ν : Type} {rule : Rule ν}
    (hpower : rule.power = (validatorPowers S.validators).lookup) {votes : List ν} {n : ℕ}
    (h : count rule votes = .ok n) :
    ∃ ids ⊆ S.members, n = ∑ id ∈ ids, S.power id ∧
      ∀ id ∈ ids, ∃ vote ∈ votes, rule.voter vote = id ∧ Accepted rule vote := by
  obtain ⟨ids, hsum, hvotes⟩ := count_sound rule h
  refine ⟨ids, ?_, ?_, hvotes⟩
  · intro id hid
    obtain ⟨vote, -, rfl, -, -, hsome⟩ := hvotes id hid
    rw [hpower] at hsome
    exact S.mem_members_of_lookup hsome
  · rw [hsum]
    exact Finset.sum_congr rfl fun id _ => by rw [powerOf, hpower, power]

section
variable [Crypto]

/-- Each member of a quorum has a verified vote of the given content among the votes. -/
def Attested (S : ValidatorSet) (votes : List ConsensusMessage) (height round : ℕ)
    (voteType : VoteType) (x : String) : Prop :=
  ∃ Q, S.committee.Quorum Q ∧ ∀ id ∈ Q, ∃ vote ∈ votes, vote.validatorId = id ∧
    vote.verify = .ok () ∧ vote.height = height ∧ vote.round = round ∧ vote.voteType = voteType ∧
    vote.blockHash = x

theorem attested_of_count {rule : Rule ConsensusMessage} {height round : ℕ} {voteType : VoteType}
    {x : String} (hmatching : rule.matching = votesFor height round voteType x)
    (hverify : rule.verify = ConsensusMessage.verify) (hvoter : rule.voter = (·.validatorId))
    {votes : List ConsensusMessage} {ids : Finset String} (hquorum : S.committee.Quorum ids)
    (hvotes : ∀ id ∈ ids, ∃ vote ∈ votes, rule.voter vote = id ∧ Accepted rule vote) :
    S.Attested votes height round voteType x := by
  refine ⟨ids, hquorum, fun id hid => ?_⟩
  obtain ⟨vote, hmem, hid, hmatch, hok, -⟩ := hvotes id hid
  rw [hmatching, votesFor, decide_eq_true_eq] at hmatch
  rw [hvoter] at hid
  rw [hverify] at hok
  exact ⟨vote, hmem, hid, hok, hmatch⟩

/-- A valid-round proof names a quorum of prevotes of its round. -/
theorem Counts.attested_validRound {c : BftConsensus} (h : S.Counts c) {p : SignedProposal}
    {validRound : ℕ} (hproof : c.verifyValidRoundCertificate p validRound = .ok ()) :
    S.Attested p.validRoundPrevotes p.height validRound .prevote p.block.hash := by
  simp only [BftConsensus.verifyValidRoundCertificate, check_bind_eq_ok] at hproof
  obtain ⟨-, -, hproof⟩ := hproof
  simp only [bind_eq_ok, reject_eq_ok, not_not] at hproof
  obtain ⟨n, hcount, hexceeds⟩ := hproof
  obtain ⟨ids, hids, rfl, hvotes⟩ := exists_members_of_count (by rw [← h.validators]; rfl) hcount
  exact attested_of_count rfl rfl rfl (h.quorum hids hexceeds) hvotes

/-- A finality certificate names a quorum of precommits. -/
theorem attested_certificate {c : FinalityCertificate} (h : c.verify S.validators = .ok ()) :
    S.Attested c.precommits c.block.height c.round .precommit c.block.hash := by
  simp only [FinalityCertificate.verify, check_bind_eq_ok] at h
  obtain ⟨-, -, h⟩ := h
  simp only [bind_eq_ok, reject_eq_ok, not_le] at h
  obtain ⟨n, hcount, hexceeds⟩ := h
  obtain ⟨ids, hids, rfl, hvotes⟩ := exists_members_of_count (S := S) rfl hcount
  refine attested_of_count rfl rfl rfl ⟨hids, ?_⟩ hvotes
  rw [total_committee, mul_comm 2, mul_comm 3]
  exact hexceeds

end

end ValidatorSet

end IeumChain
