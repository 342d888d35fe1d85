import IeumChain.ServicePool

/-!
# Who attests a network group

Validators are counted once for each node and address, but network groups once for each
attestation, and the proposer lists the attestations. A validator that is listed several times
can therefore decide alone which group a node counts for.
-/
namespace IeumChain

open Outcome

namespace NodeEmission

/-- The validators behind the group a node counts for, one entry for each attestation. -/
def groupValidators (counted : List NodeServiceAttestation) (n : EligibleNode) : List String :=
  ((proofsFor counted n.peerId n.rewardAddress).filter fun a =>
    a.networkGroup = n.networkGroup).map (·.validatorId)

/-- The code's count of a group is the number of these entries. -/
theorem length_groupValidators (counted : List NodeServiceAttestation) (n : EligibleNode) :
    (groupValidators counted n).length =
      ((proofsFor counted n.peerId n.rewardAddress).map (·.networkGroup)).count
        n.networkGroup := by
  rw [groupValidators, List.length_map, ← List.countP_eq_length_filter, List.count, List.countP_map]
  refine List.countP_congr fun a _ => ?_
  simp only [Function.comp_apply, decide_eq_true_eq, beq_iff_eq]

theorem Grouped.card_groupValidators {counted : List NodeServiceAttestation} {n : EligibleNode}
    (h : Grouped counted n) (hnodup : (groupValidators counted n).Nodup) :
    serviceMinimumValidators ≤ (groupValidators counted n).toFinset.card := by
  rw [List.toFinset_card_of_nodup hnodup, length_groupValidators]
  exact h.2

section
variable [Crypto] {timestamp : ℕ} {attestations : List NodeServiceAttestation}
  {validators : List Validator} {validatorPeerIds : Finset String} {staking : StakingState}
  {foundationBalance : ℕ}

/-- One of the payments is for the node, its address and its group. -/
def Paid (timestamp : ℕ) (attestations : List NodeServiceAttestation)
    (validators : List Validator) (validatorPeerIds : Finset String) (staking : StakingState)
    (foundationBalance : ℕ) (n : EligibleNode) : Prop :=
  n ∈ eligibleNodes timestamp attestations validators validatorPeerIds staking ∧
    ∃ payments, calculateServicePayments timestamp attestations validators validatorPeerIds
      staking foundationBalance = .ok payments ∧ ∃ p ∈ payments, p.address = n.rewardAddress

theorem paid_iff {n : EligibleNode} :
    Paid timestamp attestations validators validatorPeerIds staking foundationBalance n ↔
      InTurn timestamp staking (accepted timestamp attestations validators validatorPeerIds) n ∧
        (∀ a ∈ attestations, a.verify = .ok ()) ∧ servicePool timestamp foundationBalance ≠ 0 := by
  rw [Paid, ← mem_eligibleNodes]
  refine and_congr_right fun hn => ?_
  simp only [calculateServicePayments_eq_ok]
  constructor
  · rintro ⟨payments, ⟨hverified, hpayments⟩, p, hp, -⟩
    refine ⟨hverified, fun hpool => ?_⟩
    rw [if_pos (.inr hpool)] at hpayments
    rw [hpayments] at hp
    cases hp
  · rintro ⟨hverified, hpool⟩
    have hpaid : ¬(eligibleNodes timestamp attestations validators validatorPeerIds staking = [] ∨
        servicePool timestamp foundationBalance = 0) :=
      not_or.2 ⟨List.ne_nil_of_mem hn, hpool⟩
    refine ⟨_, ⟨hverified, rfl⟩, ?_⟩
    rw [if_neg hpaid]
    have haddress := List.mem_map_of_mem (f := EligibleNode.rewardAddress) hn
    have hmap := map_address_splitPool (servicePool timestamp foundationBalance)
      (servicePool timestamp foundationBalance / (eligibleNodes timestamp attestations validators
        validatorPeerIds staking).length) 0 ((eligibleNodes timestamp attestations validators
          validatorPeerIds staking).map EligibleNode.rewardAddress)
    rw [← hmap] at haddress
    exact List.mem_map.1 haddress

/-- Every paid node counts for a group that enough distinct validators attested exactly if
nothing is paid, or if every node in turn for whose group a validator is listed twice still has
enough distinct validators in it. -/
theorem paid_groups_attested_iff :
    (∀ n, Paid timestamp attestations validators validatorPeerIds staking foundationBalance n →
      serviceMinimumValidators ≤ (groupValidators
        (accepted timestamp attestations validators validatorPeerIds) n).toFinset.card) ↔
      (∃ a ∈ attestations, a.verify ≠ .ok ()) ∨ servicePool timestamp foundationBalance = 0 ∨
        ∀ n, InTurn timestamp staking
            (accepted timestamp attestations validators validatorPeerIds) n →
          ¬(groupValidators (accepted timestamp attestations validators validatorPeerIds)
            n).Nodup →
          serviceMinimumValidators ≤ (groupValidators
            (accepted timestamp attestations validators validatorPeerIds) n).toFinset.card := by
  constructor
  · intro h
    by_cases hverified : ∀ a ∈ attestations, a.verify = .ok ()
    · by_cases hpool : servicePool timestamp foundationBalance = 0
      · exact .inr (.inl hpool)
      · exact .inr (.inr fun n hn _ => h n (paid_iff.2 ⟨hn, hverified, hpool⟩))
    · push Not at hverified
      exact .inl hverified
  · intro h n hn
    obtain ⟨hturn, hverified, hpool⟩ := paid_iff.1 hn
    by_cases hnodup : (groupValidators
        (accepted timestamp attestations validators validatorPeerIds) n).Nodup
    · exact hturn.grouped.card_groupValidators hnodup
    · rcases h with ⟨a, ha, hfails⟩ | hempty | hattested
      · exact absurd (hverified a ha) hfails
      · exact absurd hempty hpool
      · exact hattested n hturn hnodup

end

end NodeEmission

/-! One validator, listed three times, names the group; two others name other groups. -/

namespace Quartet

open NodeEmission

attribute [local instance] verdictCrypto

/-- An attestation for the public node that names a network group. -/
def groupAttestation (n : ℕ) (networkGroup : String) : NodeServiceAttestation :=
  let a : NodeServiceAttestation := { attestation n with networkGroup, signatureHex := "" }
  { a with signatureHex := StandIn.sign n a.bytesToSign }

def listedThrice : List NodeServiceAttestation :=
  [groupAttestation 1 "g", groupAttestation 1 "g", groupAttestation 1 "g",
    groupAttestation 2 "h", groupAttestation 3 "i"]

theorem verify_groupAttestation {n : ℕ} {networkGroup : String}
    (hname : networkGroup ≠ "") (hsize : networkGroup.utf8ByteSize ≤ 96) :
    (groupAttestation n networkGroup).verify = .ok () := by
  rw [NodeServiceAttestation.verify, check_bind_eq_ok, reject_eq_ok]
  refine ⟨?_, StandIn.verifySignature_sign _ n _⟩
  simp only [groupAttestation, attestation, hname, not_lt.2 hsize, or_false]
  decide

/-- The node is paid as one of the group `g`, which a single validator attested. -/
theorem groups_of_one_validator :
    ¬∀ (timestamp : ℕ) (attestations : List NodeServiceAttestation)
        (validators : List Validator) (validatorPeerIds : Finset String)
        (staking : StakingState) (foundationBalance : ℕ) (n : EligibleNode),
      Paid timestamp attestations validators validatorPeerIds staking foundationBalance n →
        serviceMinimumValidators ≤ (groupValidators
          (accepted timestamp attestations validators validatorPeerIds) n).toFinset.card := by
  intro h
  have hnodes : eligibleNodes serviceTime listedThrice members ∅ serviceSnapshot.staking =
      [⟨"p", operator, "g"⟩] := by
    decide
  have hverified : ∀ a ∈ listedThrice, a.verify = .ok () := by
    simp only [listedThrice, List.forall_mem_cons, List.not_mem_nil, false_imp_iff, implies_true,
      and_true]
    have hg : (groupAttestation 1 "g").verify = .ok () :=
      verify_groupAttestation (by decide) (by decide)
    exact ⟨hg, hg, hg, verify_groupAttestation (by decide) (by decide),
      verify_groupAttestation (by decide) (by decide)⟩
  have hpaid : Paid serviceTime listedThrice members ∅ serviceSnapshot.staking 5
      ⟨"p", operator, "g"⟩ := by
    rw [paid_iff, ← mem_eligibleNodes, hnodes]
    exact ⟨List.mem_singleton_self _, hverified, by decide⟩
  have hcard := h _ _ _ _ _ _ _ hpaid
  revert hcard
  decide

end Quartet

end IeumChain
