import Mathlib.Algebra.BigOperators.Group.Finset.Basic
import IeumChain.SnapshotVotes

/-!
# Who approves a recovery

A recovery of single transactions needs three quarters of the validators or three quarters of the
power. To roll the chain back to a checkpoint takes both, so that two approved rollbacks have
approvers in common: at least half of the validators, with at least half of the power.
-/
namespace IeumChain

open Outcome MachineWords FiniteMap

def recoveryQuorumNumerator : ℕ := 3
def recoveryQuorumDenominator : ℕ := 4

inductive RecoveryApprovalBasis
  | validatorCount
  | votingPower
  | both
  deriving Repr, DecidableEq

structure RecoveryApprovalResult where
  approved : Bool
  basis : Option RecoveryApprovalBasis
  approvedValidators : ℕ
  totalValidators : ℕ
  approvedVotingPower : ℕ
  totalVotingPower : ℕ
  deriving Repr, DecidableEq

def reachesThreeQuarters (approved total : ℕ) : Bool :=
  0 < total ∧ saturatingMul u128Max total recoveryQuorumNumerator ≤
    saturatingMul u128Max approved recoveryQuorumDenominator

namespace Recovery

def register (s : HashMap String ℕ × ℕ) (v : Validator) :
    Except String (HashMap String ℕ × ℕ) := do
  reject (v.votingPower = 0) ("검증자 " ++ v.id ++ "의 투표권이 0입니다.")
  reject (v.id ∈ s.1) ("중복 등록 검증자입니다: " ++ v.id)
  let total ← okOr (checkedAdd u64Max s.2 v.votingPower)
    "전체 검증자 투표권 합계가 u64 범위를 넘습니다."
  pure (s.1.insert v.id v.votingPower, total)

def addApproval (powers : HashMap String ℕ) (approvedPower : ℕ) (id : String) :
    Except String ℕ := do
  let power ← okOr (powers.lookup id) ("미등록 검증자의 복구 승인이 포함됐습니다: " ++ id)
  okOr (checkedAdd u64Max approvedPower power) "승인 투표권 합계가 u64 범위를 넘습니다."

end Recovery

/-- Who approves several times counts once. The order of the approvals decides only which of several
unknown ones is named. -/
def evaluateRecoveryApprovals (validators : List Validator) (approvalIds : List String) :
    Except String RecoveryApprovalResult := do
  reject (validators = []) "복구 승인에 사용할 등록 검증자가 없습니다."
  let (powers, totalPower) ← validators.foldlM Recovery.register (∅, 0)
  let approvals := approvalIds.dedup
  let approvedPower ← approvals.foldlM (Recovery.addApproval powers) 0
  let basis :=
    if reachesThreeQuarters approvals.length validators.length then
      some RecoveryApprovalBasis.validatorCount
    else if reachesThreeQuarters approvedPower totalPower then some .votingPower
    else none
  pure
    { approved := basis.isSome, basis, approvedValidators := approvals.length
      totalValidators := validators.length, approvedVotingPower := approvedPower
      totalVotingPower := totalPower }

def evaluateCheckpointRecoveryApprovals (validators : List Validator) (approvalIds : List String) :
    Except String RecoveryApprovalResult := do
  let result ← evaluateRecoveryApprovals validators approvalIds
  let approved :=
    reachesThreeQuarters result.approvedValidators result.totalValidators &&
      reachesThreeQuarters result.approvedVotingPower result.totalVotingPower
  pure { result with approved, basis := if approved then some .both else none }

/-! ## What an evaluation counts -/

namespace Recovery

variable {validators : List Validator} {ids : List String}

/-- The validators are registered like those of a consensus, with a bound on their power. -/
theorem newLoop_of_register {m : HashMap String ℕ} {total : ℕ} {s : HashMap String ℕ × ℕ}
    (h : validators.foldlM register (m, total) = .ok s) (htotal : total ≤ u64Max) :
    BftConsensus.newLoop m validators = .ok s.1 ∧ s.2 = total + listedPower validators ∧
      s.2 ≤ u64Max ∧ ∀ v ∈ validators, 0 < v.votingPower := by
  induction validators generalizing m total with
  | nil =>
      rw [List.foldlM_nil, pure_eq_ok] at h
      subst h
      exact ⟨rfl, rfl, htotal, nofun⟩
  | cons v rest ih =>
      simp only [List.foldlM_cons, register, bind_eq_ok, reject_eq_ok, okOr_eq_ok,
        checkedAdd_eq_some, exists_const, pure_eq_ok] at h
      obtain ⟨_, ⟨hpower, hnew, sum, ⟨rfl, hfits⟩, rfl⟩, hrest⟩ := h
      obtain ⟨hloop, hsum, hbound, hpowered⟩ := ih hrest hfits
      refine ⟨?_, ?_, hbound, List.forall_mem_cons.2 ⟨Nat.pos_of_ne_zero hpower, hpowered⟩⟩
      · rw [BftConsensus.newLoop, reject, if_neg (not_or.2 ⟨hpower, hnew⟩)]
        exact hloop
      · rw [hsum, add_assoc]
        rfl

theorem length_le_listedPower (h : ∀ v ∈ validators, 0 < v.votingPower) :
    validators.length ≤ listedPower validators := by
  induction validators with
  | nil => exact le_rfl
  | cons v rest ih =>
      rw [List.forall_mem_cons] at h
      have hrest := ih h.2
      have hhead := h.1
      simp only [listedPower, List.map_cons, List.sum_cons, List.length_cons] at hrest ⊢
      omega

/-- Every approval comes from a validator, and together they have this power. -/
theorem addApproval_fold {powers : HashMap String ℕ} {start power : ℕ}
    (h : ids.foldlM (addApproval powers) start = .ok power) :
    power = start + (ids.map fun id => getD powers id 0).sum ∧ ∀ id ∈ ids, id ∈ powers := by
  induction ids generalizing start with
  | nil =>
      rw [List.foldlM_nil, pure_eq_ok] at h
      exact ⟨h.symm, nofun⟩
  | cons id rest ih =>
      simp only [List.foldlM_cons, addApproval, bind_eq_ok, okOr_eq_ok, checkedAdd_eq_some] at h
      obtain ⟨_, ⟨own, hlookup, rfl, -⟩, hrest⟩ := h
      obtain ⟨rfl, hmem⟩ := ih hrest
      have hown : getD powers id 0 = own := by rw [getD, hlookup, Option.getD_some]
      refine ⟨by rw [List.map_cons, List.sum_cons, hown, add_assoc], ?_⟩
      exact List.forall_mem_cons.2 ⟨AList.lookup_isSome.1 (Option.isSome_of_mem hlookup), hmem⟩

/-- What comes out of an evaluation, whatever its verdict. -/
structure Counted (validators : List Validator) (ids : List String) (r : RecoveryApprovalResult) :
    Prop where
  distinct : (validators.map (·.id)).Nodup
  total : r.totalVotingPower = listedPower validators
  fits : listedPower validators ≤ u64Max
  length : r.totalValidators = validators.length
  length_le : validators.length ≤ listedPower validators
  registered : ids.toFinset ⊆ (validators.map (·.id)).toFinset
  approvers : r.approvedValidators = ids.toFinset.card
  power : r.approvedVotingPower = powerOfIds validators ids.toFinset

theorem counted_evaluate {r : RecoveryApprovalResult}
    (h : evaluateRecoveryApprovals validators ids = .ok r) : Counted validators ids r := by
  simp only [evaluateRecoveryApprovals, bind_eq_ok, reject_eq_ok, exists_const, pure_eq_ok] at h
  obtain ⟨-, ⟨powers, totalPower⟩, hregister, approvedPower, happrove, rfl⟩ := h
  obtain ⟨hloop, htotal, hfits, hpowered⟩ := newLoop_of_register hregister (Nat.zero_le _)
  obtain ⟨hpowers, hnodup, -, -, hother, -⟩ := BftConsensus.newLoop_spec hloop
  obtain ⟨hpower, hmem⟩ := addApproval_fold happrove
  rw [zero_add] at htotal hpower
  have hpowers : powers = validatorPowers validators := hpowers
  have hids : ids.dedup.toFinset = ids.toFinset := by
    ext id
    rw [List.mem_toFinset, List.mem_toFinset, List.mem_dedup]
  refine ⟨hnodup, htotal, htotal ▸ hfits, rfl, length_le_listedPower hpowered, ?_, ?_, ?_⟩
  · intro id hid
    rw [← hids, List.mem_toFinset] at hid
    rw [List.mem_toFinset]
    by_contra hunknown
    have hlookup : powers.lookup id = none := by
      rw [hother id hunknown]
      rfl
    exact AList.lookup_eq_none.1 hlookup (hmem id hid)
  · exact (List.card_toFinset ids).symm
  · dsimp only
    rw [hpower, powerOfIds, ← hids, List.sum_toFinset _ ids.nodup_dedup, hpowers]

theorem reachesThreeQuarters_iff {approved total : ℕ} (h : total ≤ u64Max)
    (happroved : approved ≤ total) :
    reachesThreeQuarters approved total = true ↔ 0 < total ∧ total * 3 ≤ approved * 4 := by
  have hmax : u64Max * 4 ≤ u128Max := by decide
  have htotal : saturatingMul u128Max total recoveryQuorumNumerator = total * 3 :=
    min_eq_left ((Nat.mul_le_mul h (by decide)).trans hmax)
  have hpart : saturatingMul u128Max approved recoveryQuorumDenominator = approved * 4 :=
    min_eq_left ((Nat.mul_le_mul_right _ (happroved.trans h)).trans hmax)
  rw [reachesThreeQuarters, decide_eq_true_eq, htotal, hpart]

variable {r : RecoveryApprovalResult}

theorem Counted.card_le (h : Counted validators ids r) : ids.toFinset.card ≤ validators.length := by
  have hcard := Finset.card_le_card h.registered
  rwa [List.toFinset_card_of_nodup h.distinct, List.length_map] at hcard

theorem Counted.enough_approvers (h : Counted validators ids r) :
    reachesThreeQuarters r.approvedValidators r.totalValidators = true ↔
      0 < validators.length ∧ validators.length * 3 ≤ ids.toFinset.card * 4 := by
  rw [h.approvers, h.length]
  exact reachesThreeQuarters_iff (h.length_le.trans h.fits) h.card_le

theorem Counted.enough_power (h : Counted validators ids r) :
    reachesThreeQuarters r.approvedVotingPower r.totalVotingPower = true ↔
      0 < listedPower validators ∧
        listedPower validators * 3 ≤ powerOfIds validators ids.toFinset * 4 := by
  rw [h.power, h.total]
  exact reachesThreeQuarters_iff h.fits (powerOfIds_le _ _)

end Recovery

open Recovery

theorem approved_evaluate {validators : List Validator} {ids : List String}
    {r : RecoveryApprovalResult}
    (h : evaluateCheckpointRecoveryApprovals validators ids = .ok r)
    (happroved : r.approved = true) :
    (validators.map (·.id)).Nodup ∧ ids.toFinset ⊆ (validators.map (·.id)).toFinset ∧
      validators.length * 3 ≤ ids.toFinset.card * 4 ∧
      listedPower validators * 3 ≤ powerOfIds validators ids.toFinset * 4 := by
  simp only [evaluateCheckpointRecoveryApprovals, bind_eq_ok, pure_eq_ok] at h
  obtain ⟨result, hresult, rfl⟩ := h
  have hcounted := counted_evaluate hresult
  obtain ⟨hcount, hpower⟩ := Bool.and_eq_true_iff.1 happroved
  exact ⟨hcounted.distinct, hcounted.registered, (hcounted.enough_approvers.1 hcount).2,
    (hcounted.enough_power.1 hpower).2⟩

/-- Any two rollbacks to checkpoints that are approved have been approved in common by half of the
validators, who have half of the power. -/
theorem checkpoint_recoveries_overlap {validators : List Validator} {ids ids' : List String}
    {r r' : RecoveryApprovalResult}
    (h : evaluateCheckpointRecoveryApprovals validators ids = .ok r)
    (h' : evaluateCheckpointRecoveryApprovals validators ids' = .ok r')
    (happroved : r.approved = true) (happroved' : r'.approved = true) :
    validators.length ≤ 2 * (ids.toFinset ∩ ids'.toFinset).card ∧
      listedPower validators ≤ 2 * powerOfIds validators (ids.toFinset ∩ ids'.toFinset) := by
  obtain ⟨hdistinct, hids, hcount, hpower⟩ := approved_evaluate h happroved
  obtain ⟨-, hids', hcount', hpower'⟩ := approved_evaluate h' happroved'
  have hunion : (ids.toFinset ∪ ids'.toFinset).card ≤ validators.length := by
    have hcard := Finset.card_le_card (Finset.union_subset hids hids')
    rwa [List.toFinset_card_of_nodup hdistinct, List.length_map] at hcard
  have hcards := Finset.card_union_add_card_inter ids.toFinset ids'.toFinset
  have hunionPower := powerOfIds_le validators (ids.toFinset ∪ ids'.toFinset)
  have hpowers : powerOfIds validators (ids.toFinset ∪ ids'.toFinset) +
      powerOfIds validators (ids.toFinset ∩ ids'.toFinset) =
      powerOfIds validators ids.toFinset + powerOfIds validators ids'.toFinset :=
    Finset.sum_union_inter
  exact ⟨by omega, by omega⟩

/-! Three of four approve one rollback, and another three a second one. -/

namespace Sample

def fourValidators : List Validator := [⟨"a", 1⟩, ⟨"b", 1⟩, ⟨"c", 1⟩, ⟨"d", 1⟩]

theorem checkpoint_recoveries_overlap_four :
    4 ≤ 2 * (["a", "b", "c"].toFinset ∩ ["b", "c", "d"].toFinset).card ∧
      4 ≤ 2 * powerOfIds fourValidators
        (["a", "b", "c"].toFinset ∩ ["b", "c", "d"].toFinset) := by
  have hfirst : evaluateCheckpointRecoveryApprovals fourValidators ["a", "b", "c"] =
      .ok ⟨true, some .both, 3, 4, 3, 4⟩ := by decide
  have hsecond : evaluateCheckpointRecoveryApprovals fourValidators ["b", "c", "d"] =
      .ok ⟨true, some .both, 3, 4, 3, 4⟩ := by decide
  exact checkpoint_recoveries_overlap hfirst hsecond rfl rfl

end Sample

end IeumChain
