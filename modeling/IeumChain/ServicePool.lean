import IeumChain.CommonVerdict
import IeumChain.EmissionBudgets
import IeumChain.ServiceNodes

/-!
# The pool of the public nodes

The pool is split over the paid nodes to the last unit, and nothing in the computation leaves
its machine words. The payments are the same for every order of the attestations.
-/
namespace IeumChain

namespace NodeEmission

open Outcome MachineWords KeyedLists

/-! ## The order of the attestations -/

section
variable {timestamp : ℕ} {staking : StakingState} {counted counted' : List NodeServiceAttestation}

theorem proofsFor_perm (h : counted.Perm counted') (peerId : String) (rewardAddress : Address) :
    (proofsFor counted peerId rewardAddress).Perm (proofsFor counted' peerId rewardAddress) :=
  h.filter _

theorem qualified_perm (h : counted.Perm counted') {peerId : String} {rewardAddress : Address} :
    Qualified timestamp staking counted peerId rewardAddress ↔
      Qualified timestamp staking counted' peerId rewardAddress := by
  have hids := ((proofsFor_perm h peerId rewardAddress).map (·.validatorId)).dedup
  simp only [Qualified, hids.length_eq]

theorem Grouped.perm (h : counted.Perm counted') {n : EligibleNode} (hn : Grouped counted n) :
    Grouped counted' n := by
  have hproofs := proofsFor_perm h n.peerId n.rewardAddress
  refine ⟨hn.1.perm hproofs, ?_⟩
  rw [← (hproofs.map (·.networkGroup)).count_eq]
  exact hn.2

theorem groupedNode_perm (h : counted.Perm counted') (peerId : String) (rewardAddress : Address) :
    groupedNode counted peerId rewardAddress = groupedNode counted' peerId rewardAddress := by
  refine Option.ext fun n => ?_
  rw [groupedNode_eq_some, groupedNode_eq_some]
  constructor
  · rintro ⟨hpeer, haddress, hgrouped⟩
    exact ⟨hpeer, haddress, hgrouped.perm h⟩
  · rintro ⟨hpeer, haddress, hgrouped⟩
    exact ⟨hpeer, haddress, hgrouped.perm h.symm⟩

theorem serviceKeys_perm (h : counted.Perm counted') : serviceKeys counted = serviceKeys counted' :=
  insertionSort_eq_of_perm toLex (fun _ _ => Prod.Lex.toLex_le_toLex.symm) (h.map _).dedup
    ((List.nodup_dedup _).map toLex.injective)

theorem eligibleLoop_perm (h : counted.Perm counted') (used : List Address)
    (keys : List (String × Address)) :
    eligibleLoop timestamp staking counted used keys =
      eligibleLoop timestamp staking counted' used keys := by
  induction keys generalizing used with
  | nil => rfl
  | cons key rest ih =>
      obtain ⟨peerId, rewardAddress⟩ := key
      simp only [eligibleLoop_cons, qualified_perm h, groupedNode_perm h, ih]

end

section
variable {timestamp : ℕ} {attestations attestations' : List NodeServiceAttestation}
  {validators : List Validator} {validatorPeerIds : Finset String} {staking : StakingState}

/-- The attestations that count for a day. -/
def accepted (timestamp : ℕ) (attestations : List NodeServiceAttestation)
    (validators : List Validator) (validatorPeerIds : Finset String) :
    List NodeServiceAttestation :=
  attestations.filter (counts timestamp validators validatorPeerIds)

theorem eligibleNodes_eq :
    eligibleNodes timestamp attestations validators validatorPeerIds staking =
      capGroups [] (candidates timestamp staking
        (accepted timestamp attestations validators validatorPeerIds)) := rfl

theorem eligibleNodes_perm (h : attestations.Perm attestations') :
    eligibleNodes timestamp attestations validators validatorPeerIds staking =
      eligibleNodes timestamp attestations' validators validatorPeerIds staking := by
  have hcounted : (accepted timestamp attestations validators validatorPeerIds).Perm
      (accepted timestamp attestations' validators validatorPeerIds) := h.filter _
  simp only [eligibleNodes_eq, candidates, serviceKeys_perm hcounted,
    eligibleLoop_perm hcounted]

/-! ## What is known of a paid node -/

/-- Whose turn it is is decided by the accepted attestations and the bonds. -/
theorem mem_eligibleNodes {n : EligibleNode} :
    n ∈ eligibleNodes timestamp attestations validators validatorPeerIds staking ↔
      InTurn timestamp staking (accepted timestamp attestations validators validatorPeerIds) n := by
  rw [eligibleNodes_eq, mem_capGroups_candidates]

theorem nodup_eligibleNodes :
    ((eligibleNodes timestamp attestations validators validatorPeerIds staking).map
      (·.rewardAddress)).Nodup :=
  ((Proposer.capGroups_sublist [] _).map _).nodup nodup_candidates

theorem mem_proofsFor {a : NodeServiceAttestation} {peerId : String} {rewardAddress : Address} :
    a ∈ proofsFor (accepted timestamp attestations validators validatorPeerIds) peerId
        rewardAddress ↔
      (a ∈ attestations ∧ a.epoch = timestamp / rewardEpochSeconds ∧
        a.validatorId ∈ validators.map (·.id) ∧ a.peerId ∉ validatorPeerIds ∧
        serviceMinimumUptimeBps ≤ a.uptimeBps) ∧
      a.peerId = peerId ∧ a.rewardAddress = rewardAddress := by
  simp only [proofsFor, accepted, List.mem_filter, counts, decide_eq_true_eq]

/-- Three distinct active validators saw the node up on the day, and it is no validator. -/
theorem attested_on_day {n : EligibleNode}
    (h : n ∈ eligibleNodes timestamp attestations validators validatorPeerIds staking) :
    n.peerId ∉ validatorPeerIds ∧
      ∃ ids : Finset String, serviceMinimumValidators ≤ ids.card ∧ ∀ id ∈ ids,
        id ∈ validators.map (·.id) ∧ ∃ a ∈ attestations, a.validatorId = id ∧
          a.peerId = n.peerId ∧ a.rewardAddress = n.rewardAddress ∧
          a.epoch = timestamp / rewardEpochSeconds ∧ serviceMinimumUptimeBps ≤ a.uptimeBps := by
  have hqualified := (mem_eligibleNodes.1 h).qualified
  refine ⟨?_, ((proofsFor (accepted timestamp attestations validators validatorPeerIds) n.peerId
    n.rewardAddress).map (·.validatorId)).toFinset, ?_, ?_⟩
  · obtain ⟨a, ha⟩ := List.exists_mem_of_ne_nil _ hqualified.proofs_ne_nil
    obtain ⟨⟨-, -, -, hpeer, -⟩, heq, -⟩ := mem_proofsFor.1 ha
    exact heq ▸ hpeer
  · rw [List.card_toFinset]
    exact hqualified.1
  · intro id hid
    obtain ⟨a, ha, rfl⟩ := List.mem_map.1 (List.mem_toFinset.1 hid)
    obtain ⟨⟨hmem, hepoch, hactive, -, huptime⟩, hpeer, haddress⟩ := mem_proofsFor.1 ha
    exact ⟨hactive, a, hmem, rfl, hpeer, haddress, hepoch, huptime⟩

end

/-! ## The split in machine words -/

/-- The split as the source computes it: `none` where an amount or the sum leaves its word. -/
def splitPoolChecked (pool each : ℕ) : ℕ → List Address → Option (List EventPayment)
  | _, [] => some []
  | assigned, address :: rest => do
      let amount ← if rest = [] then checkedSub pool assigned else some each
      let assigned ← checkedAdd u128Max assigned amount
      let payments ← splitPoolChecked pool each assigned rest
      pure ({ address, amount } :: payments)

/-- The first second of a year of the emission, and the last. -/
def yearStart (year : ℕ) : ℕ := rewardActivationUnix + year * halvingSeconds

def yearStop (year : ℕ) : ℕ := min (yearStart year + halvingSeconds - 1) rewardEndUnix

def annualBudgetChecked (yearIndex : ℕ) : Option ℕ :=
  if rewardYearCount ≤ yearIndex then some 0
  else if yearIndex + 1 = rewardYearCount then
    checkedSub totalNodeEmission ((List.range yearIndex).map yearShare).sum
  else some (yearShare yearIndex)

/-- The daily budget with its subtractions and its division. -/
def dailyBudgetChecked (timestamp : ℕ) : Option ℕ :=
  match halvingIndex timestamp with
  | none => some 0
  | some year => do
      let span ← checkedSub (yearStop year) (yearStart year)
      let budget ← annualBudgetChecked year
      checkedDiv budget ((span + 1 + (rewardEpochSeconds - 1)) / rewardEpochSeconds)

theorem annualBudgetChecked_eq (yearIndex : ℕ) :
    annualBudgetChecked yearIndex = some (annualBudget yearIndex) := by
  unfold annualBudgetChecked annualBudget
  split_ifs with hafter hlast
  · rfl
  · have hcount : rewardYearCount = 15 := by decide
    obtain rfl : yearIndex = 14 := by omega
    exact checkedSub_of_le (by decide +kernel)
  · rfl

/-- A timestamp inside the emission lies behind the start of its year. -/
theorem yearStart_le_yearStop {timestamp year : ℕ} (h : halvingIndex timestamp = some year) :
    yearStart year ≤ yearStop year := by
  obtain ⟨⟨hstart, hend⟩, hyear⟩ := halvingIndex_eq_some.1 h
  have hmul : year * halvingSeconds ≤ timestamp - rewardActivationUnix := by
    rw [← hyear]
    exact Nat.div_mul_le_self _ _
  have hsecond : 0 < halvingSeconds := by decide
  unfold yearStop yearStart
  exact le_min (by omega) (by omega)

theorem yearDays_eq (year : ℕ) :
    yearDays year = (yearStop year - yearStart year + 1 + (rewardEpochSeconds - 1)) /
      rewardEpochSeconds := by
  rw [yearDays, yearStop, yearStart]

theorem div_ceil_pos {d : ℕ} (h : 0 < d) (n : ℕ) : 0 < (n + 1 + (d - 1)) / d :=
  Nat.div_pos (by omega) h

theorem dailyBudgetChecked_eq (timestamp : ℕ) :
    dailyBudgetChecked timestamp = some (dailyBudget timestamp) := by
  cases hindex : halvingIndex timestamp with
  | none => simp only [dailyBudgetChecked, dailyBudget, hindex]
  | some year =>
      have hday : 0 < rewardEpochSeconds := by decide
      simp only [dailyBudgetChecked, hindex, checkedSub_of_le (yearStart_le_yearStop hindex),
        annualBudgetChecked_eq, Option.bind_eq_bind, Option.bind_some,
        checkedDiv_of_pos (div_ceil_pos hday _), dailyBudget_of_year hindex, yearDays_eq]

/-- What was assigned and equal shares for the rest stay within the pool; then the last address
receives what is left of it. -/
theorem splitPoolChecked_eq {pool each assigned : ℕ} {addresses : List Address}
    (hpool : pool ≤ u128Max) (h : assigned + each * addresses.length ≤ pool) :
    splitPoolChecked pool each assigned addresses =
      some (splitPool pool each assigned addresses) := by
  induction addresses generalizing assigned with
  | nil => rfl
  | cons address rest ih =>
      rw [List.length_cons, mul_add, mul_one] at h
      cases rest with
      | nil =>
          have hassigned : assigned ≤ pool := by omega
          have hadd : checkedAdd u128Max assigned (pool - assigned) = some pool :=
            checkedAdd_eq_some.2 ⟨Nat.add_sub_cancel' hassigned, hpool⟩
          simp only [splitPoolChecked, splitPool, if_true, checkedSub_of_le hassigned, hadd,
            Option.bind_eq_bind, Option.bind_some, Option.pure_def]
      | cons next rest =>
          have hroom : assigned + each + each * (next :: rest).length ≤ pool := by omega
          have hadd : checkedAdd u128Max assigned each = some (assigned + each) :=
            checkedAdd_eq_some.2 ⟨rfl, by omega⟩
          rw [splitPoolChecked, if_neg (List.cons_ne_nil _ _)]
          simp only [splitPool, hadd, ih hroom, Option.bind_eq_bind, Option.bind_some,
            Option.pure_def]

theorem sum_splitPool {pool each assigned : ℕ} {addresses : List Address} (hne : addresses ≠ [])
    (h : assigned + each * addresses.length ≤ pool) :
    assigned + ((splitPool pool each assigned addresses).map (·.amount)).sum = pool := by
  induction addresses generalizing assigned with
  | nil => exact absurd rfl hne
  | cons address rest ih =>
      rw [List.length_cons, mul_add, mul_one] at h
      cases rest with
      | nil =>
          simp only [splitPool, List.map_cons, List.map_nil, List.sum_singleton]
          omega
      | cons next rest =>
          have hroom : assigned + each + each * (next :: rest).length ≤ pool := by omega
          have hrest := ih (List.cons_ne_nil _ _) hroom
          simp only [splitPool, List.map_cons, List.sum_cons] at hrest ⊢
          omega

theorem map_address_splitPool (pool each assigned : ℕ) (addresses : List Address) :
    (splitPool pool each assigned addresses).map (·.address) = addresses := by
  induction addresses generalizing assigned with
  | nil => rfl
  | cons address rest ih =>
      cases rest with
      | nil => rfl
      | cons next rest => simp only [splitPool, List.map_cons, ih]

/-! ## The payments of a day -/

section
variable [Crypto] {timestamp : ℕ} {attestations : List NodeServiceAttestation}
  {validators : List Validator} {validatorPeerIds : Finset String} {staking : StakingState}
  {foundationBalance : ℕ} {payments : List EventPayment}

theorem calculateServicePayments_eq_ok :
    calculateServicePayments timestamp attestations validators validatorPeerIds staking
        foundationBalance = .ok payments ↔
      (∀ a ∈ attestations, a.verify = .ok ()) ∧
      payments =
        if eligibleNodes timestamp attestations validators validatorPeerIds staking = [] ∨
            servicePool timestamp foundationBalance = 0 then []
        else
          let nodes := eligibleNodes timestamp attestations validators validatorPeerIds staking
          splitPool (servicePool timestamp foundationBalance)
            (servicePool timestamp foundationBalance / nodes.length) 0
            (nodes.map (·.rewardAddress)) := by
  rw [calculateServicePayments, check_bind_eq_ok, checkAll_eq_ok]
  refine and_congr_right fun _ => ?_
  dsimp only
  by_cases hnodes :
      eligibleNodes timestamp attestations validators validatorPeerIds staking = []
  · rw [if_pos hnodes, if_pos (Or.inl hnodes), pure_eq_ok, eq_comm]
  · by_cases hpool : servicePool timestamp foundationBalance = 0
    · rw [if_neg hnodes, if_pos hpool, if_pos (Or.inr hpool), pure_eq_ok, eq_comm]
    · rw [if_neg hnodes, if_neg hpool, if_neg (not_or.2 ⟨hnodes, hpool⟩), pure_eq_ok, eq_comm]

/-- Payments that are made add up to the pool, go to distinct addresses with a mature bond and
three attesting validators, are computed within the machine words, and do not depend on the
order of the attestations. -/
theorem service_pool_split
    (h : calculateServicePayments timestamp attestations validators validatorPeerIds staking
      foundationBalance = .ok payments) (hne : payments ≠ []) :
    let nodes := eligibleNodes timestamp attestations validators validatorPeerIds staking
    let pool := min (min (dailyBudget timestamp) serviceDailyPoolCap) foundationBalance
    (payments.map (·.amount)).sum = pool ∧
      payments.map (·.address) = nodes.map (·.rewardAddress) ∧
      (payments.map (·.address)).Nodup ∧
      (∀ n ∈ nodes,
        serviceBond ≤
          staking.matureDelegatedBy n.rewardAddress timestamp serviceBondMaturitySeconds ∧
        n.peerId ∉ validatorPeerIds ∧
        ∃ ids : Finset String, serviceMinimumValidators ≤ ids.card ∧ ∀ id ∈ ids,
          id ∈ validators.map (·.id) ∧ ∃ a ∈ attestations, a.validatorId = id ∧
            a.peerId = n.peerId ∧ a.rewardAddress = n.rewardAddress ∧
            a.epoch = timestamp / rewardEpochSeconds ∧ serviceMinimumUptimeBps ≤ a.uptimeBps) ∧
      dailyBudgetChecked timestamp = some (dailyBudget timestamp) ∧
      splitPoolChecked pool (pool / nodes.length) 0 (nodes.map (·.rewardAddress)) =
        some payments ∧
      ∀ attestations', attestations'.Perm attestations →
        calculateServicePayments timestamp attestations' validators validatorPeerIds staking
          foundationBalance = .ok payments := by
  intro nodes pool
  obtain ⟨hverified, hpayments⟩ := calculateServicePayments_eq_ok.1 h
  have hpaid : ¬(nodes = [] ∨ servicePool timestamp foundationBalance = 0) := by
    intro hnothing
    exact hne (hpayments.trans (if_pos hnothing))
  rw [if_neg hpaid] at hpayments
  have hsplit : payments = splitPool pool (pool / nodes.length) 0 (nodes.map (·.rewardAddress)) :=
    hpayments
  rw [not_or] at hpaid
  have haddresses : nodes.map (·.rewardAddress) ≠ [] := by
    rw [Ne, List.map_eq_nil_iff]
    exact hpaid.1
  have hroom : 0 + pool / nodes.length * (nodes.map (·.rewardAddress)).length ≤ pool := by
    rw [List.length_map, zero_add]
    exact Nat.div_mul_le_self _ _
  have hwords : pool ≤ u128Max :=
    ((min_le_left _ _).trans (min_le_right _ _)).trans (by decide : serviceDailyPoolCap ≤ u128Max)
  have hmap : payments.map (·.address) = nodes.map (·.rewardAddress) := by
    rw [hsplit, map_address_splitPool]
  refine ⟨?_, hmap, ?_, ?_, dailyBudgetChecked_eq timestamp, ?_, ?_⟩
  · have hsum := sum_splitPool haddresses hroom
    rwa [zero_add, ← hsplit] at hsum
  · rw [hmap]
    exact nodup_eligibleNodes
  · intro n hn
    exact ⟨(mem_eligibleNodes.1 hn).qualified.2, attested_on_day hn⟩
  · rw [hsplit]
    exact splitPoolChecked_eq hwords hroom
  · intro attestations' hperm
    rw [calculateServicePayments_eq_ok, eligibleNodes_perm hperm]
    refine ⟨fun a ha => hverified a (hperm.mem_iff.1 ha), ?_⟩
    exact hpayments.trans (if_neg (not_or.2 hpaid)).symm

end

section

attribute [local instance] Quartet.verdictCrypto

/-- The node that three of four validators attested receives what the foundation has. -/
theorem service_pool_split_quartet :
    let payments : List EventPayment := [⟨Quartet.operator, 5⟩]
    (payments.map (·.amount)).sum =
        min (min (dailyBudget Quartet.serviceTime) serviceDailyPoolCap) 5 ∧
      payments.map (·.address) = (eligibleNodes Quartet.serviceTime
        ([1, 2, 3].map Quartet.attestation) Quartet.members ∅
          Quartet.serviceSnapshot.staking).map (·.rewardAddress) :=
  have h := service_pool_split (Quartet.payments_unheard (.inl rfl)) (List.cons_ne_nil _ _)
  ⟨h.1, h.2.1⟩

end

end NodeEmission

end IeumChain
