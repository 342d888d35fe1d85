import IeumChain.BlockValidation
import IeumChain.Genesis
import IeumChain.RewardShares
import IeumChain.StandIn

/-!
# The daily events of a proposer

A proposer takes the receivers of the daily rewards from the ledger, which admits any
text as an account. `validate` then asks for addresses of a fixed form. The two agree
exactly as long as everybody who is paid has such an address, every share of the pool
for public nodes is positive, and the day does not begin before the epoch.
-/
namespace IeumChain

open ByteCodec Text Outcome MachineWords FiniteMap

/-- What the proposer reads when it adds the daily events of a block. -/
structure Proposer where
  chain : Blockchain
  validators : List Validator
  registrations : List ValidatorRegistration
  validatorInterestPolicy : ValidatorInterest.Policy
  holderRewardPolicy : HolderRewards.Policy
  upgrades : UpgradeSchedule
  serviceAttestations : List NodeServiceAttestation

namespace Proposer

/-! ## Building the events -/

section
variable (p : Proposer) (timestamp : ℕ)

def interestDue : Bool :=
  p.validatorInterestPolicy.enabled ∧
    ValidatorInterest.mainnetDailyRewardActive p.chain.chainId timestamp ∧
    ValidatorInterest.eventId timestamp ∉ p.chain.executedEvents ∧
    bootstrapRewardId ∈ p.chain.executedEvents

def holderRewardDue : Bool :=
  ValidatorInterest.mainnetDailyRewardActive p.chain.chainId timestamp ∧
    p.holderRewardPolicy.active timestamp ∧
    HolderRewards.eventId timestamp ∉ p.chain.executedEvents

def delegationRewardDue : Bool :=
  3 ≤ p.upgrades.versionAt (saturatingAdd u64Max p.chain.tipHeight 1) ∧
    p.validatorInterestPolicy.enabled ∧
    ValidatorInterest.mainnetDailyRewardActive p.chain.chainId timestamp ∧
    Staking.rewardEventId timestamp ∉ p.chain.executedEvents

def serviceEpoch : ℕ := timestamp / NodeEmission.rewardEpochSeconds

def serviceRewardDue : Bool :=
  NodeEmission.serviceEventId (serviceEpoch timestamp) ∉ p.chain.executedEvents

/-- Everybody but the foundation takes part. -/
def excluded : Finset String := {foundationFeeAddress}

def validatorPeerIds : Finset String :=
  ((p.registrations.filter fun r => r.validatorId ∈ p.validators.map (·.id)).map
    (·.peerId)).toFinset

/-- The attestations of the day. -/
def proofs : List NodeServiceAttestation :=
  p.serviceAttestations.filter fun a => a.epoch = serviceEpoch timestamp

section
variable [Crypto]

def validatorInterestEvent : Option ScheduledEvent :=
  if p.interestDue timestamp then
    let payments := ValidatorInterest.calculatePayments p.validatorInterestPolicy p.validators
      p.chain.balances
    if payments = [] then none
    else some
      { id := ValidatorInterest.eventId timestamp
        executeAt := ValidatorInterest.executeAt timestamp
        action := .validatorDailyInterest p.chain.tipHeight p.validatorInterestPolicy.hash
          p.validatorInterestPolicy.annualRateBps payments }
  else none

def holderRewardEvent : Option ScheduledEvent :=
  if p.holderRewardDue timestamp then
    let payments := HolderRewards.calculatePayments p.holderRewardPolicy p.chain.balances excluded
    if payments = [] then none
    else some
      { id := HolderRewards.eventId timestamp
        executeAt := HolderRewards.executeAt timestamp
        action := .holderDailyReward p.chain.tipHeight p.holderRewardPolicy.hash
          p.holderRewardPolicy.annualRateBps payments }
  else none

def delegationRewardEvent : Option ScheduledEvent :=
  if p.delegationRewardDue timestamp then
    let payments := Staking.calculateRewards p.chain.staking
      p.validatorInterestPolicy.annualRateBps p.validatorInterestPolicy.maximumDailyTotal
    if payments = [] then none
    else some
      { id := Staking.rewardEventId timestamp
        executeAt := ValidatorInterest.executeAt timestamp
        action := .delegationDailyReward p.chain.tipHeight p.validatorInterestPolicy.hash
          p.validatorInterestPolicy.annualRateBps payments }
  else none

/-- An attestation that does not verify ends the whole attempt. -/
def nodeServiceEvent : Except String (Option ScheduledEvent) :=
  if p.serviceRewardDue timestamp then do
    let payments ← NodeEmission.calculateServicePayments timestamp (p.proofs timestamp)
      p.validators p.validatorPeerIds p.chain.staking (p.chain.balanceOf foundationFeeAddress)
    if payments = [] then pure none
    else pure (some
      { id := NodeEmission.serviceEventId (serviceEpoch timestamp), executeAt := timestamp
        action := .nodeServiceDailyReward p.chain.tipHeight (serviceEpoch timestamp)
          (p.proofs timestamp) payments })
  else pure none

/-- The daily events that the proposer puts into a block. -/
def Builds (e : ScheduledEvent) : Prop :=
  p.validatorInterestEvent timestamp = some e ∨ p.holderRewardEvent timestamp = some e ∨
    p.delegationRewardEvent timestamp = some e ∨ p.nodeServiceEvent timestamp = .ok (some e)

/-! ## When they are valid -/

def interestShares : List (Address × ℕ) :=
  ValidatorInterest.shares p.validatorInterestPolicy p.validators p.chain.balances

def holderShares : List (Address × ℕ) :=
  HolderRewards.shares p.holderRewardPolicy p.chain.balances excluded

def delegationShares : List (Address × ℕ) :=
  Staking.shares p.chain.staking p.validatorInterestPolicy.annualRateBps

def rewardedNodes : List NodeEmission.EligibleNode :=
  NodeEmission.eligibleNodes timestamp (p.proofs timestamp) p.validators p.validatorPeerIds
    p.chain.staking

def servicePool : ℕ :=
  NodeEmission.servicePool timestamp (p.chain.balanceOf foundationFeeAddress)

/-- The event that shares the pool among the rewarded nodes. -/
def serviceEvent : ScheduledEvent :=
  { id := NodeEmission.serviceEventId (serviceEpoch timestamp), executeAt := timestamp
    action := .nodeServiceDailyReward p.chain.tipHeight (serviceEpoch timestamp)
      (p.proofs timestamp)
      (NodeEmission.splitPool (p.servicePool timestamp)
        (p.servicePool timestamp / (p.rewardedNodes timestamp).length) 0
        ((p.rewardedNodes timestamp).map (·.rewardAddress))) }

/-- The first second whose day in Korea begins after the epoch. -/
def firstDay : ℕ := 54000

/-- Whoever is paid has an address of the required form, the day of the interest has begun
after the epoch, and the pool for public nodes gives every node something. -/
structure PaysWellFormed : Prop where
  interest : p.interestDue timestamp → ∀ a,
    Budget.Funded p.validatorInterestPolicy.maximumDailyTotal p.interestShares a →
      firstDay ≤ timestamp ∧ validateRewardAddress a = .ok ()
  holder : p.holderRewardDue timestamp → ∀ a,
    Budget.Funded p.holderRewardPolicy.maximumDailyTotal p.holderShares a →
      validateAddress a = .ok ()
  delegation : p.delegationRewardDue timestamp → ∀ a,
    Budget.Funded p.validatorInterestPolicy.maximumDailyTotal p.delegationShares a →
      firstDay ≤ timestamp ∧ validateRewardAddress a = .ok ()
  service : p.serviceRewardDue timestamp → (∀ a ∈ p.proofs timestamp, a.verify = .ok ()) →
    p.rewardedNodes timestamp ≠ [] → 0 < p.servicePool timestamp →
      (p.proofs timestamp).length ≤ 10000 ∧
        (p.rewardedNodes timestamp).length ≤ p.servicePool timestamp

end

end

/-! ## Identifiers and times -/

theorem isEventIdChar_of_isDigit (c : Char) (h : c.isDigit = true) : isEventIdChar c = true := by
  simp only [Char.isDigit, Bool.and_eq_true, decide_eq_true_eq, ge_iff_le] at h
  simp only [isEventIdChar, isAlphanumeric, Char.le_def, decide_eq_true_eq]
  exact .inl (.inl h)

/-- A fixed text followed by the number of a day is an identifier. -/
theorem validate_iff_of_dayId [Crypto] {e : ScheduledEvent} {title : String} {day : ℕ}
    (hid : e.id = title ++ decimal day) (htitle : allChars isEventIdChar title = true)
    (hsize : title.utf8ByteSize ≤ 100) (hday : day ≤ u64Max) :
    e.validate = .ok () ↔ e.executeAt ≠ 0 ∧ validateAction e.id e.action = .ok () := by
  have hdigits : (decimal day).utf8ByteSize ≤ 20 := by
    refine utf8ByteSize_decimal_le (by decide) (hday.trans_lt ?_)
    decide
  have hchars : allChars isEventIdChar (decimal day) = true :=
    allChars_decimal isEventIdChar_of_isDigit day
  have hne : e.id ≠ "" := by
    rw [hid]
    intro hempty
    exact Nat.repr_ne_empty (String.append_eq_empty_iff.1 hempty).2
  have hbytes : e.id.utf8ByteSize ≤ 128 := by
    rw [hid, String.utf8ByteSize_append]
    omega
  have hall : allChars isEventIdChar e.id = true := by
    rw [hid, allChars_append, htitle, hchars]
    rfl
  simp only [ScheduledEvent.validate, check_bind_eq_ok, reject_eq_ok, not_or, not_lt, not_not]
  exact ⟨fun h => h.2, fun h => ⟨⟨hne, hbytes, hall⟩, h⟩⟩

/-- The day of the interest begins at nine in the evening of the day before. -/
theorem executeAt_ne_zero {timestamp : ℕ} (h : timestamp ≤ u64Max) :
    ValidatorInterest.executeAt timestamp ≠ 0 ↔ firstDay ≤ timestamp := by
  have hmax : u64Max = 18446744073709551615 := rfl
  simp only [ValidatorInterest.executeAt, ValidatorInterest.kstDay, saturatingAdd, saturatingMul,
    ValidatorInterest.kstOffsetSeconds, ValidatorInterest.daySeconds, firstDay]
  omega

/-- With wrapping arithmetic the day of the campaign never begins at the epoch. -/
theorem holder_executeAt_ne_zero (timestamp : ℕ) : HolderRewards.executeAt timestamp ≠ 0 := by
  simp only [HolderRewards.executeAt, HolderRewards.wrappedDay]
  omega

theorem kstDay_le (timestamp : ℕ) : ValidatorInterest.kstDay timestamp ≤ u64Max := by
  simp only [ValidatorInterest.kstDay, saturatingAdd, ValidatorInterest.daySeconds]
  omega

theorem wrappedDay_le (timestamp : ℕ) : HolderRewards.wrappedDay timestamp ≤ u64Max := by
  have hmax : u64Max = 18446744073709551615 := rfl
  simp only [HolderRewards.wrappedDay]
  omega

/-! ## Shares -/

theorem isPolicyHash_sha256Hex [Crypto] (hdigest : ∀ bytes, (Crypto.sha256 bytes).length = 32)
    (bytes : Bytes) : isPolicyHash (sha256Hex bytes) = true := by
  have hsize : (sha256Hex bytes).utf8ByteSize = 64 := by
    rw [sha256Hex, utf8ByteSize_hexEncode, hdigest]
  have hchars : allChars isHexDigit (sha256Hex bytes) = true :=
    allChars_hexEncode (by decide) _
  simp [isPolicyHash, hsize, hchars]

theorem payments_eq_nil_iff {budget : ℕ} {shares : List (Address × ℕ)} :
    (Budget.pay budget shares).map EventPayment.ofShare = [] ↔ ∀ a, ¬Budget.Funded budget shares a := by
  rw [List.map_eq_nil_iff]
  constructor
  · intro hnil a hfunded
    obtain ⟨amount, hmem⟩ := Budget.exists_mem_pay_iff.2 hfunded
    rw [hnil] at hmem
    cases hmem
  · intro hnone
    rw [List.eq_nil_iff_forall_not_mem]
    intro s hs
    exact hnone s.1 (Budget.exists_mem_pay_iff.1 ⟨s.2, hs⟩)

/-- Shares are positive, so only the addresses count. -/
theorem validatePayments_pay {check : Address → Except String Unit} {zeroMessage : String}
    {budget : ℕ} {shares : List (Address × ℕ)} :
    validatePayments check zeroMessage ((Budget.pay budget shares).map EventPayment.ofShare) = .ok () ↔
      ∀ a, Budget.Funded budget shares a → check a = .ok () := by
  simp only [validatePayments, checkAll_eq_ok, List.mem_map, check_bind_eq_ok, reject_eq_ok]
  constructor
  · intro h a hfunded
    obtain ⟨amount, hmem⟩ := Budget.exists_mem_pay_iff.2 hfunded
    exact (h _ ⟨_, hmem, rfl⟩).1
  · rintro h _ ⟨s, hs, rfl⟩
    have hpos : 0 < s.2 := Budget.pos_of_mem_pay hs
    exact ⟨h s.1 (Budget.exists_mem_pay_iff.1 ⟨s.2, hs⟩), hpos.ne'⟩

/-! ## The pool for public nodes -/

theorem mem_eligibleLoop {timestamp : ℕ} {staking : StakingState}
    {counted : List NodeServiceAttestation} {used : List Address} {keys : List (String × Address)}
    {n : NodeEmission.EligibleNode}
    (h : n ∈ NodeEmission.eligibleLoop timestamp staking counted used keys) :
    (n.peerId, n.rewardAddress) ∈ keys ∧ NodeEmission.serviceMinimumValidators ≤ counted.length := by
  induction keys generalizing used with
  | nil => cases h
  | cons key rest ih =>
      have hlater : ∀ used', n ∈ NodeEmission.eligibleLoop timestamp staking counted used' rest →
          (n.peerId, n.rewardAddress) ∈ key :: rest ∧
            NodeEmission.serviceMinimumValidators ≤ counted.length := by
        intro used' hmem
        obtain ⟨hkey, hcount⟩ := ih hmem
        exact ⟨List.mem_cons_of_mem _ hkey, hcount⟩
      simp only [NodeEmission.eligibleLoop] at h
      split_ifs at h with hskip
      · exact hlater _ h
      · split at h
        · exact hlater _ h
        · split_ifs at h with hfew
          · exact hlater _ h
          · rcases List.mem_cons.1 h with rfl | h
            · refine ⟨List.mem_cons_self .., ?_⟩
              have henough := not_lt.1 (not_or.1 hskip).1
              refine henough.trans ((List.dedup_sublist _).length_le.trans ?_)
              rw [List.length_map]
              exact List.length_filter_le _ _
            · exact hlater _ h

theorem length_eligibleLoop_le (timestamp : ℕ) (staking : StakingState)
    (counted : List NodeServiceAttestation) (used : List Address) (keys : List (String × Address)) :
    (NodeEmission.eligibleLoop timestamp staking counted used keys).length ≤ keys.length := by
  induction keys generalizing used with
  | nil => exact le_rfl
  | cons key rest ih =>
      have hlater := fun used' => (ih used').trans (Nat.le_succ rest.length)
      simp only [NodeEmission.eligibleLoop, List.length_cons]
      split_ifs with hskip
      · exact hlater _
      · split
        · exact hlater _
        · split_ifs with hfew
          · exact hlater _
          · rw [List.length_cons]
            exact Nat.succ_le_succ (ih _)

theorem capGroups_sublist (seen : List String) (nodes : List NodeEmission.EligibleNode) :
    (NodeEmission.capGroups seen nodes).Sublist nodes := by
  induction nodes generalizing seen with
  | nil => exact .refl _
  | cons n rest ih =>
      simp only [NodeEmission.capGroups]
      split_ifs
      · exact (ih _).cons _
      · exact (ih _).cons_cons _

section
variable {timestamp : ℕ} {attestations : List NodeServiceAttestation} {validators : List Validator}
  {validatorPeerIds : Finset String} {staking : StakingState}

/-- A rewarded node was attested for, and by enough validators. -/
theorem attested_of_mem_eligibleNodes {n : NodeEmission.EligibleNode}
    (h : n ∈ NodeEmission.eligibleNodes timestamp attestations validators validatorPeerIds staking) :
    (∃ a ∈ attestations, a.rewardAddress = n.rewardAddress) ∧
      NodeEmission.serviceMinimumValidators ≤ attestations.length := by
  have hmem := (List.mem_insertionSort _).1 ((capGroups_sublist _ _).subset h)
  obtain ⟨hkey, hcount⟩ := mem_eligibleLoop hmem
  rw [List.mem_insertionSort, List.mem_dedup] at hkey
  obtain ⟨a, ha, heq⟩ := List.mem_map.1 hkey
  exact ⟨⟨a, List.mem_of_mem_filter ha, congrArg Prod.snd heq⟩,
    hcount.trans (List.length_filter_le _ _)⟩

theorem length_eligibleNodes_le :
    (NodeEmission.eligibleNodes timestamp attestations validators validatorPeerIds staking).length ≤
      attestations.length := by
  refine (capGroups_sublist _ _).length_le.trans ?_
  rw [List.length_insertionSort]
  refine (length_eligibleLoop_le ..).trans ?_
  rw [List.length_insertionSort]
  refine (List.dedup_sublist _).length_le.trans ?_
  rw [List.length_map]
  exact List.length_filter_le _ _

end

theorem length_splitPool (pool each assigned : ℕ) (addresses : List Address) :
    (NodeEmission.splitPool pool each assigned addresses).length = addresses.length := by
  induction addresses generalizing assigned with
  | nil => rfl
  | cons address rest ih =>
      cases rest with
      | nil => rfl
      | cons next rest => simp only [NodeEmission.splitPool, List.length_cons, ih]

theorem mem_splitPool {pool each assigned : ℕ} {addresses : List Address} {p : EventPayment}
    (heach : 0 < each) (hroom : assigned + each * addresses.length ≤ pool)
    (h : p ∈ NodeEmission.splitPool pool each assigned addresses) :
    p.address ∈ addresses ∧ 0 < p.amount := by
  induction addresses generalizing assigned with
  | nil => cases h
  | cons address rest ih =>
      rw [List.length_cons, mul_add, mul_one] at hroom
      cases rest with
      | nil =>
          obtain rfl := List.mem_singleton.1 h
          refine ⟨List.mem_singleton_self _, ?_⟩
          dsimp only
          rw [List.length_nil] at hroom
          omega
      | cons next rest =>
          simp only [NodeEmission.splitPool] at h
          rcases List.mem_cons.1 h with rfl | h
          · exact ⟨List.mem_cons_self .., heach⟩
          · obtain ⟨hmem, hpos⟩ := ih (by omega) h
            exact ⟨List.mem_cons_of_mem _ hmem, hpos⟩

/-- Every share of the pool is positive exactly if the pool has a unit for every node. -/
theorem validatePayments_splitPool {check : Address → Except String Unit} {zeroMessage : String}
    {pool : ℕ} {addresses : List Address} (hne : addresses ≠ []) (hpool : 0 < pool)
    (hvalid : ∀ a ∈ addresses, check a = .ok ()) :
    validatePayments check zeroMessage
        (NodeEmission.splitPool pool (pool / addresses.length) 0 addresses) = .ok () ↔
      addresses.length ≤ pool := by
  have hlength : 0 < addresses.length := List.length_pos_iff.2 hne
  simp only [validatePayments, checkAll_eq_ok, check_bind_eq_ok, reject_eq_ok]
  constructor
  · intro h
    cases addresses with
    | nil => exact absurd rfl hne
    | cons first rest =>
        cases rest with
        | nil => exact hpool
        | cons next rest =>
            have hhead := (h _ (List.mem_cons_self ..)).2
            exact (Nat.div_pos_iff.1 (Nat.pos_of_ne_zero hhead)).2
  · intro hle p hp
    have heach : 0 < pool / addresses.length := Nat.div_pos hle hlength
    have hroom : 0 + pool / addresses.length * addresses.length ≤ pool := by
      rw [zero_add]
      exact Nat.div_mul_le_self _ _
    obtain ⟨hmem, hpos⟩ := mem_splitPool heach hroom hp
    exact ⟨hvalid _ hmem, hpos.ne'⟩

theorem validateAddress_of_isAccountAddress {address : Address}
    (h : isAccountAddress address = true) : validateAddress address = .ok () := by
  simp only [isAccountAddress, decide_eq_true_eq] at h
  obtain ⟨hmarker, hsize, hdigits⟩ := h
  obtain ⟨rest, hrest⟩ := List.isPrefixOf_iff_prefix.1 hmarker
  have haddress : address = "0x" ++ String.ofList rest := by
    have hlist : (String.ofList rest).toList = rest := String.toList_ofList
    apply String.toList_inj.1
    rw [String.toList_append, hlist, hrest]
  have hdrop : address.toList.drop 2 = rest := by
    rw [← hrest]
    rfl
  rw [hdrop] at hdigits
  rw [haddress, String.utf8ByteSize_append] at hsize
  have hbytes : (String.ofList rest).utf8ByteSize = 40 := by
    have hmarkerSize : "0x".utf8ByteSize = 2 := rfl
    omega
  have hchars : allChars isHexDigit (String.ofList rest) = true := by
    rw [allChars, String.toList_ofList]
    exact hdigits
  simp only [validateAddress, haddress, stripStart_append, Option.getD_some, reject_eq_ok, hbytes,
    hchars, not_true_eq_false, or_false, not_false_eq_true, ne_eq]

theorem isAccountAddress_of_verify [Crypto] {a : NodeServiceAttestation} (h : a.verify = .ok ()) :
    isAccountAddress a.rewardAddress = true := by
  simp only [NodeServiceAttestation.verify, check_bind_eq_ok, reject_eq_ok, not_or, not_not] at h
  exact h.1.2.1

theorem pos_of_servicePool {timestamp balance : ℕ}
    (h : 0 < NodeEmission.servicePool timestamp balance) : timestamp ≠ 0 := by
  rintro rfl
  have hnone : NodeEmission.dailyBudget 0 = 0 := by decide
  rw [NodeEmission.servicePool, hnone] at h
  simp at h

/-- An event whose payments are shares of a budget is valid exactly if its time is and everybody
who is funded has an admissible address. -/
theorem shared_valid_iff [Crypto] {built : Option ScheduledEvent} {due : Bool}
    {payments : List EventPayment} {event : ScheduledEvent} {budget : ℕ}
    {shares : List (Address × ℕ)} {check : Address → Except String Unit} {timely : Prop}
    (zeroMessage : String)
    (hbuilt : built = if due then (if payments = [] then none else some event) else none)
    (hpayments : payments = (Budget.pay budget shares).map EventPayment.ofShare)
    (hvalidate : payments ≠ [] →
      (event.validate = .ok () ↔ timely ∧ validatePayments check zeroMessage payments = .ok ())) :
    (∀ e, built = some e → e.validate = .ok ()) ↔
      (due = true → ∀ a, Budget.Funded budget shares a → timely ∧ check a = .ok ()) := by
  subst hbuilt
  cases due with
  | false => simp
  | true =>
      by_cases hnil : payments = []
      · have hnone := payments_eq_nil_iff.1 (hpayments.symm.trans hnil)
        simp only [hnil, if_true, forall_const]
        refine ⟨fun _ a hfunded => absurd hfunded (hnone a), fun _ e he => ?_⟩
        cases he
      · obtain ⟨b, hb⟩ : ∃ b, Budget.Funded budget shares b := by
          by_contra hnone
          exact hnil (hpayments.trans (payments_eq_nil_iff.2 (not_exists.1 hnone)))
        have hchecked := hvalidate hnil
        rw [hpayments, validatePayments_pay] at hchecked
        simp only [hnil, if_true, if_false, Option.some.injEq, forall_eq', hchecked, forall_const]
        constructor
        · intro ⟨htime, hall⟩ a hfunded
          exact ⟨htime, hall a hfunded⟩
        · intro hall
          exact ⟨(hall b hb).1, fun a hfunded => (hall a hfunded).2⟩

section
variable [Crypto] {p : Proposer} {timestamp : ℕ}

theorem interest_valid_iff (hdigest : ∀ bytes, (Crypto.sha256 bytes).length = 32)
    (hpolicy : p.validatorInterestPolicy.validate = .ok ()) (htime : timestamp ≤ u64Max) :
    (∀ e, p.validatorInterestEvent timestamp = some e → e.validate = .ok ()) ↔
      (p.interestDue timestamp = true → ∀ a,
        Budget.Funded p.validatorInterestPolicy.maximumDailyTotal p.interestShares a →
          firstDay ≤ timestamp ∧ validateRewardAddress a = .ok ()) := by
  refine shared_valid_iff "검증자 이자 지급액은 0보다 커야 합니다." rfl
    (ValidatorInterest.calculatePayments_eq ..) fun hne => ?_
  have hhash : isPolicyHash p.validatorInterestPolicy.hash = true :=
    isPolicyHash_sha256Hex hdigest _
  simp only [ValidatorInterest.Policy.validate, check_bind_eq_ok, reject_eq_ok, not_lt] at hpolicy
  rw [← executeAt_ne_zero htime, @validate_iff_of_dayId _ _ "ieum-validator-interest-v1-" _ rfl
    (by decide) (by decide) (kstDay_le timestamp)]
  simp only [validateAction, check_bind_eq_ok, reject_eq_ok, hhash, not_true_eq_false,
    not_false_eq_true, true_and, hne, or_false, not_lt, hpolicy.1]

theorem holder_valid_iff (hdigest : ∀ bytes, (Crypto.sha256 bytes).length = 32)
    (hpolicy : p.holderRewardPolicy.validate = .ok ()) :
    (∀ e, p.holderRewardEvent timestamp = some e → e.validate = .ok ()) ↔
      (p.holderRewardDue timestamp = true → ∀ a,
        Budget.Funded p.holderRewardPolicy.maximumDailyTotal p.holderShares a →
          True ∧ validateAddress a = .ok ()) := by
  refine shared_valid_iff "보유 응원 보상액은 0보다 커야 합니다." rfl
    (HolderRewards.calculatePayments_eq ..) fun hne => ?_
  have hhash : isPolicyHash p.holderRewardPolicy.hash = true := isPolicyHash_sha256Hex hdigest _
  simp only [HolderRewards.Policy.validate, check_bind_eq_ok, reject_eq_ok, not_lt] at hpolicy
  rw [@validate_iff_of_dayId _ _ "ieum-holder-reward-v1-" _ rfl (by decide)
    (by decide) (wrappedDay_le timestamp)]
  simp only [validateAction, check_bind_eq_ok, reject_eq_ok, hhash, not_true_eq_false, false_or,
    true_and, hne, or_false, not_lt, hpolicy.2.1, ne_eq, holder_executeAt_ne_zero,
    not_false_eq_true]

theorem delegation_valid_iff (hdigest : ∀ bytes, (Crypto.sha256 bytes).length = 32)
    (hpolicy : p.validatorInterestPolicy.validate = .ok ()) (htime : timestamp ≤ u64Max) :
    (∀ e, p.delegationRewardEvent timestamp = some e → e.validate = .ok ()) ↔
      (p.delegationRewardDue timestamp = true → ∀ a,
        Budget.Funded p.validatorInterestPolicy.maximumDailyTotal p.delegationShares a →
          firstDay ≤ timestamp ∧ validateRewardAddress a = .ok ()) := by
  refine shared_valid_iff "위임 보상액은 0보다 커야 합니다." rfl
    (Staking.calculateRewards_eq ..) fun hne => ?_
  have hhash : isPolicyHash p.validatorInterestPolicy.hash = true :=
    isPolicyHash_sha256Hex hdigest _
  simp only [ValidatorInterest.Policy.validate, check_bind_eq_ok, reject_eq_ok, not_lt] at hpolicy
  rw [← executeAt_ne_zero htime, @validate_iff_of_dayId _ _ "ieum-delegation-reward-v1-" _ rfl
    (by decide) (by decide) (kstDay_le timestamp)]
  simp only [validateAction, check_bind_eq_ok, reject_eq_ok, hhash, not_true_eq_false, true_and,
    hne, false_or, or_false, not_lt, hpolicy.1]

/-- Nodes are rewarded only if all attestations verify and there is something to share. -/
theorem nodeServiceEvent_eq_some_iff {e : ScheduledEvent} :
    p.nodeServiceEvent timestamp = .ok (some e) ↔
      p.serviceRewardDue timestamp = true ∧ (∀ a ∈ p.proofs timestamp, a.verify = .ok ()) ∧
        p.rewardedNodes timestamp ≠ [] ∧ 0 < p.servicePool timestamp ∧
          p.serviceEvent timestamp = e := by
  have hnil (pool each : ℕ) (hnodes : p.rewardedNodes timestamp ≠ []) :
      NodeEmission.splitPool pool each 0 ((p.rewardedNodes timestamp).map (·.rewardAddress)) ≠ [] := by
    rw [← List.length_pos_iff, length_splitPool, List.length_map, List.length_pos_iff]
    exact hnodes
  simp only [rewardedNodes, servicePool] at hnil ⊢
  simp only [nodeServiceEvent, NodeEmission.calculateServicePayments]
  cases hdue : p.serviceRewardDue timestamp with
  | false => simp
  | true =>
      simp only [if_true, bind_eq_ok, checkAll_eq_ok, true_and, exists_const]
      constructor
      · rintro ⟨payments, ⟨hverified, hpayments⟩, hevent⟩
        split_ifs at hpayments with hnodes hpool
        all_goals
          obtain rfl := pure_eq_ok.1 hpayments
        · cases hevent
        · cases hevent
        · rw [if_neg (hnil _ _ hnodes)] at hevent
          exact ⟨hverified, hnodes, Nat.pos_of_ne_zero hpool, Option.some.inj (pure_eq_ok.1 hevent)⟩
      · rintro ⟨hverified, hnodes, hpool, rfl⟩
        rw [if_neg hnodes, if_neg hpool.ne']
        refine ⟨_, ⟨hverified, rfl⟩, ?_⟩
        rw [if_neg (hnil _ _ hnodes)]
        rfl

theorem service_valid_iff (htime : timestamp ≤ u64Max) :
    (∀ e, p.nodeServiceEvent timestamp = .ok (some e) → e.validate = .ok ()) ↔
      (p.serviceRewardDue timestamp = true → (∀ a ∈ p.proofs timestamp, a.verify = .ok ()) →
        p.rewardedNodes timestamp ≠ [] → 0 < p.servicePool timestamp →
          (p.proofs timestamp).length ≤ 10000 ∧
            (p.rewardedNodes timestamp).length ≤ p.servicePool timestamp) := by
  have hvalid (hverified : ∀ a ∈ p.proofs timestamp, a.verify = .ok ())
      (hnodes : p.rewardedNodes timestamp ≠ []) (hpool : 0 < p.servicePool timestamp) :
      (p.serviceEvent timestamp).validate = .ok () ↔ (p.proofs timestamp).length ≤ 10000 ∧
        (p.rewardedNodes timestamp).length ≤ p.servicePool timestamp := by
    obtain ⟨first, hfirst⟩ := List.exists_mem_of_ne_nil _ hnodes
    have hattested := (attested_of_mem_eligibleNodes hfirst).2
    have hfew : (p.rewardedNodes timestamp).length ≤ (p.proofs timestamp).length :=
      length_eligibleNodes_le
    have haddresses : ∀ a ∈ (p.rewardedNodes timestamp).map (·.rewardAddress),
        validateAddress a = .ok () := by
      intro a ha
      obtain ⟨n, hn, rfl⟩ := List.mem_map.1 ha
      obtain ⟨⟨proof, hproof, heq⟩, -⟩ := attested_of_mem_eligibleNodes hn
      rw [← heq]
      exact validateAddress_of_isAccountAddress (isAccountAddress_of_verify (hverified _ hproof))
    have hepochs : ∀ a ∈ p.proofs timestamp, a.epoch = serviceEpoch timestamp := by
      intro a ha
      exact of_decide_eq_true (List.mem_filter.1 ha).2
    have hshares := @validatePayments_splitPool validateAddress
      "공개 노드 일일 보상액은 0보다 커야 합니다." _ _ (mt List.map_eq_nil_iff.1 hnodes) hpool haddresses
    have hpayments : NodeEmission.splitPool (p.servicePool timestamp)
        (p.servicePool timestamp / (p.rewardedNodes timestamp).length) 0
        ((p.rewardedNodes timestamp).map (·.rewardAddress)) ≠ [] := by
      rw [← List.length_pos_iff, length_splitPool, List.length_map, List.length_pos_iff]
      exact hnodes
    rw [@validate_iff_of_dayId _ _ "ieum-node-service-reward-v1-" _ rfl (by decide)
      (by decide) ((Nat.div_le_self _ _).trans htime)]
    rw [List.length_map] at hshares
    simp only [serviceEvent, validateAction, check_bind_eq_ok, reject_eq_ok, not_or, not_lt,
      not_not, checkAll_eq_ok, hshares, hpayments, length_splitPool, List.length_map, ne_eq,
      pos_of_servicePool hpool, not_false_eq_true, true_and, hattested]
    constructor
    · rintro ⟨⟨hproofs, -⟩, -, hpaid⟩
      exact ⟨hproofs, hpaid⟩
    · rintro ⟨hproofs, hpaid⟩
      exact ⟨⟨hproofs, hfew.trans hproofs⟩, fun a ha => ⟨hverified a ha, hepochs a ha⟩, hpaid⟩
  simp only [nodeServiceEvent_eq_some_iff]
  constructor
  · intro h hdue hverified hnodes hpool
    exact (hvalid hverified hnodes hpool).1 (h _ ⟨hdue, hverified, hnodes, hpool, rfl⟩)
  · rintro h e ⟨hdue, hverified, hnodes, hpool, rfl⟩
    exact (hvalid hverified hnodes hpool).2 (h hdue hverified hnodes hpool)

/-- The daily events of a proposer are valid exactly if whoever is paid can be. -/
theorem builds_valid_iff (hdigest : ∀ bytes, (Crypto.sha256 bytes).length = 32)
    (hinterest : p.validatorInterestPolicy.validate = .ok ())
    (hholder : p.holderRewardPolicy.validate = .ok ()) (htime : timestamp ≤ u64Max) :
    (∀ e, p.Builds timestamp e → e.validate = .ok ()) ↔ p.PaysWellFormed timestamp := by
  have hinterestIff := interest_valid_iff hdigest hinterest htime
  have hholderIff := @holder_valid_iff _ p timestamp hdigest hholder
  have hdelegationIff := delegation_valid_iff hdigest hinterest htime
  have hserviceIff := service_valid_iff (p := p) htime
  constructor
  · intro h
    refine ⟨hinterestIff.1 fun e he => h e (.inl he), fun hdue a ha => ?_,
      hdelegationIff.1 fun e he => h e (.inr (.inr (.inl he))),
      hserviceIff.1 fun e he => h e (.inr (.inr (.inr he)))⟩
    exact (hholderIff.1 (fun e he => h e (.inr (.inl he))) hdue a ha).2
  · rintro ⟨hi, hh, hd, hs⟩ e (he | he | he | he)
    · exact hinterestIff.2 hi e he
    · exact hholderIff.2 (fun hdue a ha => ⟨trivial, hh hdue a ha⟩) e he
    · exact hdelegationIff.2 hd e he
    · exact hserviceIff.2 hs e he

end

end Proposer

/-! A campaign for holders, first among accounts of the required form, then after somebody has
sent a whole unit to the short account `0xabc`. -/

namespace Campaign

local instance campaignCrypto : Crypto := StandIn.crypto StandIn.digest

def policy : HolderRewards.Policy :=
  { enabled := true, campaignName := "campaign", startsAt := 1, endsAt := 100
    annualRateBps := 500, minimumBalance := ieumBaseUnit
    maximumDailyTotal := 100 * ieumBaseUnit }

def proposer (chain : Blockchain) : Proposer :=
  { chain, validators := [], registrations := [], holderRewardPolicy := policy
    validatorInterestPolicy := ValidatorInterest.Policy.default
    upgrades := { upgrades := [] }, serviceAttestations := [] }

def holder : Address := "0x1111111111111111111111111111111111111111"

def orderly : Blockchain := Blockchain.withChainId 21005 [(holder, ieumBaseUnit)]

theorem holderShares_orderly :
    (proposer orderly).holderShares = [(holder, 136986301000000)] := by
  decide

theorem paysWellFormed_orderly : (proposer orderly).PaysWellFormed 20 := by
  refine ⟨fun hdue => ?_, fun _ a ha => ?_, fun hdue => ?_, fun _ _ hnodes => ?_⟩
  · exact absurd hdue (by decide)
  · rw [holderShares_orderly, Budget.funded_cons] at ha
    rcases ha with ⟨rfl, -⟩ | ⟨-, hnone⟩
    · decide
    · exact absurd hnone (Budget.not_funded_nil _ _)
  · exact absurd hdue (by decide)
  · exact absurd rfl hnodes

theorem orderly_events_valid :
    (proposer orderly).holderRewardEvent 20 ≠ none ∧
      ∀ e, (proposer orderly).Builds 20 e → e.validate = .ok () :=
  ⟨by decide,
    (Proposer.builds_valid_iff StandIn.length_digest (by decide) (by decide)
      (by decide)).2 paysWellFormed_orderly⟩

def gift : Transaction :=
  StandIn.signed 1
    { sender := StandIn.address 1, receiver := "0xabc", amount := ieumBaseUnit, fee := 7, nonce := 0
      action := .transfer, signature := "" }

def chain : Blockchain :=
  Blockchain.withChainId 21005 [(StandIn.address 1, 2 * ieumBaseUnit)]

def block : Block := Block.new 1 chain.tipHash 10 (StandIn.address 2) [gift]

theorem execute_block : ∃ l, chain.execute block = .ok l ∧
    HolderRewards.shares policy l.balances Proposer.excluded = [("0xabc", 136986301000000)] ∧
    l.executedEvents = ∅ := by
  have hsigned : checkTransactionSignature chain.chainId gift = .ok () :=
    StandIn.checkTransactionSignature_signed _ _ _ _ rfl
  obtain ⟨l, h⟩ := isOk_iff.1 (by decide : Except.isOk (do
    let l ← runTransaction (StandIn.address 2) 10 chain.toLedger gift
    validateSupplyCap l
    reject (HolderRewards.shares policy l.balances Proposer.excluded ≠
      [("0xabc", 136986301000000)]) ""
    reject (l.executedEvents ≠ ∅) ""
    pure l) = true)
  simp only [bind_eq_ok, pure_eq_ok, reject_eq_ok, not_not] at h
  obtain ⟨l, hrun, u, hcap, -, hshares, -, hevents, rfl⟩ := h
  refine ⟨l, Blockchain.execute_eq_ok.2 ⟨l, ?_, rfl, hcap⟩, hshares, hevents⟩
  have htransactions : block.transactions = [gift] := rfl
  rw [htransactions, applyTransactions, List.foldlM_cons, applyTransaction, hsigned, bind_eq_ok]
  exact ⟨l, check_bind_eq_ok.2 ⟨rfl, hrun⟩, rfl⟩

/-- After a transfer to `0xabc` the campaign builds an event that no node accepts. -/
theorem daily_event_invalid : ∃ c e, c.Reachable ∧ policy.validate = .ok () ∧
    (proposer c).Builds 20 e ∧ e.validate ≠ .ok () := by
  obtain ⟨l, hl, hshares, hevents⟩ := execute_block
  have happly : chain.applyBlock block = .ok (chain.push l block) :=
    Blockchain.applyBlock_eq_ok.2 ⟨rfl, rfl, Block.new_hash .., l, hl, rfl⟩
  have hreachable : (chain.push l block).Reachable :=
    ⟨chain, [block], Blockchain.isGenesis_withChainId _ _,
      Blockchain.applyBlocks_cons.2 ⟨_, happly, rfl⟩⟩
  have hpolicy : policy.validate = .ok () := by decide
  have hdue : (proposer (chain.push l block)).holderRewardDue 20 = true := by
    refine decide_eq_true ⟨rfl, rfl, ?_⟩
    show _ ∉ l.executedEvents
    rw [hevents]
    exact Finset.notMem_empty _
  have hfunded : Budget.Funded policy.maximumDailyTotal
      (proposer (chain.push l block)).holderShares "0xabc" :=
    ⟨[], 136986301000000, [], hshares, by decide, by decide⟩
  by_contra hnone
  have hvalid := (@Proposer.holder_valid_iff _ (proposer (chain.push l block)) 20
    StandIn.length_digest hpolicy).1 (fun e he => by_contra fun hinvalid =>
      hnone ⟨_, e, hreachable, hpolicy, .inr (.inl he), hinvalid⟩) hdue "0xabc" hfunded
  have hshort : validateAddress "0xabc" ≠ .ok () := by decide
  exact hshort hvalid.2

end Campaign

end IeumChain
