import IeumChain.Nonces
import IeumChain.Outflow
import IeumChain.Unbonding

/-!
# What a block asks of the ledger before it

Whether a block can be executed can be told without executing it. A sender needs what his own
transactions take, up to the one in question, and has what those before it bring him; the
foundation needs what the events take out, up to the payment in question. Both are sums over the
block. Only the delegations are followed step by step.
-/
namespace IeumChain

open Text Outcome MachineWords FiniteMap

/-! ## Sums over transactions -/

/-- What a transaction takes from its sender. -/
def outlay (tx : Transaction) : ℕ := debitAmount tx + tx.fee

/-- The part of a fee that goes to the foundation. -/
def foundationShare (fee : ℕ) : ℕ := fee * foundationFeeBps / feeBpsDenominator

namespace StakingState

/-- Everything that is delegated or unbonding. -/
def bonded (s : StakingState) : ℕ := s.delegatedTotal + s.unbondingTotal

/-- The delegations after a transaction; one that fails changes nothing. -/
def follow (blockTimestamp : ℕ) (s : StakingState) (tx : Transaction) : StakingState :=
  match tx.action with
  | .transfer => s
  | .delegate validator =>
      match s.delegateAt tx.sender validator tx.amount blockTimestamp with
      | .ok s' => s'
      | .error _ => s
  | .undelegate validator =>
      match s.undelegate tx.sender validator tx.amount blockTimestamp with
      | .ok (s', _) => s'
      | .error _ => s
  | .claimUnbonded =>
      match s.claim tx.sender blockTimestamp with
      | .ok (s', _) => s'
      | .error _ => s

/-- The delegations after an event; only penalties change them. -/
def punish (s : StakingState) (e : ScheduledEvent) : StakingState :=
  match e.action with
  | .doubleVoteSlash evidence penaltyBps =>
      match s.slash e.id evidence.first.validatorId penaltyBps with
      | .ok (s', _) => s'
      | .error _ => s
  | _ => s

end StakingState

/-- What the transactions take from an account. -/
def spent (a : Address) (transactions : List Transaction) : ℕ :=
  (transactions.map fun tx => if tx.sender = a then outlay tx else 0).sum

/-- What one transaction brings an account: a transfer, a claim, or a part of the fee. -/
def income (s : StakingState) (blockTimestamp : ℕ) (producer a : Address) (tx : Transaction) : ℕ :=
  (if tx.action = .transfer ∧ tx.receiver = a then tx.amount else 0) +
    (if tx.action = .claimUnbonded ∧ tx.sender = a then s.dueTo a blockTimestamp else 0) +
    ((if producer = a then tx.fee - foundationShare tx.fee else 0) +
      if foundationFeeAddress = a then foundationShare tx.fee else 0)

def earned (s : StakingState) (blockTimestamp : ℕ) (producer a : Address)
    (transactions : List Transaction) : ℕ :=
  (transactions.map (income s blockTimestamp producer a)).sum

/-- What a transaction asks of the ledger before the block, given the transactions ahead of it. -/
structure Sustained (blockTimestamp : ℕ) (producer : Address) (l : Ledger)
    (ahead : List Transaction) (tx : Transaction) : Prop where
  target : tx.action.isTransfer = true ↔
    canonicalAddress tx.receiver ≠ RawTransaction.stakingSystemAddress
  amount : tx.amount = 0 ↔ tx.action = .claimUnbonded
  nonce : tx.nonce = l.nextNonce tx.sender + ahead.countP (·.sender = tx.sender)
  funds : outlay tx + spent tx.sender ahead ≤
    l.balanceOf tx.sender + earned l.staking blockTimestamp producer tx.sender ahead
  delegate : ∀ validator, tx.action = .delegate validator →
    RawTransaction.validateValidator validator = .ok () ∧
      Staking.minimumDelegation ≤ tx.amount ∧ tx.sender ≠ validator
  undelegate : ∀ validator, tx.action = .undelegate validator →
    tx.amount ≤
        (ahead.foldl (StakingState.follow blockTimestamp) l.staking).delegatedTo tx.sender validator ∧
      blockTimestamp + Staking.unbondingSeconds ≤ u64Max
  claim : tx.action = .claimUnbonded →
    0 < l.staking.dueTo tx.sender blockTimestamp ∧
      ∀ t ∈ ahead, t.sender = tx.sender → t.action ≠ .claimUnbonded

theorem sustained_transfer {blockTimestamp : ℕ} {producer : Address} {l : Ledger}
    {ahead : List Transaction} {tx : Transaction} (haction : tx.action = .transfer)
    (htarget : canonicalAddress tx.receiver ≠ RawTransaction.stakingSystemAddress)
    (hamount : tx.amount ≠ 0)
    (hnonce : tx.nonce = l.nextNonce tx.sender + ahead.countP (·.sender = tx.sender))
    (hfunds : outlay tx + spent tx.sender ahead ≤
      l.balanceOf tx.sender + earned l.staking blockTimestamp producer tx.sender ahead) :
    Sustained blockTimestamp producer l ahead tx where
  target := by simp [haction, TransactionAction.isTransfer, htarget]
  amount := by simp [haction, hamount]
  nonce := hnonce
  funds := hfunds
  delegate _ h := by cases haction.symm.trans h
  undelegate _ h := by cases haction.symm.trans h
  claim h := by cases haction.symm.trans h

theorem spent_concat (a : Address) (transactions : List Transaction) (tx : Transaction) :
    spent a (transactions ++ [tx]) =
      spent a transactions + if tx.sender = a then outlay tx else 0 := by
  simp [spent]

theorem earned_concat (s : StakingState) (blockTimestamp : ℕ) (producer a : Address)
    (transactions : List Transaction) (tx : Transaction) :
    earned s blockTimestamp producer a (transactions ++ [tx]) =
      earned s blockTimestamp producer a transactions + income s blockTimestamp producer a tx := by
  simp [earned]

/-! ## One transaction -/

theorem distributeFee_getD {b b' : HashMap Address ℕ} {producer : Address} {fee : ℕ}
    (h : distributeFee b producer fee = .ok b') (a : Address) :
    getD b' a 0 = getD b a 0 + ((if producer = a then fee - foundationShare fee else 0) +
      if foundationFeeAddress = a then foundationShare fee else 0) := by
  simp only [distributeFee, bind_eq_ok, okOr_eq_ok, checkedMul_eq_some] at h
  obtain ⟨scaled, ⟨rfl, -⟩, b₁, hproducer, hfoundation⟩ := h
  rw [creditBalance_getD hfoundation, creditBalance_getD hproducer, Nat.add_assoc]
  rfl

theorem Ledger.debit_balanceOf {l : Ledger} {address : Address} {amount : ℕ}
    (h : amount ≤ l.balanceOf address) (a : Address) :
    (l.debit address amount).balanceOf a + (if address = a then amount else 0) =
      l.balanceOf a := by
  simp only [Ledger.debit, Ledger.balanceOf] at h ⊢
  split_ifs with haddress
  · subst haddress
    rw [getD_insert_self, Nat.sub_add_cancel h]
  · rw [getD_insert_ne _ (Ne.symm haddress), Nat.add_zero]

namespace StakingState

variable {s s' : StakingState}

theorem dueTo_perm {l : List UnbondingEntry} (h : s.unbonding.Perm l) (a : Address)
    (blockTimestamp : ℕ) :
    s.dueTo a blockTimestamp = ((l.filter (isDue a blockTimestamp)).map UnbondingEntry.amount).sum :=
  ((h.filter _).map _).sum_eq

/-- What is undelegated now cannot be claimed yet. -/
theorem dueTo_undelegate {delegator validator : Address} {amount blockTimestamp releaseAt : ℕ}
    (h : s.undelegate delegator validator amount blockTimestamp = .ok (s', releaseAt))
    (a : Address) : s'.dueTo a blockTimestamp = s.dueTo a blockTimestamp := by
  have hlater : isDue a blockTimestamp { delegator, validator, amount
                                         releaseAt := blockTimestamp + Staking.unbondingSeconds } =
      false := by
    simp [isDue, Staking.unbondingSeconds]
  rw [dueTo_perm (undelegate_unbonding h).2, List.filter_append, List.filter_singleton, hlater]
  simp [dueTo]

theorem dueTo_claim {delegator : Address} {blockTimestamp amount : ℕ}
    (h : s.claim delegator blockTimestamp = .ok (s', amount)) (a : Address) :
    s'.dueTo a blockTimestamp = if delegator = a then 0 else s.dueTo a blockTimestamp := by
  rw [dueTo, (claim_unbonding h).1, List.filter_filter]
  split_ifs with hsame
  · subst hsame
    simp
  · refine congrArg (fun l => (List.map UnbondingEntry.amount l).sum) (List.filter_congr ?_)
    intro e _
    by_cases hdelegator : e.delegator = a
    · simp [isDue, hdelegator, Ne.symm hsame]
    · simp [isDue, hdelegator]

end StakingState

section
variable {l acted : Ledger} {blockTimestamp : ℕ} {tx : Transaction}

theorem applyTransactionAction_staking
    (h : applyTransactionAction l blockTimestamp tx = .ok acted) :
    acted.staking = l.staking.follow blockTimestamp tx ∧
      acted.executedEvents = l.executedEvents := by
  unfold applyTransactionAction at h
  unfold StakingState.follow
  cases haction : tx.action with
  | transfer =>
      simp only [haction, bind_eq_ok, pure_eq_ok] at h
      obtain ⟨b, -, rfl⟩ := h
      exact ⟨rfl, rfl⟩
  | delegate validator =>
      simp only [haction, bind_eq_ok, pure_eq_ok] at h
      obtain ⟨s, hs, rfl⟩ := h
      simp only [hs, and_self]
  | undelegate validator =>
      simp only [haction, bind_eq_ok, pure_eq_ok, Prod.exists] at h
      obtain ⟨s, releaseAt, hs, rfl⟩ := h
      simp only [hs, and_self]
  | claimUnbonded =>
      simp only [haction, bind_eq_ok, pure_eq_ok, Prod.exists] at h
      obtain ⟨s, claimed, hs, b, -, rfl⟩ := h
      simp only [hs, and_self]

/-- What can be claimed afterwards. -/
theorem applyTransactionAction_dueTo
    (h : applyTransactionAction l blockTimestamp tx = .ok acted) (a : Address) :
    acted.staking.dueTo a blockTimestamp =
      if tx.sender = a ∧ tx.action = .claimUnbonded then 0
      else l.staking.dueTo a blockTimestamp := by
  unfold applyTransactionAction at h
  cases haction : tx.action with
  | transfer =>
      simp only [haction, bind_eq_ok, pure_eq_ok] at h
      obtain ⟨b, -, rfl⟩ := h
      simp
  | delegate validator =>
      simp only [haction, bind_eq_ok, pure_eq_ok] at h
      obtain ⟨s, hs, rfl⟩ := h
      rw [StakingState.dueTo_perm (StakingState.delegateAt_unbonding hs)]
      simp [StakingState.dueTo]
  | undelegate validator =>
      simp only [haction, bind_eq_ok, pure_eq_ok, Prod.exists] at h
      obtain ⟨s, releaseAt, hs, rfl⟩ := h
      simp [StakingState.dueTo_undelegate hs]
  | claimUnbonded =>
      simp only [haction, bind_eq_ok, pure_eq_ok, Prod.exists] at h
      obtain ⟨s, claimed, hs, b, -, rfl⟩ := h
      simp [StakingState.dueTo_claim hs]

theorem applyTransactionAction_balanceOf
    (h : applyTransactionAction l blockTimestamp tx = .ok acted) (a : Address) :
    acted.balanceOf a = l.balanceOf a +
      ((if tx.action = .transfer ∧ tx.receiver = a then tx.amount else 0) +
        if tx.action = .claimUnbonded ∧ tx.sender = a then l.staking.dueTo a blockTimestamp
        else 0) := by
  unfold applyTransactionAction at h
  cases haction : tx.action with
  | transfer =>
      simp only [haction, bind_eq_ok, pure_eq_ok] at h
      obtain ⟨b, hb, rfl⟩ := h
      simp [Ledger.balanceOf, creditBalance_getD hb]
  | delegate validator =>
      simp only [haction, bind_eq_ok, pure_eq_ok] at h
      obtain ⟨s, -, rfl⟩ := h
      simp [Ledger.balanceOf]
  | undelegate validator =>
      simp only [haction, bind_eq_ok, pure_eq_ok, Prod.exists] at h
      obtain ⟨s, releaseAt, -, rfl⟩ := h
      simp [Ledger.balanceOf]
  | claimUnbonded =>
      simp only [haction, bind_eq_ok, pure_eq_ok, Prod.exists] at h
      obtain ⟨s, claimed, hs, b, hb, rfl⟩ := h
      have hclaimed : claimed = l.staking.dueTo tx.sender blockTimestamp :=
        (StakingState.claim_unbonding hs).2
      by_cases hsender : tx.sender = a
      · simp [Ledger.balanceOf, creditBalance_getD hb, hclaimed, hsender]
      · simp [Ledger.balanceOf, creditBalance_getD hb, hsender]

end

/-- A ledger as the transactions ahead have left it. -/
structure Followed (blockTimestamp : ℕ) (producer : Address) (l₀ : Ledger)
    (ahead : List Transaction) (l : Ledger) : Prop where
  total : l.total = l₀.total
  executedEvents : l.executedEvents = l₀.executedEvents
  nextNonce : ∀ a, l.nextNonce a = l₀.nextNonce a + ahead.countP (·.sender = a)
  balanceOf : ∀ a, l.balanceOf a + spent a ahead =
    l₀.balanceOf a + earned l₀.staking blockTimestamp producer a ahead
  staking : l.staking = ahead.foldl (StakingState.follow blockTimestamp) l₀.staking
  dueTo : ∀ a, l.staking.dueTo a blockTimestamp =
    if ∃ t ∈ ahead, t.sender = a ∧ t.action = .claimUnbonded then 0
    else l₀.staking.dueTo a blockTimestamp

section
variable {blockTimestamp : ℕ} {producer : Address} {l₀ l l' : Ledger} {ahead : List Transaction}
  {tx : Transaction}

theorem Followed.refl (blockTimestamp : ℕ) (producer : Address) (l₀ : Ledger) :
    Followed blockTimestamp producer l₀ [] l₀ where
  total := rfl
  executedEvents := rfl
  nextNonce _ := rfl
  balanceOf _ := rfl
  staking := rfl
  dueTo a := by simp

/-- There is something to claim as long as nobody has claimed it. -/
theorem Followed.dueTo_pos_iff (h : Followed blockTimestamp producer l₀ ahead l) (a : Address) :
    0 < l.staking.dueTo a blockTimestamp ↔
      0 < l₀.staking.dueTo a blockTimestamp ∧
        ∀ t ∈ ahead, t.sender = a → t.action ≠ .claimUnbonded := by
  rw [h.dueTo a]
  split_ifs with hclaimed
  · obtain ⟨t, ht, hsender, haction⟩ := hclaimed
    simp only [lt_self_iff_false, false_iff, not_and, not_forall]
    intro _
    exact ⟨t, ht, hsender, not_not.2 haction⟩
  · refine (and_iff_left ?_).symm
    intro t ht hsender haction
    exact hclaimed ⟨t, ht, hsender, haction⟩

theorem Followed.allowed_iff (h : Followed blockTimestamp producer l₀ ahead l) :
    Allowed blockTimestamp l tx ↔ Sustained blockTimestamp producer l₀ ahead tx := by
  have hbalance := h.balanceOf tx.sender
  have hdue := h.dueTo_pos_iff tx.sender
  constructor
  · intro hallowed
    have hpermits := hallowed.permits
    have hcovered := hallowed.covered
    rw [StakingState.Permits] at hpermits
    refine ⟨hallowed.target, hallowed.amount, ?_, ?_, ?_, ?_, ?_⟩
    · rw [hallowed.nonce, h.nextNonce]
    · simp only [outlay]
      omega
    · intro validator haction
      rw [haction] at hpermits
      exact hpermits
    · intro validator haction
      rw [haction, h.staking] at hpermits
      exact hpermits
    · intro haction
      rw [haction] at hpermits
      exact hdue.1 (StakingState.dueTo_pos_iff.2 hpermits)
  · intro hsustained
    have hfunds := hsustained.funds
    simp only [outlay] at hfunds
    refine ⟨hsustained.target, hsustained.amount, ?_, by omega, ?_⟩
    · rw [hsustained.nonce, h.nextNonce]
    · rw [StakingState.Permits]
      cases haction : tx.action with
      | transfer => trivial
      | delegate validator => exact hsustained.delegate validator haction
      | undelegate validator =>
          rw [h.staking]
          exact hsustained.undelegate validator haction
      | claimUnbonded => exact StakingState.dueTo_pos_iff.1 (hdue.2 (hsustained.claim haction))

/-- A claim brings what could be claimed before the block. -/
theorem Followed.dueTo_claimed (h : Followed blockTimestamp producer l₀ ahead l) {d acted : Ledger}
    (hd : d.staking = l.staking) (hacted : applyTransactionAction d blockTimestamp tx = .ok acted)
    (haction : tx.action = .claimUnbonded) :
    d.staking.dueTo tx.sender blockTimestamp = l₀.staking.dueTo tx.sender blockTimestamp := by
  simp only [applyTransactionAction, haction, bind_eq_ok, Prod.exists] at hacted
  obtain ⟨s, claimed, hs, -⟩ := hacted
  have hsomething : 0 < d.staking.dueTo tx.sender blockTimestamp := by
    rw [StakingState.dueTo, ← (StakingState.claim_unbonding hs).2]
    simp only [StakingState.claim, bind_eq_ok, reject_eq_ok, pure_eq_ok, Prod.mk.injEq] at hs
    obtain ⟨_, -, -, hne, -, rfl⟩ := hs
    exact Nat.pos_of_ne_zero hne
  rw [hd] at hsomething ⊢
  have hnobody := ((h.dueTo_pos_iff tx.sender).1 hsomething).2
  rw [h.dueTo, if_neg]
  rintro ⟨t, ht, hsender, hclaim⟩
  exact hnobody t ht hsender hclaim

theorem Followed.balanceOf_run (h : Followed blockTimestamp producer l₀ ahead l)
    (hrun : runTransaction producer blockTimestamp l tx = .ok l') (a : Address) :
    l'.balanceOf a + spent a (ahead ++ [tx]) =
      l₀.balanceOf a + earned l₀.staking blockTimestamp producer a (ahead ++ [tx]) := by
  obtain ⟨hcovered, acted, b, hacted, hfee, rfl⟩ := runTransaction_acted hrun
  have hbefore := h.balanceOf a
  have hdebit := Ledger.debit_balanceOf hcovered a
  have hgain := applyTransactionAction_balanceOf hacted a
  have hshared := distributeFee_getD hfee a
  have hdue : (if tx.action = .claimUnbonded ∧ tx.sender = a then
      (l.debit tx.sender (debitAmount tx + tx.fee)).staking.dueTo a blockTimestamp else 0) =
        if tx.action = .claimUnbonded ∧ tx.sender = a then l₀.staking.dueTo a blockTimestamp
        else 0 := by
    split_ifs with hclaim
    · obtain ⟨haction, rfl⟩ := hclaim
      exact h.dueTo_claimed rfl hacted haction
    · rfl
  rw [hdue] at hgain
  rw [spent_concat, earned_concat, income]
  simp only [outlay]
  simp only [Ledger.balanceOf] at hgain hdebit hbefore ⊢
  omega

/-- The ledger after one more transaction. -/
theorem Followed.run (h : Followed blockTimestamp producer l₀ ahead l)
    (hrun : runTransaction producer blockTimestamp l tx = .ok l') :
    Followed blockTimestamp producer l₀ (ahead ++ [tx]) l' := by
  obtain ⟨hnonce, hnext, -⟩ := runTransaction_nonce hrun
  have htotal := runTransaction_total hrun
  have hbalance := h.balanceOf_run hrun
  obtain ⟨-, acted, b, hacted, -, rfl⟩ := runTransaction_acted hrun
  obtain ⟨hstaking, hevents⟩ := applyTransactionAction_staking hacted
  have hdue := applyTransactionAction_dueTo hacted
  refine ⟨htotal.trans h.total, hevents.trans h.executedEvents, fun a => ?_, hbalance, ?_,
    fun a => ?_⟩
  · have hcount := h.nextNonce a
    rw [Ledger.nextNonce, hnext, List.countP_append, List.countP_singleton]
    by_cases hsender : tx.sender = a
    · subst hsender
      rw [getD_insert_self, hnonce, hcount, if_pos (decide_eq_true rfl), Nat.add_assoc]
    · rw [getD_insert_ne _ (Ne.symm hsender), if_neg (by simpa using hsender)]
      exact hcount
  · rw [List.foldl_append, List.foldl_cons, List.foldl_nil, ← h.staking]
    exact hstaking
  · have hsplit : (∃ t ∈ ahead ++ [tx], t.sender = a ∧ t.action = .claimUnbonded) ↔
        (∃ t ∈ ahead, t.sender = a ∧ t.action = .claimUnbonded) ∨
          tx.sender = a ∧ tx.action = .claimUnbonded := by
      simp only [List.mem_append, List.mem_singleton, or_and_right, exists_or, exists_eq_left]
    refine (hdue a).trans ?_
    simp only [hsplit]
    by_cases hclaim : tx.sender = a ∧ tx.action = .claimUnbonded
    · rw [if_pos hclaim, if_pos (.inr hclaim)]
    · simp only [hclaim, or_false, if_false]
      exact h.dueTo a

end

/-! ## Events -/

/-- The foundation covers payments exactly if it covers each of them after what has left it. -/
theorem foundationCovers_iff {b : HashMap Address ℕ} {payments : List EventPayment}
    (htotal : total b ≤ u128Max) :
    FoundationCovers b payments ↔ ∀ before p, before ++ [p] <+: payments →
      p.amount + outgoing before ≤ getD b foundationFeeAddress 0 := by
  rw [← payFromFoundation_ok_iff htotal]
  refine foldlM_ok_iff_prefix (I := fun before x => total x ≤ u128Max ∧
    getD x foundationFeeAddress 0 + outgoing before = getD b foundationFeeAddress 0) ?_ ?_ payments
      ⟨htotal, rfl⟩
  · intro before x p ⟨hx, hleft⟩
    rw [transferFromFoundation_ok_iff hx]
    omega
  · intro before x p y ⟨hx, hleft⟩ hxy
    have hpaid := transferFromFoundation_balance hxy
    rw [transferFromFoundation_total hxy, outgoing_append]
    exact ⟨hx, by omega⟩

namespace StakingState

theorem follow_appliedSlashes (blockTimestamp : ℕ) (s : StakingState) (tx : Transaction) :
    (s.follow blockTimestamp tx).appliedSlashes = s.appliedSlashes := by
  unfold follow
  split
  · rfl
  · split
    next s' h =>
      simp only [delegateAt, check_bind_eq_ok] at h
      obtain ⟨-, -, -, h⟩ := h
      split at h
      · simp only [bind_eq_ok, pure_eq_ok] at h
        obtain ⟨raised, -, rfl⟩ := h
        rfl
      · rw [pure_eq_ok] at h
        subst h
        rfl
    next => rfl
  · split
    next s' releaseAt h =>
      simp only [undelegate, bind_eq_ok, pure_eq_ok, Prod.mk.injEq] at h
      obtain ⟨-, -, position, -, -, -, release, -, rfl, -⟩ := h
      rfl
    next => rfl
  · split
    next s' claimed h =>
      simp only [claim, bind_eq_ok, pure_eq_ok, Prod.mk.injEq] at h
      obtain ⟨-, -, -, -, rfl, -⟩ := h
      rfl
    next => rfl

theorem foldl_follow_appliedSlashes (blockTimestamp : ℕ) (s : StakingState)
    (transactions : List Transaction) :
    (transactions.foldl (follow blockTimestamp) s).appliedSlashes = s.appliedSlashes := by
  induction transactions generalizing s with
  | nil => rfl
  | cons tx rest ih => rw [List.foldl_cons, ih, follow_appliedSlashes]

/-- A penalty notes its event, and nothing else is noted. -/
theorem mem_appliedSlashes_slash {s s' : StakingState} {evidenceId validator : String}
    {penaltyBps total : ℕ} (h : s.slash evidenceId validator penaltyBps = .ok (s', total))
    (id : String) : id ∈ s'.appliedSlashes ↔ id ∈ s.appliedSlashes ∨ id = evidenceId := by
  simp only [slash, check_bind_eq_ok] at h
  obtain ⟨-, -, h⟩ := h
  simp only [bind_eq_ok, pure_eq_ok, Prod.mk.injEq] at h
  obtain ⟨_, -, rfl, -⟩ := h
  simp

end StakingState

/-- What is left for an event when the transactions and the events ahead are paid for covers its
payments one by one. -/
def Funded (l : Ledger) (block : Block) (done : List ScheduledEvent) (e : ScheduledEvent) : Prop :=
  let bonds := block.transactions.foldl (StakingState.follow block.timestamp) l.staking
  ∀ before p, before ++ [p] <+: foundationPayments e.action →
    p.amount + outgoing (done.flatMap (fun d => foundationPayments d.action) ++ before) +
        (done.foldl StakingState.punish bonds).bonded +
        spent foundationFeeAddress block.transactions ≤
      l.balanceOf foundationFeeAddress +
        earned l.staking block.timestamp block.producer foundationFeeAddress block.transactions +
        bonds.bonded

/-- A ledger as the events ahead have left it. -/
structure Disbursed (l₁ : Ledger) (done : List ScheduledEvent) (l : Ledger) : Prop where
  total : l.total = l₁.total
  executedEvents : ∀ id, id ∈ l.executedEvents ↔
    id ∈ l₁.executedEvents ∨ id ∈ done.map (·.id)
  staking : l.staking = done.foldl StakingState.punish l₁.staking
  appliedSlashes : ∀ id, id ∉ done.map (·.id) →
    (id ∈ l.staking.appliedSlashes ↔ id ∈ l₁.staking.appliedSlashes)
  foundation : l.balanceOf foundationFeeAddress +
      outgoing (done.flatMap fun d => foundationPayments d.action) + l.staking.bonded =
    l₁.balanceOf foundationFeeAddress + l₁.staking.bonded

theorem Disbursed.refl (l₁ : Ledger) : Disbursed l₁ [] l₁ where
  total := rfl
  executedEvents id := by simp
  staking := rfl
  appliedSlashes _ _ := Iff.rfl
  foundation := rfl

section
variable [Crypto]

/-- What an event asks of the ledger before the block, given the events ahead of it. -/
structure SustainedEvent (l : Ledger) (block : Block) (done : List ScheduledEvent)
    (e : ScheduledEvent) : Prop where
  valid : e.validate = .ok ()
  due : e.executeAt ≤ block.timestamp
  fresh : e.id ∉ l.executedEvents
  once : e.id ∉ done.map (·.id)
  unslashed : ∀ evidence penaltyBps, e.action = .doubleVoteSlash evidence penaltyBps →
    (1 ≤ penaltyBps ∧ penaltyBps ≤ Staking.doubleVoteSlashBps) ∧ e.id ∉ l.staking.appliedSlashes
  funds : Funded l block done e

theorem applySystemEvent_spec {blockTimestamp : ℕ} {l l' : Ledger} {e : ScheduledEvent}
    (h : applySystemEvent blockTimestamp l e = .ok l') :
    l'.executedEvents = insert e.id l.executedEvents ∧ l'.staking = l.staking.punish e ∧
      (∀ id, id ≠ e.id →
        (id ∈ l'.staking.appliedSlashes ↔ id ∈ l.staking.appliedSlashes)) ∧
      l'.balanceOf foundationFeeAddress + outgoing (foundationPayments e.action) +
        l'.staking.bonded = l.balanceOf foundationFeeAddress + l.staking.bonded := by
  simp only [applySystemEvent, check_bind_eq_ok] at h
  obtain ⟨-, -, -, haction⟩ := h
  unfold StakingState.punish
  cases hkind : e.action with
  | doubleVoteSlash evidence penaltyBps =>
      simp only [hkind, applyAction, bind_eq_ok, pure_eq_ok, Prod.exists] at haction
      obtain ⟨staking, slashed, hslash, b, hb, rfl⟩ := haction
      have hmoved := StakingState.slash_total hslash
      have hcredit := creditBalance_getD hb foundationFeeAddress
      refine ⟨rfl, by simp only [hslash], ?_, ?_⟩
      · intro id hid
        exact (StakingState.mem_appliedSlashes_slash hslash id).trans (or_iff_left hid)
      · have hnothing : outgoing (foundationPayments (.doubleVoteSlash evidence penaltyBps)) = 0 :=
          rfl
        simp only [Ledger.balanceOf, StakingState.bonded, hcredit, hnothing, if_true]
        omega
  | _ =>
      simp only [hkind, applyAction, bind_eq_ok, pure_eq_ok] at haction
      obtain ⟨b, hb, rfl⟩ := haction
      have hpaid := payFromFoundation_balance hb
      refine ⟨rfl, rfl, fun _ _ => Iff.rfl, ?_⟩
      simp only [Ledger.balanceOf] at hpaid ⊢
      omega

section
variable {c l₁ l l' : Ledger} {block : Block} {done : List ScheduledEvent} {e : ScheduledEvent}

theorem Disbursed.payable_iff (h : Disbursed l₁ done l)
    (hfollowed : Followed block.timestamp block.producer c block.transactions l₁)
    (htotal : l.total ≤ u128Max) :
    Payable block.timestamp l e ↔ SustainedEvent c block done e := by
  have hbalances : FiniteMap.total l.balances ≤ u128Max := by
    unfold Ledger.total at htotal
    omega
  have hslashes : l₁.staking.appliedSlashes = c.staking.appliedSlashes := by
    rw [hfollowed.staking, StakingState.foldl_follow_appliedSlashes]
  have hfunds : FoundationCovers l.balances (foundationPayments e.action) ↔
      Funded c block done e := by
    have hleft := h.foundation
    have hstart := hfollowed.balanceOf foundationFeeAddress
    rw [h.staking, hfollowed.staking] at hleft
    rw [foundationCovers_iff hbalances]
    refine forall_congr' fun before => forall_congr' fun p => imp_congr_right fun _ => ?_
    rw [outgoing_append]
    simp only [Ledger.balanceOf] at hleft hstart ⊢
    omega
  constructor
  · intro hpayable
    have hfresh := hpayable.fresh
    rw [h.executedEvents, hfollowed.executedEvents, not_or] at hfresh
    refine ⟨hpayable.valid, hpayable.due, hfresh.1, hfresh.2, ?_, hfunds.1 hpayable.covered⟩
    intro evidence penaltyBps haction
    obtain ⟨hbps, hnew⟩ := hpayable.unslashed evidence penaltyBps haction
    rw [h.appliedSlashes e.id hfresh.2, hslashes] at hnew
    exact ⟨hbps, hnew⟩
  · intro hsustained
    refine ⟨hsustained.valid, hsustained.due, ?_, hfunds.2 hsustained.funds, ?_⟩
    · rw [h.executedEvents, hfollowed.executedEvents, not_or]
      exact ⟨hsustained.fresh, hsustained.once⟩
    · intro evidence penaltyBps haction
      rw [h.appliedSlashes e.id hsustained.once, hslashes]
      exact hsustained.unslashed evidence penaltyBps haction

theorem Disbursed.run (h : Disbursed l₁ done l) {blockTimestamp : ℕ}
    (hrun : applySystemEvent blockTimestamp l e = .ok l') : Disbursed l₁ (done ++ [e]) l' := by
  obtain ⟨hevents, hstaking, hslashes, hfoundation⟩ := applySystemEvent_spec hrun
  have hleft := h.foundation
  refine ⟨(applySystemEvent_total hrun).trans h.total, fun id => ?_, ?_, fun id hid => ?_, ?_⟩
  · rw [hevents, Finset.mem_insert, h.executedEvents, List.map_append, List.mem_append,
      List.map_singleton, List.mem_singleton]
    tauto
  · rw [List.foldl_append, List.foldl_cons, List.foldl_nil, hstaking, h.staking]
  · rw [List.map_append, List.mem_append, not_or, List.map_singleton, List.mem_singleton] at hid
    rw [hslashes id hid.2, h.appliedSlashes id hid.1]
  · rw [List.flatMap_append, outgoing_append, List.flatMap_singleton]
    omega

end

/-! ## Blocks -/

theorem applyTransactions_followed {chainId blockTimestamp : ℕ} {producer : Address}
    {l₀ l : Ledger} {transactions : List Transaction}
    (h : applyTransactions chainId transactions producer l₀ blockTimestamp = .ok l) :
    Followed blockTimestamp producer l₀ transactions l := by
  refine foldlM_followed (I := Followed blockTimestamp producer l₀) ?_ (.refl ..) h
  intro ahead x tx y hx hxy
  rw [applyTransaction, check_bind_eq_ok] at hxy
  exact hx.run hxy.2

theorem applyTransactions_ok_iff_sustained {chainId blockTimestamp : ℕ} {producer : Address}
    {l₀ : Ledger} (hcap : l₀.total ≤ ieumMaxSupply) (transactions : List Transaction) :
    (∃ l, applyTransactions chainId transactions producer l₀ blockTimestamp = .ok l) ↔
      ∀ ahead tx, ahead ++ [tx] <+: transactions →
        checkTransactionSignature chainId tx = .ok () ∧
          Sustained blockTimestamp producer l₀ ahead tx := by
  refine foldlM_ok_iff_prefix (I := Followed blockTimestamp producer l₀) ?_ ?_ transactions
    (.refl ..)
  · intro ahead x tx hx
    rw [applyTransaction_ok_iff (hx.total.trans_le hcap), ← hx.allowed_iff]
    exact ⟨fun h => ⟨h.signed, h.allowed⟩, fun h => ⟨h.1, h.2⟩⟩
  · intro ahead x tx y hx hxy
    rw [applyTransaction, check_bind_eq_ok] at hxy
    exact hx.run hxy.2

theorem applySystemEvents_ok_iff_sustained {c l₁ : Ledger} {block : Block}
    (hfollowed : Followed block.timestamp block.producer c block.transactions l₁)
    (htotal : l₁.total ≤ u128Max) (events : List ScheduledEvent) :
    (∃ l, applySystemEvents events block.timestamp l₁ = .ok l) ↔
      ∀ done e, done ++ [e] <+: events → SustainedEvent c block done e := by
  refine foldlM_ok_iff_prefix (I := Disbursed l₁) ?_ ?_ events (.refl l₁)
  · intro done x e hx
    have hx' : x.total ≤ u128Max := hx.total.trans_le htotal
    rw [applySystemEvent_ok_iff hx', hx.payable_iff hfollowed hx']
  · intro done x e y hx hxy
    exact hx.run hxy

namespace Blockchain

/-- What a block asks of a chain: correctly signed transactions each of which the ledger sustains
after those ahead of it, and events that it sustains after all of them. -/
structure Sustains (c : Blockchain) (block : Block) : Prop where
  capped : c.total ≤ ieumMaxSupply
  transactions : ∀ ahead tx, ahead ++ [tx] <+: block.transactions →
    checkTransactionSignature c.chainId tx = .ok () ∧
      Sustained block.timestamp block.producer c.toLedger ahead tx
  events : ∀ done e, done ++ [e] <+: block.systemEvents → SustainedEvent c.toLedger block done e

/-- A block can be executed exactly if the chain sustains it. -/
theorem executable_iff_sustains {c : Blockchain} {block : Block} :
    c.Executable block ↔ c.Sustains block := by
  have hmax : ieumMaxSupply ≤ u128Max := by decide
  constructor
  · intro hexecutable
    have hcap := hexecutable.capped
    have hrun := (applyTransactions_ok_iff hcap _).2 hexecutable.transactions
    refine ⟨hcap, (applyTransactions_ok_iff_sustained hcap _).1 hrun, ?_⟩
    obtain ⟨l₁, hl₁⟩ := hrun
    have htotal : l₁.total ≤ u128Max := (applyTransactions_total hl₁).trans_le (hcap.trans hmax)
    have hpaid := (applySystemEvents_ok_iff htotal _).2 (hexecutable.events l₁ hl₁)
    exact (applySystemEvents_ok_iff_sustained (applyTransactions_followed hl₁) htotal _).1 hpaid
  · intro hsustains
    have hcap := hsustains.capped
    have hrun := (applyTransactions_ok_iff_sustained hcap _).2 hsustains.transactions
    refine ⟨hcap, (applyTransactions_ok_iff hcap _).1 hrun, fun l₁ hl₁ => ?_⟩
    have htotal : l₁.total ≤ u128Max := (applyTransactions_total hl₁).trans_le (hcap.trans hmax)
    exact (applySystemEvents_ok_iff htotal _).1
      ((applySystemEvents_ok_iff_sustained (applyTransactions_followed hl₁) htotal _).2
        hsustains.events)

end Blockchain

end

end IeumChain
