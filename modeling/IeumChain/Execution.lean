import IeumChain.Genesis
import IeumChain.Replay

/-!
# When a block can be executed

The execution of a block stops at the first transaction or event that the ledger does not
allow. Below the supply cap no sum leaves its word, so what remains are the rules: each
transaction and each event is allowed, or not, by the ledger that those before it have
left.
-/
namespace IeumChain

open ByteCodec Text Outcome MachineWords FiniteMap

theorem ieumMaxSupply_le : ieumMaxSupply * foundationFeeBps ≤ u128Max := by decide

/-! ## Balances -/

theorem creditBalance_ok {b : HashMap Address ℕ} {amount : ℕ} (h : total b + amount ≤ u128Max)
    (address : Address) (message : String) :
    ∃ b', creditBalance b address amount message = .ok b' := by
  have hle := getD_le_total b address
  unfold creditBalance
  split_ifs with hzero
  · exact ⟨b, rfl⟩
  · simp only [bind_eq_ok, okOr_eq_ok, checkedAdd_eq_some]
    exact ⟨_, _, ⟨rfl, by omega⟩, rfl⟩

theorem transferFromFoundation_ok_iff {b : HashMap Address ℕ} (htotal : total b ≤ u128Max)
    (p : EventPayment) :
    (∃ b', transferFromFoundation b p.address p.amount = .ok b') ↔
      p.amount ≤ getD b foundationFeeAddress 0 := by
  simp only [transferFromFoundation, check_bind_eq_ok, reject_eq_ok, not_lt]
  constructor
  · rintro ⟨_, hcovered, -⟩
    exact hcovered
  · intro hcovered
    have hdebit := total_debit hcovered
    obtain ⟨b', hb'⟩ := creditBalance_ok
      (b := b.insert foundationFeeAddress (getD b foundationFeeAddress 0 - p.amount))
      (by omega : _ + p.amount ≤ u128Max) (canonicalAddress p.address)
      "예약 이벤트 수령 잔액이 u128 범위를 넘습니다."
    exact ⟨b', hcovered, hb'⟩

/-- The foundation account covers every payment when its turn comes. -/
def FoundationCovers (b : HashMap Address ℕ) (payments : List EventPayment) : Prop :=
  Along (fun b p => transferFromFoundation b p.address p.amount)
    (fun b p => p.amount ≤ getD b foundationFeeAddress 0) b payments

theorem payFromFoundation_ok_iff {b : HashMap Address ℕ} (htotal : total b ≤ u128Max)
    (payments : List EventPayment) :
    (∃ b', payFromFoundation b payments = .ok b') ↔ FoundationCovers b payments := by
  refine foldlM_ok_iff (I := fun x => total x ≤ u128Max) ?_ ?_ payments htotal
  · intro x p hx
    exact transferFromFoundation_ok_iff hx p
  · intro x p y hx hxy
    rw [transferFromFoundation_total hxy]
    exact hx

theorem distributeFee_ok {b : HashMap Address ℕ} {fee : ℕ} (h : total b + fee ≤ ieumMaxSupply)
    (producer : Address) : ∃ b', distributeFee b producer fee = .ok b' := by
  have hmax : ieumMaxSupply ≤ u128Max := by decide
  have hscaled : fee * foundationFeeBps ≤ u128Max :=
    le_trans (Nat.mul_le_mul_right _ (by omega)) ieumMaxSupply_le
  have hshare : fee * foundationFeeBps / feeBpsDenominator ≤ fee :=
    Nat.div_le_of_le_mul (by simp only [foundationFeeBps, feeBpsDenominator]; omega)
  obtain ⟨share, hshareEq⟩ : ∃ n, n = fee * foundationFeeBps / feeBpsDenominator := ⟨_, rfl⟩
  rw [← hshareEq] at hshare
  obtain ⟨b₁, hb₁⟩ := creditBalance_ok (by omega : total b + (fee - share) ≤ u128Max) producer
    "블록 생성자 보상 잔액이 u128 범위를 넘습니다."
  have htotal₁ := creditBalance_total hb₁
  obtain ⟨b₂, hb₂⟩ := creditBalance_ok (by omega : total b₁ + share ≤ u128Max)
    foundationFeeAddress "재단 수수료 잔액이 u128 범위를 넘습니다."
  simp only [distributeFee, bind_eq_ok, okOr_eq_ok, checkedMul_eq_some]
  subst hshareEq
  exact ⟨b₂, _, ⟨rfl, hscaled⟩, b₁, hb₁, hb₂⟩

/-! ## Delegations -/

/-- What the delegations allow a transaction to do. -/
def StakingState.Permits (s : StakingState) (blockTimestamp : ℕ) (tx : Transaction) : Prop :=
  match tx.action with
  | .transfer => True
  | .delegate validator =>
      RawTransaction.validateValidator validator = .ok () ∧
        Staking.minimumDelegation ≤ tx.amount ∧ tx.sender ≠ validator
  | .undelegate validator =>
      tx.amount ≤ s.delegatedTo tx.sender validator ∧
        blockTimestamp + Staking.unbondingSeconds ≤ u64Max
  | .claimUnbonded =>
      ∃ e ∈ s.unbonding, isDue tx.sender blockTimestamp e = true ∧ 0 < e.amount

namespace StakingState

variable {s : StakingState}

/-- What a delegator can claim. -/
def dueTo (s : StakingState) (delegator : Address) (blockTimestamp : ℕ) : ℕ :=
  ((s.unbonding.filter (isDue delegator blockTimestamp)).map UnbondingEntry.amount).sum

theorem dueTo_pos_iff {a : Address} {blockTimestamp : ℕ} :
    0 < s.dueTo a blockTimestamp ↔
      ∃ e ∈ s.unbonding, isDue a blockTimestamp e = true ∧ 0 < e.amount := by
  rw [dueTo, Nat.pos_iff_ne_zero, ne_eq, List.sum_eq_zero_iff]
  simp only [List.mem_map, List.mem_filter, Nat.pos_iff_ne_zero]
  push Not
  constructor
  · rintro ⟨_, ⟨e, ⟨hmem, hdue⟩, rfl⟩, hne⟩
    exact ⟨e, hmem, hdue, hne⟩
  · rintro ⟨e, hmem, hdue, hne⟩
    exact ⟨_, ⟨e, ⟨hmem, hdue⟩, rfl⟩, hne⟩

theorem amount_le_delegatedTotal {p : DelegationPosition} {delegator validator : Address}
    (h : s.delegations.find? (isPosition delegator validator) = some p) :
    p.amount ≤ s.delegatedTotal :=
  List.single_le_sum (by simp) _ (List.mem_map_of_mem (List.mem_of_find?_eq_some h))

theorem delegateAt_ok_iff {delegator validator : Address} {amount : ℕ}
    (htotal : s.delegatedTotal + amount ≤ u128Max) (delegatedAt : ℕ) :
    (∃ s', s.delegateAt delegator validator amount delegatedAt = .ok s') ↔
      RawTransaction.validateValidator validator = .ok () ∧
        Staking.minimumDelegation ≤ amount ∧ delegator ≠ validator := by
  simp only [delegateAt, check_bind_eq_ok, reject_eq_ok, not_lt]
  constructor
  · intro ⟨_, hvalidator, hminimum, hself, _⟩
    exact ⟨hvalidator, hminimum, hself⟩
  · intro ⟨hvalidator, hminimum, hself⟩
    cases hfind : s.delegations.find? (isPosition delegator validator) with
    | none => exact ⟨_, hvalidator, hminimum, hself, rfl⟩
    | some position =>
        have hle := amount_le_delegatedTotal hfind
        simp only [bind_eq_ok, okOr_eq_ok, checkedAdd_eq_some]
        exact ⟨_, hvalidator, hminimum, hself, _, ⟨rfl, by omega⟩, rfl⟩

theorem undelegate_ok_iff {delegator validator : Address} {amount blockTimestamp : ℕ}
    (hpositive : amount ≠ 0) :
    (∃ r, s.undelegate delegator validator amount blockTimestamp = .ok r) ↔
      amount ≤ s.delegatedTo delegator validator ∧
        blockTimestamp + Staking.unbondingSeconds ≤ u64Max := by
  simp only [undelegate, bind_eq_ok, exists_const, reject_eq_ok, okOr_eq_ok, checkedAdd_eq_some,
    not_lt, delegatedTo]
  cases hfind : s.delegations.find? (isPosition delegator validator) with
  | none =>
      constructor
      · rintro ⟨_, _, _, h, _⟩
        exact absurd h (by simp)
      · rintro ⟨hle, -⟩
        exact absurd (Nat.le_zero.1 hle) hpositive
  | some position =>
      constructor
      · rintro ⟨_, _, p, hp, hle, _, ⟨rfl, hrange⟩, _⟩
        cases hp
        exact ⟨hle, hrange⟩
      · rintro ⟨hle, hrange⟩
        exact ⟨_, hpositive, position, rfl, hle, _, ⟨rfl, hrange⟩, rfl⟩

theorem claim_ok_iff {delegator : Address} {blockTimestamp : ℕ}
    (htotal : s.unbondingTotal ≤ u128Max) :
    (∃ r, s.claim delegator blockTimestamp = .ok r) ↔
      ∃ e ∈ s.unbonding, isDue delegator blockTimestamp e = true ∧ 0 < e.amount := by
  have hsplit := sum_map_filter_not (isDue delegator blockTimestamp) UnbondingEntry.amount
    s.unbonding
  have hbound : s.dueTo delegator blockTimestamp ≤ u128Max := by
    simp only [unbondingTotal] at htotal
    rw [dueTo]
    omega
  rw [← dueTo_pos_iff, Nat.pos_iff_ne_zero]
  simp only [claim, bind_eq_ok, exists_const, okOr_eq_ok, checkedSum_eq_some, reject_eq_ok]
  constructor
  · rintro ⟨_, _, ⟨rfl, -⟩, hne, -⟩
    exact hne
  · intro hne
    exact ⟨_, _, ⟨rfl, hbound⟩, hne, rfl⟩

theorem slash_ok_iff {evidenceId validator : String} {penaltyBps : ℕ}
    (htotal : s.delegatedTotal + s.unbondingTotal ≤ u128Max) :
    (∃ r, s.slash evidenceId validator penaltyBps = .ok r) ↔
      (1 ≤ penaltyBps ∧ penaltyBps ≤ Staking.doubleVoteSlashBps) ∧
        evidenceId ∉ s.appliedSlashes := by
  simp only [slash, bind_eq_ok, exists_const, reject_eq_ok, not_not, okOr_eq_ok,
    checkedSum_eq_some]
  constructor
  · rintro ⟨_, hbps, hfresh, -⟩
    exact ⟨hbps, hfresh⟩
  · rintro ⟨hbps, hfresh⟩
    have hcut : ∀ n, slashCut penaltyBps n ≤ n := fun n => slashCut_le n hbps.2
    have hd := sum_slashed DelegationPosition.amount (slashCut penaltyBps)
      (·.validator = validator)
      (fun p => { p with amount := p.amount - slashCut penaltyBps p.amount })
      s.delegations hcut fun _ => rfl
    have hu := sum_slashed UnbondingEntry.amount (slashCut penaltyBps) (·.validator = validator)
      (fun e => { e with amount := e.amount - slashCut penaltyBps e.amount })
      s.unbonding hcut fun _ => rfl
    simp only [delegatedTotal, unbondingTotal] at htotal
    refine ⟨_, hbps, hfresh, _, ⟨rfl, ?_⟩, rfl⟩
    rw [List.sum_append]
    omega

end StakingState

/-! ## Transactions -/

/-- What the ledger allows, the signature apart. -/
structure Allowed (blockTimestamp : ℕ) (l : Ledger) (tx : Transaction) : Prop where
  target : tx.action.isTransfer = true ↔
    canonicalAddress tx.receiver ≠ RawTransaction.stakingSystemAddress
  amount : tx.amount = 0 ↔ tx.action = .claimUnbonded
  nonce : tx.nonce = l.nextNonce tx.sender
  covered : debitAmount tx + tx.fee ≤ l.balanceOf tx.sender
  permits : l.staking.Permits blockTimestamp tx

theorem applyTransactionAction_ok_iff {l : Ledger} {blockTimestamp : ℕ} {tx : Transaction}
    (htotal : l.total + debitAmount tx ≤ u128Max) (hamount : tx.amount = 0 ↔ tx.action = .claimUnbonded) :
    (∃ l', applyTransactionAction l blockTimestamp tx = .ok l') ↔
      l.staking.Permits blockTimestamp tx := by
  have hparts : l.total = total l.balances + l.staking.delegatedTotal + l.staking.unbondingTotal :=
    rfl
  unfold applyTransactionAction StakingState.Permits
  cases haction : tx.action with
  | transfer =>
      simp only [debitAmount, haction] at htotal
      obtain ⟨b, hb⟩ := creditBalance_ok (by omega : total l.balances + tx.amount ≤ u128Max)
        tx.receiver "받는 계정 잔액이 u128 범위를 넘습니다."
      simp only [bind_eq_ok, iff_true]
      exact ⟨_, b, hb, rfl⟩
  | delegate validator =>
      simp only [debitAmount, haction] at htotal
      dsimp only
      rw [← StakingState.delegateAt_ok_iff (s := l.staking)
        (by omega : l.staking.delegatedTotal + tx.amount ≤ u128Max) blockTimestamp]
      simp only [bind_eq_ok, pure_eq_ok]
      constructor
      · rintro ⟨_, s, hs, -⟩
        exact ⟨s, hs⟩
      · rintro ⟨s, hs⟩
        exact ⟨_, s, hs, rfl⟩
  | undelegate validator =>
      have hpositive : tx.amount ≠ 0 := by
        intro hzero
        have hclaim := hamount.1 hzero
        rw [haction] at hclaim
        cases hclaim
      dsimp only
      rw [← StakingState.undelegate_ok_iff (s := l.staking) hpositive]
      simp only [bind_eq_ok, pure_eq_ok]
      constructor
      · rintro ⟨_, r, hr, -⟩
        exact ⟨r, hr⟩
      · rintro ⟨r, hr⟩
        exact ⟨_, r, hr, rfl⟩
  | claimUnbonded =>
      dsimp only
      rw [← StakingState.claim_ok_iff (by omega : l.staking.unbondingTotal ≤ u128Max)]
      simp only [bind_eq_ok, pure_eq_ok]
      constructor
      · rintro ⟨_, r, hr, -⟩
        exact ⟨r, hr⟩
      · rintro ⟨⟨s, claimed⟩, hr⟩
        have hmoved := StakingState.claim_total hr
        obtain ⟨b, hb⟩ := creditBalance_ok (by omega : total l.balances + claimed ≤ u128Max)
          tx.sender "해제 청구 잔액이 u128 범위를 넘습니다."
        exact ⟨_, (s, claimed), hr, b, hb, rfl⟩

/-- The ledger after a sender was debited. -/
def Ledger.debit (l : Ledger) (address : Address) (amount : ℕ) : Ledger :=
  { l with balances := l.balances.insert address (l.balanceOf address - amount) }

theorem Ledger.total_debit {l : Ledger} {address : Address} {amount : ℕ}
    (h : amount ≤ l.balanceOf address) : (l.debit address amount).total + amount = l.total := by
  have hdebit := IeumChain.total_debit h
  simp only [Ledger.total, Ledger.debit, Ledger.balanceOf] at hdebit ⊢
  omega

/-- The action of a transaction starts from the ledger without the amount and the fee. -/
theorem runTransaction_acted {producer : Address} {blockTimestamp : ℕ} {l l' : Ledger}
    {tx : Transaction} (h : runTransaction producer blockTimestamp l tx = .ok l') :
    debitAmount tx + tx.fee ≤ l.balanceOf tx.sender ∧ ∃ acted balances,
      applyTransactionAction (l.debit tx.sender (debitAmount tx + tx.fee)) blockTimestamp tx =
          .ok acted ∧
        distributeFee acted.balances producer tx.fee = .ok balances ∧
        l' = { acted with
          balances, nextNonces := l.nextNonces.insert tx.sender (tx.nonce + 1) } := by
  simp only [runTransaction, check_bind_eq_ok] at h
  obtain ⟨-, -, -, -, -, h⟩ := h
  simp only [bind_eq_ok, okOr_eq_ok, checkedAdd_eq_some, reject_eq_ok, pure_eq_ok, not_lt] at h
  obtain ⟨total, ⟨rfl, -⟩, -, hcovered, acted, hacted, balances, hfee, rfl⟩ := h
  exact ⟨hcovered, acted, balances, hacted, hfee, rfl⟩

/-- Below the cap a transaction with a good signature runs exactly if the ledger allows it. -/
theorem runTransaction_ok_iff {producer : Address} {blockTimestamp : ℕ} {l : Ledger}
    {tx : Transaction} (hcap : l.total ≤ ieumMaxSupply) :
    (∃ l', runTransaction producer blockTimestamp l tx = .ok l') ↔
      Allowed blockTimestamp l tx := by
  have hmax : ieumMaxSupply ≤ u128Max := by decide
  have htarget : (¬(¬tx.action.isTransfer = true ∧
        canonicalAddress tx.receiver ≠ RawTransaction.stakingSystemAddress) ∧
      ¬(tx.action.isTransfer = true ∧
        canonicalAddress tx.receiver = RawTransaction.stakingSystemAddress)) ↔
      (tx.action.isTransfer = true ↔
        canonicalAddress tx.receiver ≠ RawTransaction.stakingSystemAddress) := by
    by_cases htransfer : tx.action.isTransfer = true <;> simp [htransfer]
  have hamount : (¬(tx.action = .claimUnbonded ∧ tx.amount ≠ 0) ∧
      ¬(tx.amount = 0 ∧ tx.action ≠ .claimUnbonded)) ↔
        (tx.amount = 0 ↔ tx.action = .claimUnbonded) := by
    by_cases hclaim : tx.action = .claimUnbonded <;> simp [hclaim]
  simp only [runTransaction, bind_eq_ok, exists_const, reject_eq_ok, okOr_eq_ok,
    checkedAdd_eq_some, not_not, not_lt, ne_eq] at htarget hamount ⊢
  constructor
  · rintro ⟨_, hstaking, htransfer, hclaim, hzero, hnonce, _, ⟨rfl, -⟩, hcovered, acted, hacted, -⟩
    have hrule := hamount.1 ⟨hclaim, hzero⟩
    have htotal := Ledger.total_debit hcovered
    refine ⟨htarget.1 ⟨hstaking, htransfer⟩, hrule, hnonce, hcovered, ?_⟩
    exact (applyTransactionAction_ok_iff (l := l.debit tx.sender (debitAmount tx + tx.fee))
      (by omega) hrule).1 ⟨acted, hacted⟩
  · rintro ⟨hgoes, hrule, hnonce, hcovered, hpermits⟩
    have htotal := Ledger.total_debit hcovered
    have hbalance : l.balanceOf tx.sender ≤ l.total := by
      have hle := getD_le_total l.balances tx.sender
      simp only [Ledger.total, Ledger.balanceOf]
      omega
    obtain ⟨hstaking, htransfer⟩ := htarget.2 hgoes
    obtain ⟨hclaim, hzero⟩ := hamount.2 hrule
    obtain ⟨acted, hacted⟩ : ∃ acted, applyTransactionAction
        (l.debit tx.sender (debitAmount tx + tx.fee)) blockTimestamp tx = .ok acted :=
      (applyTransactionAction_ok_iff (by omega) hrule).2 hpermits
    have hacting := applyTransactionAction_total hacted
    have hparts : acted.total = total acted.balances + acted.staking.delegatedTotal +
      acted.staking.unbondingTotal := rfl
    obtain ⟨b, hb⟩ := distributeFee_ok
      (by omega : total acted.balances + tx.fee ≤ ieumMaxSupply) producer
    exact ⟨_, hstaking, htransfer, hclaim, hzero, hnonce, _, ⟨rfl, by omega⟩, hcovered, acted,
      hacted, b, hb, rfl⟩

theorem applyAction_ok_iff {l : Ledger} (htotal : l.total ≤ u128Max) (id : String)
    (action : ScheduledEventAction) :
    (∃ l', applyAction l id action = .ok l') ↔
      FoundationCovers l.balances (foundationPayments action) ∧
        ∀ evidence penaltyBps, action = .doubleVoteSlash evidence penaltyBps →
          (1 ≤ penaltyBps ∧ penaltyBps ≤ Staking.doubleVoteSlashBps) ∧
            id ∉ l.staking.appliedSlashes := by
  have hparts : l.total = total l.balances + l.staking.delegatedTotal + l.staking.unbondingTotal :=
    rfl
  cases action with
  | doubleVoteSlash evidence penaltyBps =>
      simp only [applyAction, bind_eq_ok, pure_eq_ok, ScheduledEventAction.doubleVoteSlash.injEq]
      constructor
      · rintro ⟨_, r, hr, -⟩
        refine ⟨trivial, ?_⟩
        rintro _ _ ⟨rfl, rfl⟩
        exact (StakingState.slash_ok_iff (by omega)).1 ⟨r, hr⟩
      · rintro ⟨-, hrule⟩
        obtain ⟨⟨staking, slashed⟩, hr⟩ :=
          (StakingState.slash_ok_iff (by omega)).2 (hrule evidence penaltyBps ⟨rfl, rfl⟩)
        have hmoved := StakingState.slash_total hr
        obtain ⟨b, hb⟩ := creditBalance_ok (by omega : total l.balances + slashed ≤ u128Max)
          foundationFeeAddress "재단 페널티 잔액이 u128 범위를 넘습니다."
        exact ⟨_, (staking, slashed), hr, b, hb, rfl⟩
  | _ =>
      rw [← payFromFoundation_ok_iff (by omega : total l.balances ≤ u128Max)]
      simp only [applyAction, bind_eq_ok, pure_eq_ok, reduceCtorEq, false_imp_iff, implies_true,
        and_true]
      constructor
      · rintro ⟨_, b, hb, -⟩
        exact ⟨b, hb⟩
      · rintro ⟨b, hb⟩
        exact ⟨_, b, hb, rfl⟩

section
variable [Crypto]

/-- What makes a transaction executable in a ledger of a chain. -/
structure Admissible (chainId blockTimestamp : ℕ) (l : Ledger) (tx : Transaction) : Prop where
  signed : checkTransactionSignature chainId tx = .ok ()
  allowed : Allowed blockTimestamp l tx

theorem applyTransaction_ok_iff {chainId blockTimestamp : ℕ} {producer : Address} {l : Ledger}
    {tx : Transaction} (hcap : l.total ≤ ieumMaxSupply) :
    (∃ l', applyTransaction chainId producer blockTimestamp l tx = .ok l') ↔
      Admissible chainId blockTimestamp l tx := by
  simp only [applyTransaction, check_bind_eq_ok]
  constructor
  · intro ⟨l', hsigned, hrun⟩
    exact ⟨hsigned, (runTransaction_ok_iff hcap).1 ⟨l', hrun⟩⟩
  · intro ⟨hsigned, hallowed⟩
    obtain ⟨l', hrun⟩ := (runTransaction_ok_iff hcap).2 hallowed
    exact ⟨l', hsigned, hrun⟩

theorem applyTransaction_total {chainId blockTimestamp : ℕ} {producer : Address} {l l' : Ledger}
    {tx : Transaction} (h : applyTransaction chainId producer blockTimestamp l tx = .ok l') :
    l'.total = l.total := by
  rw [applyTransaction, check_bind_eq_ok] at h
  exact runTransaction_total h.2

/-- Each transaction is admissible in the ledger that those before it have left. -/
def AllAdmissible (chainId blockTimestamp : ℕ) (producer : Address) (l : Ledger)
    (transactions : List Transaction) : Prop :=
  Along (applyTransaction chainId producer blockTimestamp) (Admissible chainId blockTimestamp) l
    transactions

theorem applyTransactions_ok_iff {chainId blockTimestamp : ℕ} {producer : Address} {l : Ledger}
    (hcap : l.total ≤ ieumMaxSupply) (transactions : List Transaction) :
    (∃ l', applyTransactions chainId transactions producer l blockTimestamp = .ok l') ↔
      AllAdmissible chainId blockTimestamp producer l transactions := by
  refine foldlM_ok_iff (I := fun x => x.total ≤ ieumMaxSupply) ?_ ?_ transactions hcap
  · intro x tx hx
    exact applyTransaction_ok_iff hx
  · intro x tx y hx hxy
    rw [applyTransaction_total hxy]
    exact hx

theorem applyTransactions_total {chainId blockTimestamp : ℕ} {producer : Address}
    {l l' : Ledger} {transactions : List Transaction}
    (h : applyTransactions chainId transactions producer l blockTimestamp = .ok l') :
    l'.total = l.total := by
  have hevents : applySystemEvents [] blockTimestamp l' = .ok l' := rfl
  exact executed_total h hevents

/-! ## Events -/

/-- What makes an event executable in a ledger. -/
structure Payable (blockTimestamp : ℕ) (l : Ledger) (e : ScheduledEvent) : Prop where
  valid : e.validate = .ok ()
  due : e.executeAt ≤ blockTimestamp
  fresh : e.id ∉ l.executedEvents
  covered : FoundationCovers l.balances (foundationPayments e.action)
  unslashed : ∀ evidence penaltyBps, e.action = .doubleVoteSlash evidence penaltyBps →
    (1 ≤ penaltyBps ∧ penaltyBps ≤ Staking.doubleVoteSlashBps) ∧ e.id ∉ l.staking.appliedSlashes

theorem applySystemEvent_ok_iff {blockTimestamp : ℕ} {l : Ledger} (htotal : l.total ≤ u128Max)
    (e : ScheduledEvent) :
    (∃ l', applySystemEvent blockTimestamp l e = .ok l') ↔ Payable blockTimestamp l e := by
  have haction := applyAction_ok_iff
    (l := { l with executedEvents := insert e.id l.executedEvents }) htotal e.id e.action
  simp only [applySystemEvent, check_bind_eq_ok, reject_eq_ok, not_lt]
  constructor
  · rintro ⟨l', hvalid, hdue, hfresh, hl'⟩
    obtain ⟨hcovered, hslash⟩ := haction.1 ⟨l', hl'⟩
    exact ⟨hvalid, hdue, hfresh, hcovered, hslash⟩
  · rintro ⟨hvalid, hdue, hfresh, hcovered, hslash⟩
    obtain ⟨l', hl'⟩ := haction.2 ⟨hcovered, hslash⟩
    exact ⟨l', hvalid, hdue, hfresh, hl'⟩

/-- Each event is payable in the ledger that those before it have left. -/
def AllPayable (blockTimestamp : ℕ) (l : Ledger) (events : List ScheduledEvent) : Prop :=
  Along (applySystemEvent blockTimestamp) (Payable blockTimestamp) l events

theorem applySystemEvents_ok_iff {blockTimestamp : ℕ} {l : Ledger} (htotal : l.total ≤ u128Max)
    (events : List ScheduledEvent) :
    (∃ l', applySystemEvents events blockTimestamp l = .ok l') ↔
      AllPayable blockTimestamp l events := by
  refine foldlM_ok_iff (I := fun x => x.total ≤ u128Max) ?_ ?_ events htotal
  · intro x e hx
    exact applySystemEvent_ok_iff hx e
  · intro x e y hx hxy
    rw [applySystemEvent_total hxy]
    exact hx

/-! ## Blocks -/

namespace Blockchain

/-- The contents of the block can be executed on the chain. -/
structure Executable (c : Blockchain) (block : Block) : Prop where
  capped : c.total ≤ ieumMaxSupply
  transactions : AllAdmissible c.chainId block.timestamp block.producer c.toLedger
    block.transactions
  events : ∀ l, applyTransactions c.chainId block.transactions block.producer c.toLedger
    block.timestamp = .ok l → AllPayable block.timestamp l block.systemEvents

theorem execute_ok_iff {c : Blockchain} {block : Block} :
    (∃ l, c.execute block = .ok l) ↔ c.Executable block := by
  have hmax : ieumMaxSupply ≤ u128Max := by decide
  constructor
  · intro ⟨l, hl⟩
    obtain ⟨l₁, htransactions, hevents, hcap⟩ := execute_eq_ok.1 hl
    have hcapped : c.total ≤ ieumMaxSupply := by
      rw [← execute_total hl]
      exact validateSupplyCap_eq_ok.1 hcap
    have htotal := applyTransactions_total htransactions
    refine ⟨hcapped, (applyTransactions_ok_iff hcapped _).1 ⟨l₁, htransactions⟩, ?_⟩
    intro l₂ hl₂
    cases htransactions.symm.trans hl₂
    exact (applySystemEvents_ok_iff (by omega) _).1 ⟨l, hevents⟩
  · intro ⟨hcapped, htransactions, hevents⟩
    obtain ⟨l₁, hl₁⟩ := (applyTransactions_ok_iff hcapped _).2 htransactions
    have htotal := applyTransactions_total hl₁
    obtain ⟨l, hl⟩ := (applySystemEvents_ok_iff (by omega) _).2 (hevents l₁ hl₁)
    exact ⟨l, (execute_eq_ok_of_total_le hcapped).2 ⟨l₁, hl₁, hl⟩⟩

/-- The next block, correctly hashed, is accepted exactly if its contents can be executed. -/
theorem applyBlock_ok_iff {c : Blockchain} {block : Block}
    (hheight : block.height = c.tipHeight + 1) (hprevious : block.previousHash = c.tipHash)
    (hhash : block.hash = block.calculateHash) :
    (∃ c', c.applyBlock block = .ok c') ↔ c.Executable block := by
  rw [← execute_ok_iff]
  constructor
  · intro ⟨c', hc'⟩
    obtain ⟨-, -, -, l, hl, -⟩ := applyBlock_eq_ok.1 hc'
    exact ⟨l, hl⟩
  · intro ⟨l, hl⟩
    exact ⟨_, applyBlock_eq_ok.2 ⟨hheight, hprevious, hhash, l, hl, rfl⟩⟩

end Blockchain

end

end IeumChain
