import IeumChain.Chain
import IeumChain.StandIn

/-!
# Supply conservation

No transaction and no system event creates or destroys anything: each one moves
amounts between balances, delegations and unbonding entries. Fees are split without
a remainder being lost, and a penalty ends up in the foundation account.
-/
namespace IeumChain

open Outcome MachineWords FiniteMap

theorem creditBalance_total {b b' : HashMap Address ℕ} {address : Address} {amount : ℕ}
    {message : String} (h : creditBalance b address amount message = .ok b') :
    total b' = total b + amount := by
  unfold creditBalance at h
  split_ifs at h with h0
  · cases h
    omega
  · simp only [bind_eq_ok, okOr_eq_ok, checkedAdd_eq_some, pure_eq_ok] at h
    obtain ⟨credited, ⟨hsum, -⟩, rfl⟩ := h
    have := total_insert b address credited
    omega

/-- A debit that the account covers lowers the total by its amount. -/
theorem creditBalance_getD {b b' : HashMap Address ℕ} {address : Address} {amount : ℕ}
    {message : String} (h : creditBalance b address amount message = .ok b') (a : Address) :
    getD b' a 0 = getD b a 0 + if address = a then amount else 0 := by
  unfold creditBalance at h
  split_ifs at h with hzero
  · cases h
    rw [hzero, ite_self, Nat.add_zero]
  · simp only [bind_eq_ok, okOr_eq_ok, checkedAdd_eq_some, pure_eq_ok] at h
    obtain ⟨credited, ⟨rfl, -⟩, rfl⟩ := h
    split_ifs with haddress
    · rw [haddress, getD_insert_self]
    · rw [getD_insert_ne _ (Ne.symm haddress), Nat.add_zero]

theorem total_debit {b : HashMap Address ℕ} {address : Address} {amount : ℕ}
    (h : amount ≤ getD b address 0) :
    total (b.insert address (getD b address 0 - amount)) + amount = total b := by
  have := total_insert b address (getD b address 0 - amount)
  omega

theorem transferFromFoundation_total {b b' : HashMap Address ℕ} {receiver : Address} {amount : ℕ}
    (h : transferFromFoundation b receiver amount = .ok b') : total b' = total b := by
  simp only [transferFromFoundation, check_bind_eq_ok, reject_eq_ok, not_lt] at h
  obtain ⟨hcovered, hcredit⟩ := h
  have := creditBalance_total hcredit
  have := total_debit hcovered
  omega

theorem payFromFoundation_total {b b' : HashMap Address ℕ} {payments : List EventPayment}
    (h : payFromFoundation b payments = .ok b') : total b' = total b := by
  refine foldlM_invariant (P := fun x => total x = total b) ?_ rfl h
  intro x p y _ hx hxy
  rw [transferFromFoundation_total hxy, hx]

theorem distributeFee_total {b b' : HashMap Address ℕ} {producer : Address} {fee : ℕ}
    (h : distributeFee b producer fee = .ok b') : total b' = total b + fee := by
  simp only [distributeFee, bind_eq_ok, okOr_eq_ok, checkedMul_eq_some] at h
  obtain ⟨scaled, ⟨hscaled, -⟩, b₁, hproducer, hfoundation⟩ := h
  have hshare : scaled / feeBpsDenominator ≤ fee := by
    rw [← hscaled]
    exact Nat.div_le_of_le_mul (by simp only [foundationFeeBps, feeBpsDenominator]; omega)
  have := creditBalance_total hproducer
  have := creditBalance_total hfoundation
  omega

theorem applyTransactionAction_total {l l' : Ledger} {blockTimestamp : ℕ} {tx : Transaction}
    (h : applyTransactionAction l blockTimestamp tx = .ok l') :
    l'.total = l.total + debitAmount tx := by
  unfold applyTransactionAction at h
  unfold debitAmount
  split at h
  case h_1 haction =>
    simp only [bind_eq_ok, pure_eq_ok] at h
    obtain ⟨b, hcredit, rfl⟩ := h
    have := creditBalance_total hcredit
    simp only [Ledger.total]
    omega
  case h_2 validator haction =>
    simp only [bind_eq_ok, pure_eq_ok] at h
    obtain ⟨staking, hdelegate, rfl⟩ := h
    have := StakingState.delegateAt_total hdelegate
    simp only [Ledger.total]
    omega
  case h_3 validator haction =>
    simp only [bind_eq_ok, pure_eq_ok, Prod.exists] at h
    obtain ⟨staking, releaseAt, hundelegate, rfl⟩ := h
    have := StakingState.undelegate_total hundelegate
    simp only [Ledger.total]
    omega
  case h_4 haction =>
    simp only [bind_eq_ok, pure_eq_ok, Prod.exists] at h
    obtain ⟨staking, claimed, hclaim, b, hcredit, rfl⟩ := h
    have := StakingState.claim_total hclaim
    have := creditBalance_total hcredit
    simp only [Ledger.total]
    omega

theorem applyAction_total {l l' : Ledger} {id : String} {action : ScheduledEventAction}
    (h : applyAction l id action = .ok l') : l'.total = l.total := by
  have hpaid : ∀ b, payFromFoundation l.balances (foundationPayments action) = .ok b →
      ({ l with balances := b } : Ledger).total = l.total := by
    intro b hb
    simp only [Ledger.total, payFromFoundation_total hb]
  cases action with
  | doubleVoteSlash evidence penaltyBps =>
      simp only [applyAction, bind_eq_ok, pure_eq_ok, Prod.exists] at h
      obtain ⟨staking, slashed, hslash, b, hcredit, rfl⟩ := h
      have := StakingState.slash_total hslash
      have := creditBalance_total hcredit
      simp only [Ledger.total]
      omega
  | _ =>
      simp only [applyAction, bind_eq_ok, pure_eq_ok] at h
      obtain ⟨b, hb, rfl⟩ := h
      exact hpaid b hb

theorem runTransaction_total {blockTimestamp : ℕ} {producer : Address} {l l' : Ledger}
    {tx : Transaction} (h : runTransaction producer blockTimestamp l tx = .ok l') :
    l'.total = l.total := by
  simp only [runTransaction, check_bind_eq_ok] at h
  obtain ⟨-, -, -, -, -, h⟩ := h
  simp only [bind_eq_ok, okOr_eq_ok, checkedAdd_eq_some, reject_eq_ok, pure_eq_ok, not_lt] at h
  obtain ⟨total, ⟨htotal, -⟩, -, hcovered, acted, hacted, b, hfee, rfl⟩ := h
  have hdebit := total_debit hcovered
  have haction := applyTransactionAction_total hacted
  have hsplit := distributeFee_total hfee
  simp only [Ledger.total, Ledger.balanceOf] at hdebit haction ⊢
  omega

section
variable [Crypto]

theorem applySystemEvent_total {blockTimestamp : ℕ} {l l' : Ledger} {e : ScheduledEvent}
    (h : applySystemEvent blockTimestamp l e = .ok l') : l'.total = l.total := by
  simp only [applySystemEvent, check_bind_eq_ok] at h
  have hmarked := applyAction_total h.2.2.2
  simpa only [Ledger.total] using hmarked

/-- Executing transactions and then events keeps the total. -/
theorem executed_total {chainId timestamp : ℕ} {producer : Address} {l l₁ l₂ : Ledger}
    {transactions : List Transaction} {events : List ScheduledEvent}
    (htransactions : applyTransactions chainId transactions producer l timestamp = .ok l₁)
    (hevents : applySystemEvents events timestamp l₁ = .ok l₂) : l₂.total = l.total := by
  have h₁ : l₁.total = l.total := by
    refine foldlM_invariant (P := fun x => x.total = l.total) ?_ rfl htransactions
    intro x tx y _ hx hxy
    rw [applyTransaction, check_bind_eq_ok] at hxy
    rw [runTransaction_total hxy.2, hx]
  refine foldlM_invariant (P := fun x => x.total = l.total) ?_ h₁ hevents
  intro x e y _ hx hxy
  rw [applySystemEvent_total hxy, hx]

theorem execute_total {c : Blockchain} {block : Block} {l : Ledger}
    (h : c.execute block = .ok l) : l.total = c.total := by
  obtain ⟨l₁, htransactions, hevents, -⟩ := Blockchain.execute_eq_ok.1 h
  exact executed_total htransactions hevents

/-- A block that is accepted leaves the sum of balances, delegations and unbonding
entries exactly as it was. -/
theorem applyBlock_total {c c' : Blockchain} {block : Block}
    (h : c.applyBlock block = .ok c') : c'.total = c.total := by
  obtain ⟨-, -, -, l, hl, rfl⟩ := Blockchain.applyBlock_eq_ok.1 h
  exact execute_total hl

end

/-- What the cap check accepts: no sum that it forms leaves the 128 bits below the cap. -/
theorem validateSupplyCap_eq_ok {l : Ledger} :
    validateSupplyCap l = .ok () ↔ l.total ≤ ieumMaxSupply := by
  have hmax : ieumMaxSupply ≤ u128Max := by decide
  have htotal : l.total = (values l.balances).sum + (l.staking.delegations.map (·.amount)).sum +
      (l.staking.unbonding.map (·.amount)).sum := rfl
  simp only [validateSupplyCap, bind_eq_ok, okOr_eq_ok, checkedSum_eq_some, reject_eq_ok,
    Option.bind_eq_some_iff, checkedAdd_eq_some, not_lt]
  constructor
  · rintro ⟨_, ⟨rfl, -⟩, _, ⟨rfl, -⟩, _, ⟨rfl, -⟩, _, ⟨_, ⟨rfl, -⟩, rfl, -⟩, hcap⟩
    exact hcap
  · intro hcap
    exact ⟨_, ⟨rfl, by omega⟩, _, ⟨rfl, by omega⟩, _, ⟨rfl, by omega⟩, _,
      ⟨_, ⟨rfl, by omega⟩, rfl, by omega⟩, htotal ▸ hcap⟩

/-! A block with a transfer to oneself whose fee of 7 does not divide evenly, and an approved
payment to its producer. -/

namespace Sample

local instance conservationCrypto : Crypto := StandIn.crypto StandIn.digest

def transfer : Transaction :=
  StandIn.signed 1
    { sender := StandIn.address 1, receiver := StandIn.address 1, amount := 5, fee := 7, nonce := 0
      action := .transfer, signature := "" }

def reward : ScheduledEvent :=
  { id := "reward-1", executeAt := 10
    action := .periodicProducerReward "0x1111111111111111111111111111111111111111" 3 }

def chain : Blockchain :=
  Blockchain.withChainId 21005 [(StandIn.address 1, 100), (foundationFeeAddress, 50)]

def block : Block :=
  (Block.new 1 chain.tipHash 20 (StandIn.address 2) [transfer]).withSystemEvents [reward]

theorem execute_block : ∃ l, chain.execute block = .ok l := by
  have hsigned : checkTransactionSignature chain.chainId transfer = .ok () :=
    StandIn.checkTransactionSignature_signed _ _ _ _ rfl
  obtain ⟨l, h⟩ := isOk_iff.1 (by decide : Except.isOk (do
    let l ← runTransaction (StandIn.address 2) 20 chain.toLedger transfer
    let l ← applySystemEvents [reward] 20 l
    validateSupplyCap l
    pure l) = true)
  simp only [bind_eq_ok, pure_eq_ok] at h
  obtain ⟨l₁, hrun, l₂, hevents, u, hcap, rfl⟩ := h
  refine ⟨l₂, Blockchain.execute_eq_ok.2 ⟨l₁, ?_, hevents, hcap⟩⟩
  have htransactions : block.transactions = [transfer] := rfl
  rw [htransactions, applyTransactions, List.foldlM_cons, applyTransaction, hsigned, bind_eq_ok]
  exact ⟨l₁, check_bind_eq_ok.2 ⟨rfl, hrun⟩, rfl⟩

theorem applyBlock_total_block :
    ∃ c', chain.applyBlock block = .ok c' ∧ c'.total = chain.total := by
  obtain ⟨l, hl⟩ := execute_block
  have h := Blockchain.applyBlock_eq_ok.2
    ⟨rfl, rfl, Block.withSystemEvents_hash _ _, l, hl, rfl⟩
  exact ⟨_, h, applyBlock_total h⟩

end Sample

end IeumChain
