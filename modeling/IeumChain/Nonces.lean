import IeumChain.Conservation
import IeumChain.Replay

/-!
# Nonces

A transaction carries the number of transactions that its sender has had executed so
far. So along a chain the nonces of a sender count up from zero, whatever blocks were
refused in between, and whoever has a counter also has a balance entry.
-/
namespace IeumChain

open Outcome MachineWords FiniteMap

/-- The transactions of one sender, in the order of execution. -/
def sentBy (address : Address) (transactions : List Transaction) : List Transaction :=
  transactions.filter (·.sender = address)

/-- The transactions of a list of blocks, in the order of execution. -/
def transactionsIn (blocks : List Block) : List Transaction := blocks.flatMap (·.transactions)

/-! ## Accounts -/

theorem creditBalance_keeps {b b' : HashMap Address ℕ} {address : Address} {amount : ℕ}
    {message : String} (h : creditBalance b address amount message = .ok b') {a : Address}
    (ha : a ∈ b) : a ∈ b' := by
  unfold creditBalance at h
  split_ifs at h
  · cases h
    exact ha
  · simp only [bind_eq_ok, pure_eq_ok] at h
    obtain ⟨credited, -, rfl⟩ := h
    exact AList.mem_insert _ |>.2 (.inr ha)

theorem payFromFoundation_keeps {b b' : HashMap Address ℕ} {payments : List EventPayment}
    (h : payFromFoundation b payments = .ok b') {a : Address} (ha : a ∈ b) : a ∈ b' := by
  refine foldlM_invariant (P := fun x => a ∈ x) ?_ ha h
  intro x p y _ hx hxy
  simp only [transferFromFoundation, check_bind_eq_ok] at hxy
  exact creditBalance_keeps hxy.2 (AList.mem_insert _ |>.2 (.inr hx))

theorem distributeFee_keeps {b b' : HashMap Address ℕ} {producer : Address} {fee : ℕ}
    (h : distributeFee b producer fee = .ok b') {a : Address} (ha : a ∈ b) : a ∈ b' := by
  simp only [distributeFee, bind_eq_ok] at h
  obtain ⟨scaled, -, b₁, hproducer, hfoundation⟩ := h
  exact creditBalance_keeps hfoundation (creditBalance_keeps hproducer ha)

theorem applyAction_keeps {l l' : Ledger} {id : String} {action : ScheduledEventAction}
    (h : applyAction l id action = .ok l') :
    l'.nextNonces = l.nextNonces ∧ ∀ a ∈ l.balances, a ∈ l'.balances := by
  cases action with
  | doubleVoteSlash evidence penaltyBps =>
      simp only [applyAction, bind_eq_ok, pure_eq_ok, Prod.exists] at h
      obtain ⟨staking, slashed, -, balances, hcredit, rfl⟩ := h
      exact ⟨rfl, fun a => creditBalance_keeps hcredit⟩
  | _ =>
      simp only [applyAction, bind_eq_ok, pure_eq_ok] at h
      obtain ⟨balances, hpaid, rfl⟩ := h
      exact ⟨rfl, fun a => payFromFoundation_keeps hpaid⟩

theorem applyTransactionAction_keeps {l l' : Ledger} {blockTimestamp : ℕ} {tx : Transaction}
    (h : applyTransactionAction l blockTimestamp tx = .ok l') {a : Address}
    (ha : a ∈ l.balances) : a ∈ l'.balances := by
  unfold applyTransactionAction at h
  split at h
  · simp only [bind_eq_ok, pure_eq_ok] at h
    obtain ⟨balances, hcredit, rfl⟩ := h
    exact creditBalance_keeps hcredit ha
  · simp only [bind_eq_ok, pure_eq_ok] at h
    obtain ⟨staking, -, rfl⟩ := h
    exact ha
  · simp only [bind_eq_ok, pure_eq_ok, Prod.exists] at h
    obtain ⟨staking, releaseAt, -, rfl⟩ := h
    exact ha
  · simp only [bind_eq_ok, pure_eq_ok, Prod.exists] at h
    obtain ⟨staking, claimed, -, balances, hcredit, rfl⟩ := h
    exact creditBalance_keeps hcredit ha

/-- A transaction takes the next nonce of its sender, and its sender is in the ledger after it. -/
theorem runTransaction_nonce {producer : Address} {blockTimestamp : ℕ} {l l' : Ledger}
    {tx : Transaction} (h : runTransaction producer blockTimestamp l tx = .ok l') :
    tx.nonce = l.nextNonce tx.sender ∧
      l'.nextNonces = l.nextNonces.insert tx.sender (tx.nonce + 1) ∧
      ∀ a, a = tx.sender ∨ a ∈ l.balances → a ∈ l'.balances := by
  simp only [runTransaction, check_bind_eq_ok, reject_eq_ok, not_not] at h
  obtain ⟨-, -, -, -, hnonce, h⟩ := h
  simp only [bind_eq_ok, pure_eq_ok] at h
  obtain ⟨total, -, -, -, acted, hacted, balances, hfee, rfl⟩ := h
  refine ⟨hnonce, rfl, fun a ha => distributeFee_keeps hfee ?_⟩
  exact applyTransactionAction_keeps hacted ((AList.mem_insert _).2 ha)

/-! ## Counters along a chain -/

/-- The counters of a ledger count the transactions of a history. -/
structure CountsNonces (history : List Transaction) (l : Ledger) : Prop where
  inOrder : ∀ a, (sentBy a history).map (·.nonce) = List.range (l.nextNonce a)
  account : ∀ a ∈ l.nextNonces, a ∈ l.balances

theorem CountsNonces.runTransaction {history : List Transaction} {producer : Address}
    {blockTimestamp : ℕ} {l l' : Ledger} {tx : Transaction} (h : CountsNonces history l)
    (hrun : runTransaction producer blockTimestamp l tx = .ok l') :
    CountsNonces (history ++ [tx]) l' := by
  obtain ⟨hnonce, hnext, haccounts⟩ := runTransaction_nonce hrun
  refine ⟨fun a => ?_, fun a ha => ?_⟩
  · rw [sentBy, List.filter_append, List.map_append, ← sentBy, h.inOrder, Ledger.nextNonce,
      Ledger.nextNonce, hnext]
    by_cases hsender : tx.sender = a
    · subst hsender
      rw [getD_insert_self, List.range_succ, hnonce, Ledger.nextNonce]
      simp [hnonce, Ledger.nextNonce]
    · rw [getD_insert_ne _ (Ne.symm hsender)]
      simp [hsender]
  · rw [hnext, AList.mem_insert] at ha
    exact haccounts a (ha.imp id (h.account a))

theorem CountsNonces.kept {history : List Transaction} {l l' : Ledger}
    (h : CountsNonces history l) (hnonces : l'.nextNonces = l.nextNonces)
    (haccounts : ∀ a ∈ l.balances, a ∈ l'.balances) : CountsNonces history l' := by
  refine ⟨fun a => ?_, fun a ha => ?_⟩
  · rw [h.inOrder, Ledger.nextNonce, Ledger.nextNonce, hnonces]
  · rw [hnonces] at ha
    exact haccounts a (h.account a ha)

section
variable [Crypto]

theorem CountsNonces.applyTransactions {history transactions : List Transaction} {chainId : ℕ}
    {producer : Address} {l l' : Ledger} {blockTimestamp : ℕ} (h : CountsNonces history l)
    (hrun : applyTransactions chainId transactions producer l blockTimestamp = .ok l') :
    CountsNonces (history ++ transactions) l' := by
  induction transactions generalizing history l with
  | nil =>
      simp only [IeumChain.applyTransactions, List.foldlM_nil, pure_eq_ok] at hrun
      subst hrun
      simpa using h
  | cons tx rest ih =>
      simp only [IeumChain.applyTransactions, List.foldlM_cons, bind_eq_ok] at hrun
      obtain ⟨l₁, htx, hrest⟩ := hrun
      rw [applyTransaction, check_bind_eq_ok] at htx
      have hnext := ih (h.runTransaction htx.2) hrest
      rwa [List.append_assoc, List.singleton_append] at hnext

theorem CountsNonces.applySystemEvents {history : List Transaction} {events : List ScheduledEvent}
    {l l' : Ledger} {blockTimestamp : ℕ} (h : CountsNonces history l)
    (hrun : applySystemEvents events blockTimestamp l = .ok l') : CountsNonces history l' := by
  refine foldlM_invariant (P := CountsNonces history) ?_ h hrun
  intro x e y _ hx hxy
  simp only [applySystemEvent, check_bind_eq_ok] at hxy
  obtain ⟨hnonces, haccounts⟩ := applyAction_keeps hxy.2.2.2
  exact hx.kept hnonces haccounts

theorem CountsNonces.applyBlock {c c' : Blockchain} {block : Block}
    (h : CountsNonces (transactionsIn c.blocks) c.toLedger) (hrun : c.applyBlock block = .ok c') :
    CountsNonces (transactionsIn c'.blocks) c'.toLedger := by
  obtain ⟨-, -, -, l, hl, rfl⟩ := Blockchain.applyBlock_eq_ok.1 hrun
  obtain ⟨l₁, htransactions, hevents, -⟩ := Blockchain.execute_eq_ok.1 hl
  have hblocks : transactionsIn (c.push l block).blocks =
      transactionsIn c.blocks ++ block.transactions := by
    simp [transactionsIn, Blockchain.push]
  rw [hblocks]
  exact (h.applyTransactions htransactions).applySystemEvents hevents

theorem countsNonces_genesis {g : Blockchain} (hg : g.IsGenesis) :
    CountsNonces (transactionsIn g.blocks) g.toLedger := by
  obtain ⟨timestamp, hblocks⟩ := hg.blocks
  have hnone : transactionsIn g.blocks = [] := by
    rw [hblocks]
    rfl
  rw [hnone]
  refine ⟨fun a => ?_, fun a ha => ?_⟩
  · rw [Ledger.nextNonce, hg.nextNonces]
    rfl
  · rw [hg.nextNonces] at ha
    exact absurd ha (AList.notMem_empty a)

/-- Refused blocks do not touch the counters. -/
theorem CountsNonces.offerAll {c : Blockchain}
    (h : CountsNonces (transactionsIn c.blocks) c.toLedger) (offered : List Block) :
    CountsNonces (transactionsIn (c.offerAll offered).blocks) (c.offerAll offered).toLedger := by
  induction offered generalizing c with
  | nil => exact h
  | cons block rest ih =>
      refine ih ?_
      unfold Blockchain.offer
      cases happly : c.applyBlock block with
      | error e => exact h
      | ok c' => exact h.applyBlock happly

/-- Whatever blocks are offered to a genesis chain, the transactions of a sender on the chain carry
the nonces 0, 1, 2, ... in the order of execution, the counter of the sender is their number, and
every sender with a counter has a balance entry. -/
theorem Blockchain.nonces_in_order_of_offered {g : Blockchain} (hg : g.IsGenesis)
    (offered : List Block) (a : Address) :
    (sentBy a (transactionsIn (g.offerAll offered).blocks)).map (·.nonce) =
        List.range ((g.offerAll offered).nextNonce a) ∧
      (sentBy a (transactionsIn (g.offerAll offered).blocks)).length =
        (g.offerAll offered).nextNonce a ∧
      (a ∈ (g.offerAll offered).nextNonces → a ∈ (g.offerAll offered).balances) := by
  have hcounts := (countsNonces_genesis hg).offerAll offered
  have hlength := congrArg List.length (hcounts.inOrder a)
  rw [List.length_map, List.length_range] at hlength
  exact ⟨hcounts.inOrder a, hlength, hcounts.account a⟩

end

namespace Sample

attribute [local instance] conservationCrypto

theorem nonces_in_order_of_offered_transfer :
    (chain.offerAll [block]).nextNonce (StandIn.address 1) = 1 := by
  obtain ⟨l, hl⟩ := execute_block
  have happly : chain.applyBlock block = .ok (chain.push l block) :=
    Blockchain.applyBlock_eq_ok.2 ⟨rfl, rfl, Block.withSystemEvents_hash _ _, l, hl, rfl⟩
  have hblocks : (chain.offerAll [block]).blocks = chain.blocks ++ [block] := by
    rw [Blockchain.offerAll_cons, Blockchain.offer_of_applyBlock happly, Blockchain.offerAll_nil]
    rfl
  have hsent : sentBy (StandIn.address 1) (transactionsIn (chain.offerAll [block]).blocks) =
      [transfer] := by
    rw [hblocks]
    rfl
  have hgenesis : chain.IsGenesis := Blockchain.isGenesis_withChainId _ _
  obtain ⟨-, hlength, -⟩ :=
    Blockchain.nonces_in_order_of_offered hgenesis [block] (StandIn.address 1)
  rw [hsent] at hlength
  exact hlength.symm

end Sample

end IeumChain
