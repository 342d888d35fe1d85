import IeumChain.PoolIndexes
import IeumChain.Solvency

/-!
# The proposer's block

A proposer takes the transactions with the highest fees, in the order of their fees, and puts them
into the next block without looking at the ledger again. Whatever requests the pool has seen, the
block is accepted exactly if each of the first thousand transactions is good in its place: a raw one
is genuine, and the ledger sustains it after those that are taken before it. Other signatures were
checked on the way into the pool.
-/
namespace IeumChain

open Text Outcome MachineWords FiniteMap

section
variable [Crypto]

namespace RpcState

/-- The block of the proposer, without system events. -/
def assembleBlock (s : RpcState) (timestamp : ℕ) (producer : Address) : Block :=
  (Block.new (s.chain.tipHeight + 1) s.chain.tipHash timestamp producer
    (s.drainTransactions 1000).2).withSystemEvents []

/-- A pending transaction that is not marked as raw passes the signature check of the ledger. -/
def NativelySigned (s : RpcState) : Prop :=
  ∀ tx ∈ s.pool.transactions, startsWith tx.signature ethrawMarker = false →
    checkTransactionSignature s.chain.chainId tx = .ok ()

theorem NativelySigned.serve {s : RpcState} (h : s.NativelySigned)
    (hid : s.chainId = s.chain.chainId) (r : Request) : (s.serve r).NativelySigned := by
  obtain ⟨-, hchainId, hmem⟩ := serve_spec hid r
  intro tx htx hnative
  rw [hchainId]
  rcases hmem tx htx with hold | ⟨-, hverify⟩ | hchecked
  · exact h tx hold hnative
  · refine checkTransactionSignature_of_verify hverify fun hraw => ?_
    cases hnative.symm.trans hraw
  · exact hchecked

/-- Every request checks the native signatures that it brings into the pool. -/
theorem Started.nativelySigned {s : RpcState} (h : s.Started) (requests : List Request) :
    (requests.foldl serve s).NativelySigned := by
  have hrun : (requests.foldl serve s).NativelySigned ∧
      (requests.foldl serve s).chainId = (requests.foldl serve s).chain.chainId := by
    induction requests using List.reverseRecOn with
    | nil =>
        refine ⟨fun tx htx => ?_, h.chainId⟩
        rw [List.foldl_nil, h.pool] at htx
        cases htx
    | append_singleton requests r ih =>
        rw [List.foldl_append, List.foldl_cons, List.foldl_nil]
        obtain ⟨hchainId, hchain, -⟩ := serve_spec ih.2 r
        exact ⟨ih.1.serve ih.2 r, by rw [hchainId, hchain, ih.2]⟩
  exact hrun.1

/-- Any block of the next height, correctly hashed and without events. -/
theorem applyBlock_assembleBlock_iff (s : RpcState) (timestamp : ℕ) (producer : Address) :
    (∃ c', s.chain.applyBlock (s.assembleBlock timestamp producer) = .ok c') ↔
      s.chain.total ≤ ieumMaxSupply ∧ ∀ ahead tx, ahead ++ [tx] <+: (s.drainTransactions 1000).2 →
        checkTransactionSignature s.chain.chainId tx = .ok () ∧
          Sustained timestamp producer s.chain.toLedger ahead tx := by
  have haccepted : (∃ c', s.chain.applyBlock (s.assembleBlock timestamp producer) = .ok c') ↔
      s.chain.Executable (s.assembleBlock timestamp producer) :=
    Blockchain.applyBlock_ok_iff rfl rfl (Block.withSystemEvents_hash _ _)
  rw [haccepted, Blockchain.executable_iff_sustains]
  constructor
  · intro h
    exact ⟨h.capped, h.transactions⟩
  · intro ⟨hcapped, htransactions⟩
    exact ⟨hcapped, htransactions, forall_prefix_nil⟩

/-- What is taken first is the beginning of the pool in the order in which it is taken. -/
theorem prefix_drainTransactions_iff {s : RpcState} {ahead : List Transaction} {tx : Transaction} :
    ahead ++ [tx] <+: (s.drainTransactions 1000).2 ↔
      ahead ++ [tx] <+: s.pool.transactions.insertionSort Mempool.takenBefore ∧
        ahead.length < 1000 := by
  rw [drainTransactions, (Mempool.drain_spec s.pool 1000).1, List.prefix_take_iff,
    List.length_append, List.length_singleton]
  exact Iff.rfl

/-- Whatever requests the pool has seen, the proposer's block is accepted exactly if the supply is
within the cap and each of the first thousand transactions, by higher fee, then lower nonce, then
earlier arrival, is genuine if it is marked as raw, and sustained after those before it. -/
theorem assembleBlock_accepted_iff {s₀ s : RpcState} (h : s₀.Started) {requests : List Request}
    (hs : requests.foldl serve s₀ = s) (timestamp : ℕ) (producer : Address) :
    (∃ c', s.chain.applyBlock (s.assembleBlock timestamp producer) = .ok c') ↔
      s.chain.total ≤ ieumMaxSupply ∧
        ∀ ahead tx, ahead ++ [tx] <+: s.pool.transactions.insertionSort Mempool.takenBefore →
          ahead.length < 1000 →
            (startsWith tx.signature ethrawMarker = true →
              RawTransaction.verifyEmbedded tx s.chain.chainId = .ok ()) ∧
            Sustained timestamp producer s.chain.toLedger ahead tx := by
  have hnative : s.NativelySigned := hs ▸ h.nativelySigned requests
  have hsigned : ∀ tx ∈ s.pool.transactions,
      checkTransactionSignature s.chain.chainId tx = .ok () ↔
        (startsWith tx.signature ethrawMarker = true →
          RawTransaction.verifyEmbedded tx s.chain.chainId = .ok ()) := by
    intro tx htx
    cases hmarked : startsWith tx.signature ethrawMarker with
    | true => simp [checkTransactionSignature, hmarked]
    | false => simp [hnative tx htx hmarked]
  rw [applyBlock_assembleBlock_iff]
  refine and_congr_right fun _ => forall_congr' fun ahead => forall_congr' fun tx => ?_
  rw [prefix_drainTransactions_iff, and_imp]
  refine imp_congr_right fun hprefix => imp_congr_right fun _ => ?_
  have htx : tx ∈ s.pool.transactions.insertionSort Mempool.takenBefore :=
    hprefix.subset (List.mem_append_right _ (List.mem_singleton_self tx))
  rw [hsigned tx ((List.mem_insertionSort _).1 htx)]

end RpcState

end

/-! Two transfers of one sender; the later one pays more, or less. -/

namespace Sample

local instance assemblyCrypto : Crypto := StandIn.crypto StandIn.digest

def second (fee : ℕ) : Transaction :=
  StandIn.signed 1
    { sender := StandIn.address 1, receiver := StandIn.address 1, amount := 5, fee, nonce := 1
      action := .transfer, signature := "" }

def later : Transaction := second 10

/-- The pool after two requests. -/
theorem served_twice {fee : ℕ} (hfee : (decimal fee).toList.length ≤ 10)
    (hid : (second fee).id ≠ transfer.id) :
    ∃ pool, [.sendSignedTransaction transfer, .sendSignedTransaction (second fee)].foldl
        RpcState.serve rpc = { rpc with pool } ∧ pool.transactions = [transfer, second fee] := by
  have hsize : transfer.size ≤ 8000 := size_signed_le 1 7 0 (by decide) (by decide)
  have hsize' : (second fee).size ≤ 8000 := size_signed_le 1 fee 1 hfee (by decide)
  have hkey : (second fee).key ≠ transfer.key := fun h => one_ne_zero (congrArg Prod.snd h)
  obtain ⟨waiting, pool, hwaiting, hpool, htransactions⟩ :=
    Mempool.add_two hid hkey (by decide : 1 < 10000) (by decide : 16 * 1024 * 1024 ≤ u64Max)
      ((two_fit hsize hsize').trans (by decide))
  have hfirst := serve_of_add (s := rpc) verify_transfer rfl hwaiting
  have hsecond : ({ rpc with pool := waiting } : RpcState).serve
      (.sendSignedTransaction (second fee)) = { rpc with pool } :=
    serve_of_add (verify_signed rfl) rfl hpool
  refine ⟨pool, ?_, htransactions⟩
  rw [List.foldl_cons, List.foldl_cons, hfirst, hsecond]
  rfl

/-- The block is refused: the fees have turned the nonces around. -/
theorem later_taken_first :
    ∃ s, [.sendSignedTransaction transfer, .sendSignedTransaction later].foldl RpcState.serve rpc =
        s ∧ rpc.Started ∧ s.pool.transactions = [transfer, later] ∧
      ∀ c', s.chain.applyBlock (s.assembleBlock 20 (StandIn.address 2)) ≠ .ok c' := by
  obtain ⟨pool, hserved, htransactions⟩ :=
    served_twice (by decide : (decimal 10).toList.length ≤ 10) (by decide +kernel)
  refine ⟨{ rpc with pool }, hserved, started_rpc, htransactions, ?_⟩
  intro c' hc'
  have hsustained := ((RpcState.applyBlock_assembleBlock_iff _ _ _).1 ⟨c', hc'⟩).2
  have hdrained : (({ rpc with pool } : RpcState).drainTransactions 1000).2 = [later, transfer] := by
    rw [RpcState.drainTransactions, (Mempool.drain_spec pool 1000).1, htransactions]
    rfl
  rw [hdrained] at hsustained
  have hnonce : later.nonce = chain.nextNonce later.sender := (hsustained [] later ⟨_, rfl⟩).2.nonce
  exact absurd hnonce (by decide)

/-- With the lower fee on the later one the block is accepted. -/
theorem assembleBlock_accepted_iff_second :
    ∃ s, [.sendSignedTransaction transfer, .sendSignedTransaction (second 6)].foldl
        RpcState.serve rpc = s ∧ s.pool.transactions = [transfer, second 6] ∧
      ∃ c', s.chain.applyBlock (s.assembleBlock 20 (StandIn.address 2)) = .ok c' := by
  obtain ⟨pool, hserved, htransactions⟩ :=
    served_twice (by decide : (decimal 6).toList.length ≤ 10) (by decide +kernel)
  refine ⟨{ rpc with pool }, hserved, htransactions, ?_⟩
  have hcapped : chain.total ≤ ieumMaxSupply := by decide
  refine (RpcState.assembleBlock_accepted_iff started_rpc hserved 20 _).2 ⟨hcapped, ?_⟩
  have hsorted : pool.transactions.insertionSort Mempool.takenBefore = [transfer, second 6] := by
    rw [htransactions]
    rfl
  have hnative : ∀ tx, startsWith (StandIn.signed 1 tx).signature ethrawMarker = true →
      RawTransaction.verifyEmbedded (StandIn.signed 1 tx) chain.chainId = .ok () := by
    intro tx hmarked
    cases (StandIn.startsWith_sign ..).symm.trans hmarked
  have hfirst : Sustained 20 (StandIn.address 2) chain.toLedger [] transfer :=
    sustained_transfer rfl (by decide) (by decide) (by decide) (by decide)
  have hsecond : Sustained 20 (StandIn.address 2) chain.toLedger [transfer] (second 6) :=
    sustained_transfer rfl (by decide) (by decide) (by decide) (by decide)
  show ∀ ahead tx, ahead ++ [tx] <+: pool.transactions.insertionSort Mempool.takenBefore → _
  rw [hsorted]
  exact forall_prefix_cons.2 ⟨fun _ => ⟨hnative _, hfirst⟩,
    forall_prefix_cons.2 ⟨fun _ => ⟨hnative _, hsecond⟩, forall_prefix_nil⟩⟩

end Sample

end IeumChain
