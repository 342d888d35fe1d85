import IeumChain.BlockValidation
import IeumChain.Conservation

/-!
# Pending transactions

The pool of transactions a node keeps for its next block, and the three ways into it: a
signed transaction, a raw Ethereum transaction, and gossip. One sender has at most one
transaction per nonce; a replacement pays at least a tenth more, and the cheapest
transactions make room when the pool is full.
-/
namespace IeumChain

open ByteCodec Text Outcome MachineWords FiniteMap

def TransactionAction.json : TransactionAction → Json
  | .transfer => jsonObject [("type", jsonString "transfer")]
  | .delegate validator =>
      jsonObject [("type", jsonString "delegate"), ("validator", jsonString validator)]
  | .undelegate validator =>
      jsonObject [("type", jsonString "undelegate"), ("validator", jsonString validator)]
  | .claimUnbonded => jsonObject [("type", jsonString "claim_unbonded")]

/-- The action is left out for a transfer. -/
def Transaction.json (tx : Transaction) : Json :=
  jsonObject <|
    [("from", jsonString tx.sender), ("to", jsonString tx.receiver),
      ("amount", jsonDecimal tx.amount), ("fee", jsonDecimal tx.fee),
      ("nonce", jsonNumber tx.nonce)] ++
    (if tx.action.isTransfer then [] else [("action", tx.action.json)]) ++
    [("signature", jsonString tx.signature)]

/-- Bytes of the serialized transaction, in UTF-8. -/
def Transaction.size (tx : Transaction) : ℕ := (tx.json.map Char.utf8Size).sum

structure Mempool where
  transactions : List Transaction
  ids : Finset String
  senderNonce : HashMap (String × ℕ) String
  totalBytes : ℕ
  maxTransactions : ℕ
  maxBytes : ℕ

namespace Mempool

def withLimits (maxTransactions maxBytes : ℕ) : Mempool :=
  { transactions := [], ids := ∅, senderNonce := ∅, totalBytes := 0
    maxTransactions := max maxTransactions 1, maxBytes := max maxBytes 1 }

def default : Mempool := withLimits 10000 (16 * 1024 * 1024)

/-- The first of the cheapest transactions. -/
def cheapestFrom : ℕ → Transaction → ℕ → List Transaction → ℕ
  | best, _, _, [] => best
  | best, bestTx, position, tx :: rest =>
      if tx.fee < bestTx.fee then cheapestFrom position tx (position + 1) rest
      else cheapestFrom best bestTx (position + 1) rest

def cheapest : List Transaction → Option ℕ
  | [] => none
  | tx :: rest => some (cheapestFrom 0 tx 1 rest)

/-- The order in which transactions are taken: higher fees first, then lower nonces. -/
def takenBefore (a b : Transaction) : Prop := b.fee < a.fee ∨ a.fee = b.fee ∧ a.nonce ≤ b.nonce

instance : DecidableRel takenBefore := fun a b =>
  inferInstanceAs (Decidable (b.fee < a.fee ∨ a.fee = b.fee ∧ a.nonce ≤ b.nonce))

section
variable [Crypto]

def removeAt (pool : Mempool) (position : ℕ) : Mempool :=
  match pool.transactions[position]? with
  | none => pool
  | some tx =>
      { pool with
        transactions := pool.transactions.eraseIdx position
        ids := pool.ids.erase tx.id
        senderNonce := pool.senderNonce.erase (tx.sender, tx.nonce)
        totalBytes := pool.totalBytes - tx.size }

/-- Removes cheap transactions until another one of the given size fits. Each turn removes one,
so as many turns as there are transactions suffice. -/
def makeRoom (size : ℕ) : ℕ → Mempool → Mempool
  | 0, pool => pool
  | turns + 1, pool =>
      if pool.maxTransactions ≤ pool.transactions.length ∨
          pool.maxBytes < saturatingAdd u64Max pool.totalBytes size then
        match cheapest pool.transactions with
        | none => pool
        | some position => makeRoom size turns (pool.removeAt position)
      else pool

/-- Takes out the transaction that a new one of the same sender and nonce replaces. -/
def replaced (pool : Mempool) (tx : Transaction) : Except String Mempool :=
  match pool.senderNonce.lookup (tx.sender, tx.nonce) with
  | none => .ok pool
  | some previousId => do
      let previous ← okOr (pool.transactions.find? (·.id = previousId))
        "mempool nonce 인덱스가 손상되었습니다."
      reject (tx.fee < saturatingAdd u128Max previous.fee (max (previous.fee / 10) 1))
        "같은 nonce 거래 교체에는 기존보다 최소 10% 높은 수수료가 필요합니다."
      pure
        { pool with
          transactions := pool.transactions.eraseP (·.id = previousId)
          ids := pool.ids.erase previousId
          totalBytes := pool.totalBytes - previous.size }

def add (pool : Mempool) (tx : Transaction) : Except String Mempool := do
  reject (tx.id ∈ pool.ids) "이미 mempool에 있는 거래입니다."
  reject (pool.maxBytes < tx.size) "거래 하나가 mempool 최대 바이트보다 큽니다."
  let pool ← pool.replaced tx
  let pool := makeRoom tx.size pool.transactions.length pool
  pure
    { pool with
      transactions := pool.transactions ++ [tx]
      ids := insert tx.id pool.ids
      senderNonce := pool.senderNonce.insert (tx.sender, tx.nonce) tx.id
      totalBytes := saturatingAdd u64Max pool.totalBytes tx.size }

/-- Adds a transaction and ignores a refusal. -/
def offer (pool : Mempool) (tx : Transaction) : Mempool :=
  match pool.add tx with
  | .ok pool => pool
  | .error _ => pool

def drainLoop : ℕ → Mempool → List Transaction → Mempool × List Transaction
  | 0, pool, selected => (pool, selected)
  | maxCount + 1, pool, selected =>
      match pool.transactions with
      | [] => (pool, selected)
      | tx :: _ => drainLoop maxCount (pool.removeAt 0) (selected ++ [tx])

def drain (pool : Mempool) (maxCount : ℕ) : Mempool × List Transaction :=
  drainLoop maxCount { pool with transactions := pool.transactions.insertionSort takenBefore } []

def retainValid (pool : Mempool) (valid : Transaction → Bool) : Mempool :=
  (pool.transactions.filter valid).foldl offer
    (withLimits pool.maxTransactions pool.maxBytes)

/-! ### What is in the pool -/

theorem mem_removeAt {pool : Mempool} {position : ℕ} {t : Transaction}
    (h : t ∈ (pool.removeAt position).transactions) : t ∈ pool.transactions := by
  unfold removeAt at h
  split at h
  · exact h
  · exact List.mem_of_mem_eraseIdx h

theorem mem_makeRoom {size turns : ℕ} {pool : Mempool} {t : Transaction}
    (h : t ∈ (makeRoom size turns pool).transactions) : t ∈ pool.transactions := by
  induction turns generalizing pool with
  | zero => exact h
  | succ turns ih =>
      unfold makeRoom at h
      split_ifs at h with hfull
      · split at h
        · exact h
        · exact mem_removeAt (ih h)
      · exact h

theorem mem_replaced {pool pool' : Mempool} {tx t : Transaction}
    (h : pool.replaced tx = .ok pool') (ht : t ∈ pool'.transactions) : t ∈ pool.transactions := by
  unfold replaced at h
  split at h
  · cases h
    exact ht
  · simp only [bind_eq_ok, exists_const, reject_eq_ok, pure_eq_ok] at h
    obtain ⟨previous, -, -, rfl⟩ := h
    exact List.mem_of_mem_eraseP ht

theorem mem_add {pool pool' : Mempool} {tx t : Transaction} (h : pool.add tx = .ok pool')
    (ht : t ∈ pool'.transactions) : t ∈ pool.transactions ∨ t = tx := by
  simp only [add, bind_eq_ok, exists_const, reject_eq_ok, pure_eq_ok] at h
  obtain ⟨-, -, room, hreplaced, rfl⟩ := h
  obtain hkept | hnew := List.mem_append.1 ht
  · exact .inl (mem_replaced hreplaced (mem_makeRoom hkept))
  · exact .inr (List.mem_singleton.1 hnew)

theorem mem_offer {pool : Mempool} {tx t : Transaction} (h : t ∈ (pool.offer tx).transactions) :
    t ∈ pool.transactions ∨ t = tx := by
  unfold offer at h
  split at h
  · exact mem_add ‹_› h
  · exact .inl h

theorem mem_offerAll {pool : Mempool} {txs : List Transaction} {t : Transaction}
    (h : t ∈ (txs.foldl offer pool).transactions) : t ∈ pool.transactions ∨ t ∈ txs := by
  induction txs generalizing pool with
  | nil => exact .inl h
  | cons tx rest ih =>
      obtain hpool | hrest := ih h
      · obtain hold | hnew := mem_offer hpool
        · exact .inl hold
        · exact .inr (hnew ▸ List.mem_cons_self ..)
      · exact .inr (List.mem_cons_of_mem _ hrest)

theorem mem_retainValid {pool : Mempool} {valid : Transaction → Bool} {t : Transaction}
    (h : t ∈ (pool.retainValid valid).transactions) : t ∈ pool.transactions := by
  obtain hnone | hkept := mem_offerAll h
  · cases hnone
  · exact (List.mem_filter.1 hkept).1

theorem transactions_removeAt_zero {pool : Mempool} {tx : Transaction} {rest : List Transaction}
    (h : pool.transactions = tx :: rest) : (pool.removeAt 0).transactions = rest := by
  simp [removeAt, h]

/-- Draining takes the transactions with the highest fees and leaves the others. -/
theorem drainLoop_spec (maxCount : ℕ) (pool : Mempool) (selected : List Transaction) :
    (drainLoop maxCount pool selected).2 = selected ++ pool.transactions.take maxCount ∧
      (drainLoop maxCount pool selected).1.transactions = pool.transactions.drop maxCount := by
  induction maxCount generalizing pool selected with
  | zero => simp [drainLoop]
  | succ maxCount ih =>
      unfold drainLoop
      cases hpool : pool.transactions with
      | nil => simp [hpool]
      | cons tx rest =>
          have hrest := transactions_removeAt_zero hpool
          obtain ⟨hselected, hleft⟩ := ih (pool.removeAt 0) (selected ++ [tx])
          simp only [hselected, hleft, hrest, List.take_succ_cons, List.drop_succ_cons,
            List.append_assoc, List.singleton_append, and_self]

theorem drain_spec (pool : Mempool) (maxCount : ℕ) :
    (pool.drain maxCount).2 = (pool.transactions.insertionSort takenBefore).take maxCount ∧
      (pool.drain maxCount).1.transactions =
        (pool.transactions.insertionSort takenBefore).drop maxCount := by
  have h := drainLoop_spec maxCount
    { pool with transactions := pool.transactions.insertionSort takenBefore } []
  rw [List.nil_append] at h
  exact h

theorem mem_drain {pool : Mempool} {maxCount : ℕ} {t : Transaction}
    (h : t ∈ (pool.drain maxCount).1.transactions) : t ∈ pool.transactions := by
  rw [(drain_spec pool maxCount).2] at h
  exact (List.mem_insertionSort _).1 (List.mem_of_mem_drop h)

end

end Mempool

/-! ## The ways into the pool -/

/-- What the calls below read and change of the state behind the RPC interface. -/
structure RpcState where
  chain : Blockchain
  pool : Mempool
  chainId : ℕ
  validators : List Validator
  upgradeSchedule : UpgradeSchedule

namespace RpcState

/-- Both submissions check the version for the next height and the target of a delegation. -/
def checkAction (s : RpcState) (tx : Transaction) : Except (ℤ × String) Unit := do
  reject (tx.action.isTransfer = false ∧
      s.upgradeSchedule.versionAt (saturatingAdd u64Max s.chain.tipHeight 1) < 3)
    (-32000, "프로토콜 v3 활성화 높이 전에는 위임 거래를 제출할 수 없습니다.")
  match tx.action with
  | .delegate validator =>
      reject (validator ∉ s.validators.map (·.id))
        (-32000, "현재 활성 이음지기에게만 새 위임을 할 수 있습니다.")
  | _ => .ok ()

section
variable [Crypto]

def addToPool (s : RpcState) (tx : Transaction) : Except (ℤ × String) (RpcState × String) := do
  let pool ← (s.pool.add tx).mapError fun message => (-32000, message)
  pure ({ s with pool }, "0x" ++ tx.id)

/-- The request is taken as parsed. -/
def sendSignedTransaction (s : RpcState) (tx : Transaction) :
    Except (ℤ × String) (RpcState × String) := do
  (verifyTransaction tx).mapError fun message => (-32000, message)
  s.checkAction tx
  s.addToPool tx

def sendRawTransaction (s : RpcState) (raw : String) :
    Except (ℤ × String) (RpcState × String) := do
  let tx ← (RawTransaction.decodeLegacy raw s.chainId).mapError fun message => (-32000, message)
  s.checkAction tx
  s.addToPool tx

/-- The balance covers the amount and the fee. -/
def covers (c : Blockchain) (tx : Transaction) : Bool :=
  match checkedAdd u128Max (debitAmount tx) tx.fee with
  | none => false
  | some required => required ≤ c.balanceOf tx.sender

def transactionIsAdmissible (c : Blockchain) (tx : Transaction) : Bool :=
  c.nextNonce tx.sender ≤ tx.nonce ∧ (verifyTransaction tx).isOk ∧ covers c tx

def restoreTransactions (s : RpcState) (txs : List Transaction) : RpcState :=
  { s with pool := (txs.filter (transactionIsAdmissible s.chain)).foldl Mempool.offer s.pool }

def drainTransactions (s : RpcState) (limit : ℕ) : RpcState × List Transaction :=
  let (pool, drained) := s.pool.drain limit
  ({ s with pool }, drained)

/-- The finalized chain replaces the old one, and the pool keeps what still looks valid. -/
def installFinalized (s : RpcState) (chainAfter : Blockchain) : RpcState :=
  { s with
    chain := chainAfter
    pool := s.pool.retainValid fun tx =>
      chainAfter.nextNonce tx.sender ≤ tx.nonce ∧ covers chainAfter tx ∧
        (verifyTransaction tx).isOk }

/-! ## Sequences of requests -/

/-- What happens to the pool, in any order. A block is installed once it is finalized. -/
inductive Request
  | sendSignedTransaction (tx : Transaction)
  | sendRawTransaction (raw : String)
  | restoreTransactions (txs : List Transaction)
  | drainTransactions (limit : ℕ)
  | installFinalized (block : Block)

/-- The state after a request; a refused request changes nothing. -/
def serve (s : RpcState) : Request → RpcState
  | .sendSignedTransaction tx =>
      match s.sendSignedTransaction tx with
      | .ok (s', _) => s'
      | .error _ => s
  | .sendRawTransaction raw =>
      match s.sendRawTransaction raw with
      | .ok (s', _) => s'
      | .error _ => s
  | .restoreTransactions txs => s.restoreTransactions txs
  | .drainTransactions limit => (s.drainTransactions limit).1
  | .installFinalized block =>
      match s.chain.applyBlock block with
      | .ok chainAfter => s.installFinalized chainAfter
      | .error _ => s

/-- An empty pool on a chain with the configured identifier. -/
structure Started (s : RpcState) : Prop where
  pool : s.pool = Mempool.default
  chainId : s.chainId = s.chain.chainId

/-- Every pending transaction passes the signature check of the ledger. -/
def Authenticated (s : RpcState) : Prop :=
  ∀ tx ∈ s.pool.transactions, checkTransactionSignature s.chain.chainId tx = .ok ()

/-- The transactions that come in as such, without their raw form being decoded. -/
def Request.offered : Request → List Transaction
  | .sendSignedTransaction tx => [tx]
  | .restoreTransactions txs => txs
  | _ => []

/-- Transactions that are marked as raw are raw transactions of the chain. -/
def Request.Genuine (chainId : ℕ) (r : Request) : Prop :=
  ∀ tx ∈ r.offered, startsWith tx.signature ethrawMarker = true →
    RawTransaction.verifyEmbedded tx chainId = .ok ()

theorem checkTransactionSignature_of_verify {chainId : ℕ} {tx : Transaction}
    (hverify : verifyTransaction tx = .ok ())
    (hraw : startsWith tx.signature ethrawMarker = true →
      RawTransaction.verifyEmbedded tx chainId = .ok ()) :
    checkTransactionSignature chainId tx = .ok () := by
  unfold checkTransactionSignature
  split_ifs with hmarked
  · exact hraw hmarked
  · exact hverify

theorem addToPool_spec {s s' : RpcState} {tx : Transaction} {id : String}
    (h : s.addToPool tx = .ok (s', id)) :
    s'.chain = s.chain ∧ s'.chainId = s.chainId ∧
      ∀ t ∈ s'.pool.transactions, t ∈ s.pool.transactions ∨ t = tx := by
  simp only [addToPool, bind_eq_ok, mapError_eq_ok, pure_eq_ok, Prod.mk.injEq] at h
  obtain ⟨pool, hpool, rfl, -⟩ := h
  exact ⟨rfl, rfl, fun t ht => Mempool.mem_add hpool ht⟩

/-- What a request can bring into the pool, and what it leaves alone. -/
theorem serve_spec {s : RpcState} (hid : s.chainId = s.chain.chainId) (r : Request) :
    (s.serve r).chainId = s.chainId ∧ (s.serve r).chain.chainId = s.chain.chainId ∧
      ∀ t ∈ (s.serve r).pool.transactions, t ∈ s.pool.transactions ∨
        t ∈ r.offered ∧ verifyTransaction t = .ok () ∨
        checkTransactionSignature s.chain.chainId t = .ok () := by
  have hsame : ∀ t ∈ s.pool.transactions, t ∈ s.pool.transactions ∨
      t ∈ r.offered ∧ verifyTransaction t = .ok () ∨
      checkTransactionSignature s.chain.chainId t = .ok () := fun t ht => .inl ht
  cases r with
  | sendSignedTransaction tx =>
      simp only [serve]
      split
      · rename_i s' id hsent
        simp only [sendSignedTransaction, check_bind_eq_ok, mapError_eq_ok] at hsent
        obtain ⟨hverify, -, hadded⟩ := hsent
        obtain ⟨hchain, hchainId, hmem⟩ := addToPool_spec hadded
        refine ⟨hchainId, by rw [hchain], ?_⟩
        intro t ht
        obtain hold | rfl := hmem t ht
        · exact .inl hold
        · exact .inr (.inl ⟨List.mem_singleton.2 rfl, hverify⟩)
      · exact ⟨rfl, rfl, hsame⟩
  | sendRawTransaction raw =>
      simp only [serve]
      split
      · rename_i s' id hsent
        simp only [sendRawTransaction, bind_eq_ok, mapError_eq_ok] at hsent
        obtain ⟨tx, hdecoded, -, -, hadded⟩ := hsent
        obtain ⟨hchain, hchainId, hmem⟩ := addToPool_spec hadded
        refine ⟨hchainId, by rw [hchain], ?_⟩
        intro t ht
        obtain hold | rfl := hmem t ht
        · exact .inl hold
        · rw [hid] at hdecoded
          obtain ⟨hmarked, hembedded⟩ := RawTransaction.verifyEmbedded_of_decodeLegacy hdecoded
          refine .inr (.inr ?_)
          rw [checkTransactionSignature, if_pos hmarked]
          exact hembedded
      · exact ⟨rfl, rfl, hsame⟩
  | restoreTransactions txs =>
      refine ⟨rfl, rfl, ?_⟩
      intro t ht
      obtain hold | hnew := Mempool.mem_offerAll ht
      · exact .inl hold
      · obtain ⟨hoffered, hadmissible⟩ := List.mem_filter.1 hnew
        simp only [transactionIsAdmissible, decide_eq_true_eq] at hadmissible
        obtain ⟨u, hverify⟩ := isOk_iff.1 hadmissible.2.1
        exact .inr (.inl ⟨hoffered, hverify⟩)
  | drainTransactions limit => exact ⟨rfl, rfl, fun t ht => .inl (Mempool.mem_drain ht)⟩
  | installFinalized block =>
      simp only [serve]
      split
      · rename_i chainAfter happly
        obtain ⟨-, -, -, l, -, rfl⟩ := Blockchain.applyBlock_eq_ok.1 happly
        exact ⟨rfl, rfl, fun t ht => .inl (Mempool.mem_retainValid ht)⟩
      · exact ⟨rfl, rfl, hsame⟩

theorem Authenticated.serve {s : RpcState} (h : s.Authenticated)
    (hid : s.chainId = s.chain.chainId) {r : Request} (hgenuine : r.Genuine s.chain.chainId) :
    (s.serve r).Authenticated := by
  obtain ⟨-, hchainId, hmem⟩ := serve_spec hid r
  intro t ht
  rw [hchainId]
  obtain hold | ⟨hoffered, hverify⟩ | hchecked := hmem t ht
  · exact h t hold
  · exact checkTransactionSignature_of_verify hverify (hgenuine t hoffered)
  · exact hchecked

/-- After any sequence of requests that offers no forged raw transaction, every pending
transaction passes the signature check of the ledger. -/
theorem authenticated_of_genuine {s : RpcState} (h : s.Started) (requests : List Request)
    (hgenuine : ∀ r ∈ requests, r.Genuine s.chain.chainId) :
    (requests.foldl serve s).Authenticated := by
  have hinitial : s.Authenticated := by
    intro t ht
    rw [h.pool] at ht
    cases ht
  have hid := h.chainId
  clear h
  induction requests generalizing s with
  | nil => exact hinitial
  | cons r rest ih =>
      obtain ⟨hchainId, hchain, -⟩ := serve_spec hid r
      have hr := hgenuine r (List.mem_cons_self ..)
      refine ih ?_ (hinitial.serve hid hr) (by rw [hchainId, hchain, hid])
      intro r' hr'
      rw [hchain]
      exact hgenuine r' (List.mem_cons_of_mem _ hr')

end

end RpcState

/-! A transfer waits, and a stranger sends another one in the name of the same sender. -/

namespace Sample

local instance poolCrypto : Crypto := StandIn.crypto StandIn.digest

def rpc : RpcState :=
  { chain, pool := Mempool.default, chainId := 21005, validators := []
    upgradeSchedule := { upgrades := [] } }

/-- Nobody has signed this. -/
def forged : Transaction := { transfer with fee := 8, signature := "ethraw:" }

theorem started_rpc : rpc.Started := ⟨rfl, rfl⟩

theorem serve_of_add {s : RpcState} {tx : Transaction} {pool : Mempool}
    (hverify : verifyTransaction tx = .ok ()) (htransfer : tx.action = .transfer)
    (hpool : s.pool.add tx = .ok pool) :
    s.serve (.sendSignedTransaction tx) = { s with pool } := by
  have hsent : s.sendSignedTransaction tx = .ok ({ s with pool }, "0x" ++ tx.id) := by
    have hadded : s.addToPool tx = .ok ({ s with pool }, "0x" ++ tx.id) := by
      simp only [RpcState.addToPool, bind_eq_ok, mapError_eq_ok]
      exact ⟨pool, hpool, rfl⟩
    have haction : s.checkAction tx = .ok () := by
      simp [RpcState.checkAction, htransfer, TransactionAction.isTransfer]
    simp only [RpcState.sendSignedTransaction, check_bind_eq_ok, mapError_eq_ok]
    exact ⟨hverify, haction, hadded⟩
  simp only [RpcState.serve, hsent]

theorem verify_signed {tx : Transaction} (h : tx.sender = StandIn.address 1) :
    verifyTransaction (StandIn.signed 1 tx) = .ok () := by
  have hsigned : checkTransactionSignature 21005 (StandIn.signed 1 tx) = .ok () :=
    StandIn.checkTransactionSignature_signed _ _ _ _ h
  have hnative : startsWith (StandIn.signed 1 tx).signature ethrawMarker = false :=
    StandIn.startsWith_sign ..
  rw [checkTransactionSignature, if_neg (by simp [hnative])] at hsigned
  exact hsigned

theorem verify_transfer : verifyTransaction transfer = .ok () := verify_signed rfl

theorem added_twice {a b : Transaction} {result : List Transaction}
    (h : ((Mempool.default.add a).bind (·.add b)).toOption.map (·.transactions) = some result) :
    ∃ waiting pool, Mempool.default.add a = .ok waiting ∧ waiting.add b = .ok pool ∧
      pool.transactions = result := by
  cases hfirst : Mempool.default.add a with
  | error e =>
      rw [hfirst] at h
      cases h
  | ok waiting =>
      rw [hfirst] at h
      cases hsecond : waiting.add b with
      | error e =>
          rw [Except.bind, hsecond] at h
          cases h
      | ok pool =>
          rw [Except.bind, hsecond] at h
          exact ⟨waiting, pool, rfl, hsecond, Option.some.inj h⟩

/-- The transfer has been replaced by a transaction that its sender has not signed. -/
theorem forged_replaces :
    rpc.Started ∧
      ([.sendSignedTransaction transfer, .sendSignedTransaction forged].foldl RpcState.serve
        rpc).pool.transactions = [forged] ∧
      forged.sender = transfer.sender ∧ forged.nonce = transfer.nonce ∧
      checkTransactionSignature rpc.chain.chainId forged ≠ .ok () := by
  -- The higher fee is all it takes.
  obtain ⟨waiting, pool, hwaiting, hpool, htransactions⟩ :
      ∃ waiting pool, Mempool.default.add transfer = .ok waiting ∧
        waiting.add forged = .ok pool ∧ pool.transactions = [forged] :=
    added_twice (by decide +kernel)
  have hfirst := serve_of_add (s := rpc) verify_transfer rfl hwaiting
  have hsecond : ({ rpc with pool := waiting } : RpcState).serve (.sendSignedTransaction forged) =
      { rpc with pool } := serve_of_add (by decide) rfl hpool
  refine ⟨started_rpc, ?_, rfl, rfl, by decide⟩
  rw [List.foldl_cons, List.foldl_cons, hfirst, hsecond]
  exact htransactions

theorem authenticated_of_genuine_transfer :
    ([.sendSignedTransaction transfer].foldl RpcState.serve rpc).Authenticated := by
  refine RpcState.authenticated_of_genuine started_rpc _ ?_
  intro r hr tx htx hraw
  obtain rfl : r = .sendSignedTransaction transfer := List.mem_singleton.1 hr
  obtain rfl : tx = transfer := List.mem_singleton.1 htx
  have hnative : startsWith transfer.signature ethrawMarker = false := StandIn.startsWith_sign ..
  rw [hnative] at hraw
  cases hraw

end Sample

end IeumChain
