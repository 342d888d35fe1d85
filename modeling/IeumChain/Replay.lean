import IeumChain.Conservation
import IeumChain.Genesis
import IeumChain.Snapshot

/-!
# Replay and restore

A node gets its ledger back in two ways: it replays all stored blocks from the genesis
balances, or it starts at a snapshot with an artificial block in place of the history.
Both lead to the ledger that applying the blocks one by one leads to.
-/
namespace IeumChain

open ByteCodec Text Outcome MachineWords FiniteMap

namespace Blockchain

section
variable [Crypto]

/-- The blocks after `previous`, whose position is `index - 1`. The supply cap is not checked
here. -/
def rebuildLoop (chainId : ℕ) : ℕ → Block → List Block → Ledger → Except String Ledger
  | _, _, [], l => .ok l
  | index, previous, block :: rest, l => do
      reject (block.hash ≠ block.calculateHash)
        (decimal index ++ "번 블록 해시가 변조되었습니다.")
      reject (block.height ≠ previous.height + 1 ∨ block.previousHash ≠ previous.hash)
        (decimal index ++ "번 블록 연결이 끊어졌습니다.")
      let l ← applyTransactions chainId block.transactions block.producer l block.timestamp
      let l ← applySystemEvents block.systemEvents block.timestamp l
      rebuildLoop chainId (index + 1) block rest l

/-- Recomputes the ledger from the initial balances. The stored ledger is not read. -/
def verifyAndRebuild (c : Blockchain) : Except String Blockchain := do
  let genesis := c.blocks.head c.blocks_ne_nil
  reject (genesis.height ≠ 0 ∨ genesis.previousHash ≠ String.ofList (List.replicate 64 '0') ∨
      genesis.producer ≠ "genesis" ∨ genesis.transactions ≠ [] ∨ genesis.systemEvents ≠ [])
    "제네시스 블록이 다릅니다."
  reject (genesis.hash ≠ genesis.calculateHash)
    (decimal 0 ++ "번 블록 해시가 변조되었습니다.")
  let l ← rebuildLoop c.chainId 1 genesis c.blocks.tail
    { balances := c.initialBalances, nextNonces := ∅, executedEvents := ∅
      staking := StakingState.empty }
  validateSupplyCap l
  pure { c with toLedger := l }

/-- Within the cap, the check of the cap adds nothing to the execution of a block. -/
theorem execute_eq_ok_of_total_le {c : Blockchain} (hcap : c.total ≤ ieumMaxSupply)
    {block : Block} {l : Ledger} :
    c.execute block = .ok l ↔
      ∃ l₁, applyTransactions c.chainId block.transactions block.producer c.toLedger
          block.timestamp = .ok l₁ ∧
        applySystemEvents block.systemEvents block.timestamp l₁ = .ok l := by
  rw [execute_eq_ok]
  constructor
  · intro ⟨l₁, htransactions, hevents, _⟩
    exact ⟨l₁, htransactions, hevents⟩
  · intro ⟨l₁, htransactions, hevents⟩
    have htotal := executed_total htransactions hevents
    refine ⟨l₁, htransactions, hevents, validateSupplyCap_eq_ok.2 ?_⟩
    omega

/-- The replay loop and the fold of `applyBlock` succeed together and end in one ledger. -/
theorem rebuildLoop_eq_ok {c : Blockchain} (hcap : c.total ≤ ieumMaxSupply) (index : ℕ)
    (blocks : List Block) {l : Ledger} :
    rebuildLoop c.chainId index c.tip blocks c.toLedger = .ok l ↔
      ∃ c', c.applyBlocks blocks = .ok c' ∧ c'.toLedger = l := by
  induction blocks generalizing c index with
  | nil =>
      simp only [rebuildLoop, applyBlocks, List.foldlM_nil, pure_eq_ok, exists_eq_left',
        Except.ok.injEq]
  | cons block rest ih =>
      have hstep : ∀ l₂, c.execute block = .ok l₂ →
          (rebuildLoop c.chainId (index + 1) block rest l₂ = .ok l ↔
            ∃ c', (c.push l₂ block).applyBlocks rest = .ok c' ∧ c'.toLedger = l) := by
        intro l₂ hl₂
        have htotal : (c.push l₂ block).total ≤ ieumMaxSupply := by
          rw [toLedger_push, execute_total hl₂]
          exact hcap
        have h := ih htotal (index + 1)
        rw [tip_push, toLedger_push] at h
        exact h
      rw [rebuildLoop, check_bind_eq_ok, check_bind_eq_ok, reject_eq_ok, reject_eq_ok]
      simp only [not_or, not_not, bind_eq_ok, applyBlocks_cons, applyBlock_eq_ok]
      constructor
      · rintro ⟨hhash, ⟨hheight, hprevious⟩, l₁, htransactions, l₂, hevents, hrest⟩
        have hexecute := (execute_eq_ok_of_total_le hcap).2 ⟨l₁, htransactions, hevents⟩
        obtain ⟨c', hc', hl⟩ := (hstep l₂ hexecute).1 hrest
        exact ⟨c', ⟨_, ⟨hheight, hprevious, hhash, l₂, hexecute, rfl⟩, hc'⟩, hl⟩
      · rintro ⟨c', ⟨c₁, ⟨hheight, hprevious, hhash, l₂, hexecute, hpush⟩, hc'⟩, hl⟩
        subst hpush
        obtain ⟨l₁, htransactions, hevents⟩ := (execute_eq_ok_of_total_le hcap).1 hexecute
        exact ⟨hhash, ⟨hheight, hprevious⟩, l₁, htransactions, l₂, hevents,
          (hstep l₂ hexecute).2 ⟨c', hc', hl⟩⟩

theorem applyBlocks_total {c c' : Blockchain} {blocks : List Block}
    (h : c.applyBlocks blocks = .ok c') : c'.total = c.total := by
  refine foldlM_invariant (P := fun x => x.total = c.total) ?_ rfl h
  intro x block y _ hx hxy
  rw [applyBlock_total hxy, hx]

/-- What is replayed from a genesis block and any blocks after it. -/
theorem verifyAndRebuild_eq_ok {g c : Blockchain} (hg : g.IsGenesis)
    (hcap : g.total ≤ ieumMaxSupply) (blocks : List Block) (hchainId : c.chainId = g.chainId)
    (hinitial : c.initialBalances = g.initialBalances) (hblocks : c.blocks = g.blocks ++ blocks)
    {c' : Blockchain} :
    c.verifyAndRebuild = .ok c' ↔
      ∃ final, g.applyBlocks blocks = .ok final ∧ { c with toLedger := final.toLedger } = c' := by
  obtain ⟨timestamp, hzero⟩ := hg.blocks
  have htip : g.tip = Block.genesisAt timestamp := by
    simp only [tip, hzero, List.getLast_singleton]
  have hall : c.blocks = Block.genesisAt timestamp :: blocks := by
    rw [hblocks, hzero, List.singleton_append]
  have hhead : c.blocks.head c.blocks_ne_nil = Block.genesisAt timestamp := by
    simp only [hall, List.head_cons]
  have htail : c.blocks.tail = blocks := by
    rw [hall, List.tail_cons]
  have hledger : ({ balances := c.initialBalances, nextNonces := ∅, executedEvents := ∅
                    staking := StakingState.empty } : Ledger) = g.toLedger := by
    rw [hinitial, ← hg.balances, ← hg.nextNonces, ← hg.executedEvents, ← hg.staking]
  have hloop := @rebuildLoop_eq_ok _ g hcap 1 blocks
  have hgenesis : ¬((Block.genesisAt timestamp).height ≠ 0 ∨
      (Block.genesisAt timestamp).previousHash ≠ String.ofList (List.replicate 64 '0') ∨
      (Block.genesisAt timestamp).producer ≠ "genesis" ∨
      (Block.genesisAt timestamp).transactions ≠ [] ∨
      (Block.genesisAt timestamp).systemEvents ≠ []) := by
    simp [Block.genesisAt, Block.sealed]
  have hhash : (Block.genesisAt timestamp).hash = (Block.genesisAt timestamp).calculateHash := rfl
  simp only [verifyAndRebuild, hledger, hhead]
  rw [check_bind_eq_ok, check_bind_eq_ok, reject_eq_ok, reject_eq_ok]
  simp only [hgenesis, hhash, not_false_eq_true, true_and, ne_eq, not_true_eq_false]
  rw [htail, hchainId, ← htip]
  simp only [bind_eq_ok, pure_eq_ok]
  constructor
  · rintro ⟨l, hl, _, _, hc'⟩
    obtain ⟨final, hfinal, rfl⟩ := hloop.1 hl
    exact ⟨final, hfinal, hc'⟩
  · rintro ⟨final, hfinal, hc'⟩
    refine ⟨final.toLedger, hloop.2 ⟨final, hfinal, rfl⟩, (),
      validateSupplyCap_eq_ok.2 ?_, hc'⟩
    rw [applyBlocks_total hfinal]
    exact hcap

/-- Replay equals incremental execution. The stored chain `c` has the blocks of the genesis chain
`g` and any list of blocks after them; its own ledger may be anything. -/
theorem verifyAndRebuild_iff_applyBlocks {g c : Blockchain} (hg : g.IsGenesis)
    (hcap : g.total ≤ ieumMaxSupply) (blocks : List Block) (hchainId : c.chainId = g.chainId)
    (hinitial : c.initialBalances = g.initialBalances)
    (hblocks : c.blocks = g.blocks ++ blocks) :
    ((∃ rebuilt, c.verifyAndRebuild = .ok rebuilt) ↔
      ∃ final, g.applyBlocks blocks = .ok final) ∧
    ∀ rebuilt final, c.verifyAndRebuild = .ok rebuilt → g.applyBlocks blocks = .ok final →
      rebuilt.balances = final.balances ∧ rebuilt.nextNonces = final.nextNonces ∧
        rebuilt.executedEvents = final.executedEvents ∧ rebuilt.staking = final.staking := by
  have hiff := fun c' => @verifyAndRebuild_eq_ok _ g c hg hcap blocks hchainId hinitial hblocks c'
  refine ⟨⟨?_, ?_⟩, ?_⟩
  · intro ⟨rebuilt, hrebuilt⟩
    obtain ⟨final, hfinal, -⟩ := (hiff rebuilt).1 hrebuilt
    exact ⟨final, hfinal⟩
  · intro ⟨final, hfinal⟩
    exact ⟨_, (hiff _).2 ⟨final, hfinal, rfl⟩⟩
  · intro rebuilt final hrebuilt hfinal
    obtain ⟨final', hfinal', rfl⟩ := (hiff rebuilt).1 hrebuilt
    cases hfinal.symm.trans hfinal'
    exact ⟨rfl, rfl, rfl, rfl⟩

/-! ## Restored chains -/

/-- What the later checks read of a chain. -/
structure SameState (c c' : Blockchain) : Prop where
  toLedger : c.toLedger = c'.toLedger
  chainId : c.chainId = c'.chainId
  tipHeight : c.tipHeight = c'.tipHeight
  tipHash : c.tipHash = c'.tipHash

/-- A block meets the same fate on both chains, down to the message, and leads to chains that
are alike again. -/
theorem SameState.applyBlock {c c' : Blockchain} (h : SameState c c') (block : Block) :
    (∃ d d', c.applyBlock block = .ok d ∧ c'.applyBlock block = .ok d' ∧ SameState d d') ∨
      ∃ message, c.applyBlock block = .error message ∧ c'.applyBlock block = .error message := by
  have hexecute : c.execute block = c'.execute block := by
    simp only [execute, h.toLedger, h.chainId]
  have hdecide : ∀ x : Blockchain, x.applyBlock block =
      (do
        reject (block.height ≠ x.tipHeight + 1 ∨ block.previousHash ≠ x.tipHash)
          "새 블록이 현재 체인의 다음 블록이 아닙니다."
        reject (block.hash ≠ block.calculateHash) "새 블록 해시가 올바르지 않습니다."
        x.execute block) >>= fun l => .ok (x.push l block) := by
    intro x
    simp only [Blockchain.applyBlock, bind_assoc]
    rfl
  rw [hdecide c, hdecide c', h.tipHeight, h.tipHash, hexecute]
  generalize (do
    reject (block.height ≠ c'.tipHeight + 1 ∨ block.previousHash ≠ c'.tipHash)
      "새 블록이 현재 체인의 다음 블록이 아닙니다."
    reject (block.hash ≠ block.calculateHash) "새 블록 해시가 올바르지 않습니다."
    c'.execute block : Except String Ledger) = outcome
  cases outcome with
  | error message => exact .inr ⟨message, rfl, rfl⟩
  | ok l =>
      refine .inl ⟨c.push l block, c'.push l block, rfl, rfl, rfl, h.chainId, ?_, ?_⟩
      · simp only [Blockchain.tipHeight, tip_push]
      · simp only [Blockchain.tipHash, tip_push]

/-- The chain after a block was offered to it: a refused block changes nothing. -/
def offer (c : Blockchain) (block : Block) : Blockchain :=
  match c.applyBlock block with
  | .ok c' => c'
  | .error _ => c

def offerAll (c : Blockchain) (blocks : List Block) : Blockchain := blocks.foldl offer c

theorem offer_of_applyBlock {c c' : Blockchain} {block : Block} (h : c.applyBlock block = .ok c') :
    c.offer block = c' := by
  rw [offer, h]

theorem offerAll_cons (c : Blockchain) (block : Block) (blocks : List Block) :
    c.offerAll (block :: blocks) = (c.offer block).offerAll blocks := rfl

theorem offerAll_nil (c : Blockchain) : c.offerAll [] = c := rfl

theorem SameState.offer {c c' : Blockchain} (h : SameState c c') (block : Block) :
    SameState (c.offer block) (c'.offer block) := by
  obtain ⟨d, d', hd, hd', hsame⟩ | ⟨message, herror, herror'⟩ := h.applyBlock block
  · simpa only [Blockchain.offer, hd, hd'] using hsame
  · simpa only [Blockchain.offer, herror, herror'] using h

theorem SameState.offerAll {c c' : Blockchain} (h : SameState c c') (blocks : List Block) :
    SameState (c.offerAll blocks) (c'.offerAll blocks) := by
  induction blocks generalizing c c' with
  | nil => exact h
  | cons block rest ih => exact ih (h.offer block)

theorem Reachable.sameState_restored {c c' : Blockchain} (h : c.Reachable)
    (hrestore : fromSnapshotWithStaking (StateSnapshot.fromChain c) = .ok c') :
    SameState c c' := by
  have hhash : trimHexMarkers c.tipHash = c.tipHash := by
    rw [h.tip_hash]
    exact trimHexMarkers_hexEncode _
  simp only [fromSnapshotWithStaking, check_bind_eq_ok, pure_eq_ok] at hrestore
  obtain ⟨-, -, rfl⟩ := hrestore
  exact ⟨rfl, rfl, rfl, hhash.symm⟩

/-- Restoring a snapshot is invisible to every later block: whatever blocks are offered, the
original and the restored chain accept and refuse the same ones, with the same messages, and
keep equal ledgers and state hashes. -/
theorem Reachable.restored_bisimilar {c c' : Blockchain} (h : c.Reachable)
    (hrestore : fromSnapshotWithStaking (StateSnapshot.fromChain c) = .ok c')
    (offered : List Block) (next : Block) :
    ((∃ d, (c.offerAll offered).applyBlock next = .ok d) ↔
      ∃ d', (c'.offerAll offered).applyBlock next = .ok d') ∧
    (∀ message, (c.offerAll offered).applyBlock next = .error message ↔
      (c'.offerAll offered).applyBlock next = .error message) ∧
    ∀ d d', (c.offerAll offered).applyBlock next = .ok d →
      (c'.offerAll offered).applyBlock next = .ok d' →
      stateHash d.toLedger = stateHash d'.toLedger ∧ d.balances = d'.balances ∧
        d.nextNonces = d'.nextNonces ∧ d.executedEvents = d'.executedEvents ∧
        d.staking = d'.staking := by
  have hsame := (h.sameState_restored hrestore).offerAll offered
  obtain ⟨d, d', hd, hd', hnext⟩ | ⟨message, herror, herror'⟩ := hsame.applyBlock next
  · simp only [hd, hd', Except.ok.injEq, exists_eq', reduceCtorEq, implies_true,
      true_and]
    rintro x y rfl rfl
    rw [hnext.toLedger]
    exact ⟨rfl, rfl, rfl, rfl, rfl⟩
  · simp [herror, herror']

end

end Blockchain

namespace Sample

local instance storedCrypto : Crypto := StandIn.crypto StandIn.digest

theorem total_chain_le : chain.total ≤ ieumMaxSupply := by
  decide

/-- The sample chain with its block, as a file gives it back: with an empty ledger. -/
def stored : Blockchain :=
  { chain with
    toLedger := { balances := ∅, nextNonces := ∅, executedEvents := ∅
                  staking := StakingState.empty }
    blocks := chain.blocks ++ [block], blocks_ne_nil := by simp }

theorem applyBlocks_block : ∃ c', chain.applyBlocks [block] = .ok c' := by
  obtain ⟨l, hl⟩ := execute_block
  have h := Blockchain.applyBlock_eq_ok.2
    ⟨rfl, rfl, Block.withSystemEvents_hash _ _, l, hl, rfl⟩
  exact ⟨_, Blockchain.applyBlocks_cons.2 ⟨_, h, rfl⟩⟩

theorem stored_rebuilt :
    ∃ rebuilt final, stored.verifyAndRebuild = .ok rebuilt ∧
      chain.applyBlocks [block] = .ok final ∧ rebuilt.balances = final.balances := by
  obtain ⟨final, hfinal⟩ := applyBlocks_block
  have h := Blockchain.verifyAndRebuild_iff_applyBlocks (c := stored)
    (Blockchain.isGenesis_withChainId _ _) total_chain_le [block] rfl rfl rfl
  obtain ⟨rebuilt, hrebuilt⟩ := h.1.2 ⟨final, hfinal⟩
  exact ⟨rebuilt, final, hrebuilt, hfinal, (h.2 rebuilt final hrebuilt hfinal).1⟩

theorem restored_ok {c : Blockchain} (h : chain.applyBlocks [block] = .ok c) :
    ∃ c', Blockchain.fromSnapshotWithStaking (StateSnapshot.fromChain c) = .ok c' := by
  have hreach : c.Reachable := ⟨chain, [block], Blockchain.isGenesis_withChainId _ _, h⟩
  have hhash : trimHexMarkers (StateSnapshot.fromChain c).blockHash = c.tipHash := by
    rw [StateSnapshot.fromChain, hreach.tip_hash]
    exact trimHexMarkers_hexEncode _
  have hsize : c.tipHash.utf8ByteSize = 64 := by
    have hlength : (Crypto.sha256 c.tip.hashPreimage).length = 32 := StandIn.length_digest _
    rw [hreach.tip_hash, Block.calculateHash, sha256Hex, utf8ByteSize_hexEncode, hlength]
  have htotal : c.toLedger.total ≤ ieumMaxSupply := by
    rw [Blockchain.applyBlocks_total h]
    exact total_chain_le
  refine ⟨_, check_bind_eq_ok.2 ⟨?_, check_bind_eq_ok.2
    ⟨validateSupplyCap_eq_ok.2 htotal, rfl⟩⟩⟩
  rw [reject_eq_ok, hhash, hsize]
  simp

theorem restored_bisimilar_block :
    ∃ c c', chain.applyBlocks [block] = .ok c ∧
      Blockchain.fromSnapshotWithStaking (StateSnapshot.fromChain c) = .ok c' ∧
      ((∃ d, (c.offerAll []).applyBlock block = .ok d) ↔
        ∃ d', (c'.offerAll []).applyBlock block = .ok d') := by
  obtain ⟨c, hc⟩ := applyBlocks_block
  obtain ⟨c', hc'⟩ := restored_ok hc
  have hreach : c.Reachable := ⟨chain, [block], Blockchain.isGenesis_withChainId _ _, hc⟩
  exact ⟨c, c', hc, hc', (Blockchain.Reachable.restored_bisimilar hreach hc' [] block).1⟩

end Sample

end IeumChain
