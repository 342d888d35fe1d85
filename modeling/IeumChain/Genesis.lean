import IeumChain.Chain

/-!
# Genesis

The configuration every node starts from, and the chains that grow from it block by
block.
-/
namespace IeumChain

open ByteCodec Text Outcome MachineWords FiniteMap

structure GenesisConfig where
  chainId : ℕ
  networkName : String
  genesisTime : ℕ
  maxSupply : ℕ
  initialBalances : List (Address × ℕ)
  lockedAddresses : List Address
  validators : List Validator
  maxBlockBytes : ℕ
  maxActiveBlockBytes : ℕ
  deriving Repr, DecidableEq

namespace GenesisConfig

/-- Adds one balance to the addresses seen and the supply so far. -/
def checkBalance (state : List String × ℕ) (entry : Address × ℕ) :
    Except String (List String × ℕ) := do
  reject (lowercase entry.1 ∈ state.1) "제네시스 잔액 주소는 중복될 수 없습니다."
  let supply ← okOr (checkedAdd u128Max state.2 entry.2)
    "제네시스 발행량 합계가 u128 범위를 넘습니다."
  pure (lowercase entry.1 :: state.1, supply)

def checkLocked (balanceAddresses : List String) (locked : List String) (address : Address) :
    Except String (List String) := do
  reject (lowercase address ∉ balanceAddresses ∨ lowercase address ∈ locked)
    "locked_addresses는 제네시스에 존재하는 고유 주소여야 합니다."
  pure (lowercase address :: locked)

def checkValidator (ids : List String) (v : Validator) : Except String (List String) := do
  reject (v.votingPower = 0 ∨ (hexDecode v.id).map List.length ≠ some 32 ∨ v.id ∈ ids)
    "검증자 ID는 고유한 32바이트 Ed25519 공개키이고 투표권은 1 이상이어야 합니다."
  pure (v.id :: ids)

def validate (g : GenesisConfig) : Except String Unit := do
  reject (g.chainId = 0) "chain_id는 0일 수 없습니다."
  reject (g.maxSupply = 0) "max_supply는 0일 수 없습니다."
  let (balanceAddresses, initialSupply) ← g.initialBalances.foldlM checkBalance ([], 0)
  reject (g.maxSupply < initialSupply) "제네시스 발행량이 최대 발행량을 넘습니다."
  let _ ← g.lockedAddresses.foldlM (checkLocked balanceAddresses) []
  reject (g.validators.length < 4) "BFT 제네시스 검증자는 최소 4개가 필요합니다."
  let _ ← g.validators.foldlM checkValidator []
  reject (g.maxBlockBytes = 0 ∨ 4 * 1024 * 1024 < g.maxBlockBytes)
    "모바일 호환을 위해 블록은 1바이트~4MiB여야 합니다."
  reject (g.maxActiveBlockBytes = 0 ∨ 100000000 < g.maxActiveBlockBytes)
    "활성 블록 전체 크기는 100MB 이하여야 합니다."

/-- The locked addresses are left out when there are none. -/
def json (g : GenesisConfig) : Json :=
  jsonObject <|
    [("chain_id", jsonNumber g.chainId), ("network_name", jsonString g.networkName),
      ("genesis_time", jsonNumber g.genesisTime), ("max_supply", jsonNumber g.maxSupply),
      ("initial_balances", jsonArray (g.initialBalances.map fun e =>
        jsonArray [jsonString e.1, jsonNumber e.2]))] ++
    (if g.lockedAddresses = [] then []
      else [("locked_addresses", jsonArray (g.lockedAddresses.map jsonString))]) ++
    [("validators", jsonArray (g.validators.map fun v =>
        jsonObject [("id", jsonString v.id), ("voting_power", jsonNumber v.votingPower)])),
      ("max_block_bytes", jsonNumber g.maxBlockBytes),
      ("max_active_block_bytes", jsonNumber g.maxActiveBlockBytes)]

end GenesisConfig

/-- A chain that has block zero and nothing else. -/
structure Blockchain.IsGenesis [Crypto] (c : Blockchain) : Prop where
  blocks : ∃ timestamp, c.blocks = [Block.genesisAt timestamp]
  balances : c.balances = c.initialBalances
  nextNonces : c.nextNonces = ∅
  executedEvents : c.executedEvents = ∅
  staking : c.staking = StakingState.empty

section
variable [Crypto]

def GenesisConfig.genesisHash (g : GenesisConfig) : Except String String := do
  g.validate
  pure (sha256Hex (utf8 (String.ofList g.json)))

namespace Blockchain

def fromGenesis (g : GenesisConfig) : Except String Blockchain := do
  g.validate
  let chain := withChainId g.chainId
    (g.initialBalances.map fun e => (canonicalAddress e.1, e.2))
  let commitment ← g.genesisHash
  pure { chain with
    blocks := [Block.genesisAt g.genesisTime], genesisCommitment := commitment
    blocks_ne_nil := by simp }

theorem isGenesis_withChainId (chainId : ℕ) (initialBalances : List (Address × ℕ)) :
    (withChainId chainId initialBalances).IsGenesis :=
  ⟨⟨0, rfl⟩, rfl, rfl, rfl, rfl⟩

theorem isGenesis_fromGenesis {g : GenesisConfig} {c : Blockchain}
    (h : fromGenesis g = .ok c) : c.IsGenesis := by
  simp only [fromGenesis, bind_eq_ok, pure_eq_ok] at h
  obtain ⟨-, -, commitment, -, rfl⟩ := h
  exact ⟨⟨g.genesisTime, rfl⟩, rfl, rfl, rfl, rfl⟩

/-- Blocks applied one after the other; the first refusal ends it. -/
def applyBlocks (c : Blockchain) (blocks : List Block) : Except String Blockchain :=
  blocks.foldlM applyBlock c

/-- Grown from a genesis chain. -/
def Reachable (c : Blockchain) : Prop :=
  ∃ g blocks, g.IsGenesis ∧ applyBlocks g blocks = .ok c

theorem applyBlocks_cons {c c' : Blockchain} {block : Block} {blocks : List Block} :
    c.applyBlocks (block :: blocks) = .ok c' ↔
      ∃ c₁, c.applyBlock block = .ok c₁ ∧ c₁.applyBlocks blocks = .ok c' := by
  rw [applyBlocks, List.foldlM_cons, bind_eq_ok]
  rfl

/-- Every block hash that was checked is the hash of its block. -/
theorem Reachable.tip_hash {c : Blockchain} (h : c.Reachable) :
    c.tipHash = c.tip.calculateHash := by
  obtain ⟨g, blocks, hg, hrun⟩ := h
  refine foldlM_invariant (P := fun c => c.tipHash = c.tip.calculateHash) ?_ ?_ hrun
  · intro c block c' _ _ happly
    obtain ⟨-, -, hhash, l, -, rfl⟩ := applyBlock_eq_ok.1 happly
    simpa only [tipHash, tip_push] using hhash
  · obtain ⟨timestamp, hblocks⟩ := hg.blocks
    have htip : g.tip = Block.genesisAt timestamp := by
      simp only [tip, hblocks, List.getLast_singleton]
    rw [tipHash, htip]
    rfl

end Blockchain

end

end IeumChain
