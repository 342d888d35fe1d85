import IeumChain.LedgerKeys
import IeumChain.Mempool

/-!
# Reading the ledger over RPC

The ledger looks an address up as it is written, and leaves addresses without the `0x` marker
alone. The RPC layer gives every address the marker first. A validator address is therefore
looked up under a key that the ledger does not have.
-/
namespace IeumChain

open Text Outcome MachineWords FiniteMap

/-! ## Quantities -/

/-- A number as the RPC layer shows it. -/
def quantity (n : ℕ) : String := "0x" ++ String.ofList (Nat.toDigits 16 n)

/-- The number that hexadecimal digits stand for. -/
def hexDigitsValue (digits : List Char) : ℕ :=
  digits.foldl (fun value c => 16 * value + (ByteCodec.hexValue c).getD 0) 0

theorem hexDigitsValue_toDigits (n : ℕ) : hexDigitsValue (Nat.toDigits 16 n) = n := by
  have hdigit : ∀ a < 16, (ByteCodec.hexValue (Nat.digitChar a)).getD 0 = a := by decide
  induction n using Nat.strong_induction_on with
  | _ n ih =>
      by_cases hsmall : n < 16
      · rw [Nat.toDigits_of_lt_base hsmall]
        simp [hexDigitsValue, hdigit n hsmall]
      · have hlast := hdigit (n % 16) (Nat.mod_lt n (by decide))
        have hrest := ih (n / 16) (by omega)
        unfold hexDigitsValue at hrest ⊢
        rw [Nat.toDigits_of_base_le (by decide) (not_lt.1 hsmall), List.foldl_append, hrest]
        simp only [List.foldl_cons, List.foldl_nil, hlast]
        omega

theorem quantity_injective : Function.Injective quantity := by
  intro m n h
  have hdigits : Nat.toDigits 16 m = Nat.toDigits 16 n := by
    have hlists := congrArg String.toList h
    simpa [quantity, String.toList_append] using hlists
  rw [← hexDigitsValue_toDigits m, hdigits, hexDigitsValue_toDigits]

/-! ## Pending nonces -/

namespace Mempool

def takes (pool : Mempool) (address : Address) (nonce : ℕ) : Bool :=
  pool.transactions.any fun tx => lowercase tx.sender = lowercase address ∧ tx.nonce = nonce

/-- Counts up while the pool has a transaction of the sender, up to the last nonce. -/
def nextNonceFrom (pool : Mempool) (address : Address) (nonce : ℕ) : ℕ :=
  if nonce < u64Max ∧ pool.takes address nonce = true then
    nextNonceFrom pool address (nonce + 1)
  else nonce
termination_by u64Max - nonce

end Mempool

/-! ## Spellings -/

/-- One `0x` marker, and no capital letter behind it. -/
def MarkedInLowerCase (key : Address) : Prop :=
  ∃ rest, key.toList = '0' :: 'x' :: rest ∧ ¬['0', 'x'] <+: rest ∧
    ∀ c ∈ rest, ¬('A' ≤ c ∧ c ≤ 'Z')

/-- The RPC layer leaves a key alone exactly if the key is written like this. -/
theorem normalizeAddress_eq_self_iff {key : Address} :
    normalizeAddress key = key ↔ MarkedInLowerCase key := by
  have htext : normalizeAddress key = key ↔
      '0' :: 'x' :: (trimPair '0' 'x' key.toList).map lowerChar = key.toList := by
    rw [← String.toList_inj, normalizeAddress, String.toList_append, lowercase, trimHexMarkers,
      String.toList_ofList, String.toList_ofList, String.toList_ofList]
    rfl
  rw [htext]
  constructor
  · intro h
    -- What stands behind the first marker is as long as what is left after trimming it.
    have hagain : trimPair '0' 'x' key.toList =
        trimPair '0' 'x' ((trimPair '0' 'x' key.toList).map lowerChar) := by
      conv_lhs => rw [← h]
      rw [trimPair, if_pos ⟨rfl, rfl⟩]
    have hmarker : ¬['0', 'x'] <+: (trimPair '0' 'x' key.toList).map lowerChar := by
      apply not_prefix_of_length_trimPair
      rw [← hagain, List.length_map]
    rw [trimPair_eq_self_iff.2 hmarker] at hagain
    refine ⟨_, h.symm, hmarker, ?_⟩
    rw [← hagain]
    exact map_lowerChar_eq_self_iff.1 hagain.symm
  · rintro ⟨rest, hkey, hmarker, hlower⟩
    rw [hkey, trimPair, if_pos ⟨rfl, rfl⟩, trimPair_eq_self_iff.2 hmarker,
      map_lowerChar_eq_self_iff.2 hlower]

/-! ## The two calls -/

/-- The state behind the RPC interface with the address of each managed wallet. -/
structure RpcAccounts extends RpcState where
  wallets : HashMap Address Address

namespace RpcAccounts

/-- A managed wallet stands for its address. -/
def resolveLedgerAddress (s : RpcAccounts) (address : Address) : Address :=
  (s.wallets.lookup (normalizeAddress address)).getD (normalizeAddress address)

def ethGetBalance (s : RpcAccounts) (address : Address) : String :=
  quantity (s.chain.balanceOf (s.resolveLedgerAddress address))

def ethGetTransactionCount (s : RpcAccounts) (address : Address) (tag : Option String) : String :=
  let ledgerAddress := s.resolveLedgerAddress address
  let finalizedNonce := s.chain.nextNonce ledgerAddress
  quantity (if tag = some "pending" then s.pool.nextNonceFrom ledgerAddress finalizedNonce
    else finalizedNonce)

/-- No managed wallet stands for another address than the one it is filed under. -/
def NotRemapped (s : RpcAccounts) (key : Address) : Prop :=
  ∀ address, s.wallets.lookup (normalizeAddress key) = some address →
    address = normalizeAddress key

theorem resolveLedgerAddress_eq {s : RpcAccounts} {key : Address} (h : s.NotRemapped key) :
    s.resolveLedgerAddress key = normalizeAddress key := by
  unfold resolveLedgerAddress
  cases hlookup : s.wallets.lookup (normalizeAddress key) with
  | none => rfl
  | some address => exact h address hlookup

/-- Without an entry under the marked form every balance reads as zero. -/
theorem ethGetBalance_unmarked {s : RpcAccounts} {key : Address} (hwallet : s.NotRemapped key)
    (hnone : normalizeAddress key ∉ s.chain.balances) : s.ethGetBalance key = "0x0" := by
  have hzero : s.chain.balanceOf (normalizeAddress key) = 0 := by
    rw [Ledger.balanceOf, getD, AList.lookup_eq_none.2 hnone, Option.getD_none]
  rw [ethGetBalance, resolveLedgerAddress_eq hwallet, hzero]
  decide

section
variable [Crypto]

/-- A chain that starts with one balance, without managed wallets. -/
def funded (key : Address) (amount : ℕ) : RpcAccounts :=
  { chain := .withChainId 21005 [(key, amount)], pool := .default, chainId := 21005
    validators := [], upgradeSchedule := { upgrades := [] }, wallets := ∅ }

theorem notRemapped_funded (key : Address) (amount : ℕ) : (funded key amount).NotRemapped key := by
  intro _ h
  cases h

theorem lookup_funded (key key' : Address) (amount : ℕ) :
    (funded key amount).chain.balances.lookup key' = if key' = key then some amount else none := by
  have hentries : (funded key amount).chain.balances = AList.insert key amount ∅ := rfl
  rw [hentries]
  split_ifs with hkey
  · rw [hkey]
    exact AList.lookup_insert _
  · rw [AList.lookup_insert_ne hkey, AList.lookup_empty]

/-- In every chain that has a balance under a key the calls return what the ledger has there,
exactly if the key is written with one marker in lower case. -/
theorem reads_ledger_iff (key : Address) :
    (∀ (s : RpcAccounts) (amount : ℕ), s.chain.Reachable →
        s.chain.balances.lookup key = some amount → s.NotRemapped key →
          s.ethGetBalance key = quantity amount ∧
            s.ethGetTransactionCount key none = quantity (s.chain.nextNonce key)) ↔
      MarkedInLowerCase key := by
  rw [← normalizeAddress_eq_self_iff]
  constructor
  · intro hreads
    by_contra hother
    have hnone : normalizeAddress key ∉ (funded key 1).chain.balances := by
      rw [← AList.lookup_eq_none, lookup_funded, if_neg hother]
    have hone : (funded key 1).chain.balances.lookup key = some 1 := by
      rw [lookup_funded, if_pos rfl]
    have hreachable : (funded key 1).chain.Reachable :=
      ⟨_, [], Blockchain.isGenesis_withChainId _ _, rfl⟩
    have hwallet := notRemapped_funded key 1
    obtain ⟨hbalance, -⟩ := hreads (funded key 1) 1 hreachable hone hwallet
    rw [ethGetBalance_unmarked hwallet hnone] at hbalance
    exact absurd hbalance (by decide)
  · intro hself s amount _ hkey hwallet
    have hbalance : s.chain.balanceOf key = amount := by
      simp only [Ledger.balanceOf, getD, hkey, Option.getD_some]
    have hresolved : s.resolveLedgerAddress key = key :=
      (resolveLedgerAddress_eq hwallet).trans hself
    constructor
    · rw [ethGetBalance, hresolved, hbalance]
    · rw [ethGetTransactionCount, hresolved]
      rfl

end

end RpcAccounts

namespace Spelling

local instance rpcReadsCrypto : Crypto := StandIn.crypto StandIn.digest

def served : RpcAccounts :=
  { chain, pool := .default, chainId := 21005, validators := [], upgradeSchedule := { upgrades := [] }
    wallets := ∅ }

theorem notRemapped_served (key : Address) : served.NotRemapped key := by
  intro _ h
  cases h

theorem lookup_chain : chain.balances.lookup stored = some 50 ∧
    chain.balances.lookup (StandIn.address 1) = some 100 := by
  have hentries : chain.balances = (AList.insert (StandIn.address 1) 100 ∅).insert stored 50 := rfl
  have hne : StandIn.address 1 ≠ stored := by
    intro h
    have hmarker := StandIn.startsWith_address 1
    rw [h] at hmarker
    exact absurd hmarker (by decide)
  rw [hentries]
  exact ⟨AList.lookup_insert _, (AList.lookup_insert_ne hne).trans (AList.lookup_insert _)⟩

/-- The account of a validator has 100, and its balance reads as zero. -/
theorem validator_reads_zero :
    served.chain.Reachable ∧ served.chain.balances.lookup (StandIn.address 1) = some 100 ∧
      served.NotRemapped (StandIn.address 1) ∧
      served.ethGetBalance (StandIn.address 1) ≠ quantity 100 := by
  have hnone : normalizeAddress (StandIn.address 1) ∉ served.chain.balances := by
    intro hmem
    rcases mem_balances_chain.1 hmem with h | h
    · exact absurd (congrArg String.length h) (by decide)
    · exact absurd (congrArg String.length h) (by decide)
  refine ⟨⟨chain, [], Blockchain.isGenesis_withChainId _ _, rfl⟩, lookup_chain.2,
    notRemapped_served _, ?_⟩
  rw [RpcAccounts.ethGetBalance_unmarked (notRemapped_served _) hnone]
  decide

theorem reads_ledger_iff_marked :
    served.ethGetBalance stored = quantity 50 ∧
      served.ethGetTransactionCount stored none = quantity (served.chain.nextNonce stored) := by
  have hreachable : served.chain.Reachable :=
    ⟨chain, [], Blockchain.isGenesis_withChainId _ _, rfl⟩
  have hmarked : MarkedInLowerCase stored := normalizeAddress_eq_self_iff.1 normalizeAddress_stored
  exact (RpcAccounts.reads_ledger_iff stored).2 hmarked served 50 hreachable lookup_chain.1
    (notRemapped_served _)

end Spelling

end IeumChain
