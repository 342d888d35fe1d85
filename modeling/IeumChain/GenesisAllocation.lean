import IeumChain.Conservation
import IeumChain.KeySpellings

/-!
# What genesis allocates

The check of a genesis configuration compares addresses without their case; the ledger also
drops further markers behind the first one. Balances that differ in the first sense and agree
in the second are one account, and only the last of them is kept.
-/
namespace IeumChain

open ByteCodec Text Outcome MachineWords FiniteMap

namespace GenesisConfig

def declaredSupply (g : GenesisConfig) : ℕ := (g.initialBalances.map (·.2)).sum

/-- No balance gives way to a later one of the same account. -/
def KeepsBalances (g : GenesisConfig) : Prop :=
  g.initialBalances.Pairwise fun a b => canonicalAddress a.1 = canonicalAddress b.1 → a.2 = 0

end GenesisConfig

namespace Blockchain

variable {g : GenesisConfig}

theorem lossless_iff : Lossless (g.initialBalances.map fun e => (canonicalAddress e.1, e.2)) ↔
    g.KeepsBalances := List.pairwise_map

section
variable [Crypto]

theorem fromGenesis_fields {c : Blockchain} (h : fromGenesis g = .ok c) :
    c.balances = collect (g.initialBalances.map fun e => (canonicalAddress e.1, e.2)) ∧
      c.staking = StakingState.empty := by
  simp only [fromGenesis, bind_eq_ok, pure_eq_ok] at h
  obtain ⟨-, -, commitment, -, rfl⟩ := h
  exact ⟨rfl, rfl⟩

theorem exists_fromGenesis (h : g.validate = .ok ()) : ∃ c, fromGenesis g = .ok c := by
  have hhash : g.genesisHash = .ok (sha256Hex (utf8 (String.ofList g.json))) := by
    rw [GenesisConfig.genesisHash, h]
    rfl
  rw [fromGenesis, h, hhash]
  exact ⟨_, rfl⟩

theorem total_fromGenesis {c : Blockchain} (h : fromGenesis g = .ok c) :
    c.total = total (collect (g.initialBalances.map fun e => (canonicalAddress e.1, e.2))) := by
  obtain ⟨hbalances, hstaking⟩ := fromGenesis_fields h
  rw [Ledger.total, hbalances, hstaking]
  rfl

/-- The ledger holds what was declared, within the supply that blocks accept, exactly if no
balance is replaced and the declared ones respect the cap of the ledger. -/
theorem genesis_allocates_iff (h : g.validate = .ok ()) : ∃ c, fromGenesis g = .ok c ∧
    ((c.total = g.declaredSupply ∧ validateSupplyCap c.toLedger = .ok ()) ↔
      g.KeepsBalances ∧ g.declaredSupply ≤ ieumMaxSupply) := by
  obtain ⟨c, hc⟩ := exists_fromGenesis h
  have hdeclared : g.declaredSupply =
      ((g.initialBalances.map fun e => (canonicalAddress e.1, e.2)).map (·.2)).sum := by
    rw [List.map_map]
    rfl
  refine ⟨c, hc, ?_⟩
  rw [validateSupplyCap_eq_ok, ← lossless_iff, ← total_collect_eq_iff, ← total_fromGenesis hc,
    ← hdeclared]
  exact and_congr_right fun heq => by rw [heq]

end

end Blockchain

/-! ## One account under two names -/

namespace TwoNames

attribute [local instance] Lone.agreementCrypto

def marked : Address := "0x7e5f4552091a69125d5dfcb7b8c2659029395bdf"

def twiceMarked : Address := "0x0x7e5f4552091a69125d5dfcb7b8c2659029395bdf"

def funded (maxSupply : ℕ) (initialBalances : List (Address × ℕ)) : GenesisConfig :=
  { Spelled.configured Spelled.members with maxSupply, initialBalances }

theorem validate_funded {maxSupply : ℕ} {initialBalances : List (Address × ℕ)}
    {seen : List String × ℕ} (hmax : maxSupply ≠ 0)
    (hseen : initialBalances.foldlM GenesisConfig.checkBalance ([], 0) = .ok seen)
    (hle : seen.2 ≤ maxSupply) : (funded maxSupply initialBalances).validate = .ok () := by
  obtain ⟨ids, hids⟩ :=
    checkValidators_eq_ok.2 ⟨Spelled.namesKeys_members, fun v _ => List.not_mem_nil⟩
  simp only [GenesisConfig.validate, check_bind_eq_ok, reject_eq_ok]
  simp only [bind_eq_ok, reject_eq_ok]
  exact ⟨Nat.succ_ne_zero _, hmax, seen, hseen, (), not_lt.2 hle, [], rfl, (), Nat.lt_irrefl 4, ids,
    hids, (), by simp [funded, Spelled.configured], by simp [funded, Spelled.configured]⟩

theorem canonicalAddress_marked : canonicalAddress marked = marked := by decide

theorem canonicalAddress_twice : canonicalAddress twiceMarked = marked := by decide

theorem total_single (amount : ℕ) :
    total (collect [(marked, amount)]) = amount := by
  simp [collect, total, values]

/-- The second balance replaces the first one. -/
theorem total_twice (first second : ℕ) :
    total (collect [(marked, first), (marked, second)]) = second := by
  have hinsert := total_insert (collect [(marked, first)]) marked second
  have hfirst : getD (collect [(marked, first)]) marked 0 = first := getD_insert_self ..
  rw [total_single, hfirst, Nat.add_comm first] at hinsert
  exact Nat.add_right_cancel hinsert

theorem checkBalances_single (amount : ℕ) (h : amount ≤ u128Max) :
    [(marked, amount)].foldlM GenesisConfig.checkBalance ([], 0) =
      .ok ([lowercase marked], amount) := by
  simp [GenesisConfig.checkBalance, checkedAdd, h, reject, okOr, bind, Except.bind, pure, Except.pure]

/-- A balance that is replaced, and a supply above the cap of the ledger. -/
theorem declared_not_allocated :
    (∃ g : GenesisConfig, g.validate = .ok () ∧ ∃ c, Blockchain.fromGenesis g = .ok c ∧
      c.total ≠ g.declaredSupply) ∧
    ∃ g : GenesisConfig, g.validate = .ok () ∧ ∃ c, Blockchain.fromGenesis g = .ok c ∧
      validateSupplyCap c.toLedger ≠ .ok () := by
  constructor
  · have hseen : [(marked, 100), (twiceMarked, 50)].foldlM GenesisConfig.checkBalance ([], 0) =
        .ok ([lowercase twiceMarked, lowercase marked], 150) := by decide
    have hvalid : (funded 150 [(marked, 100), (twiceMarked, 50)]).validate = .ok () :=
      validate_funded (by decide) hseen le_rfl
    obtain ⟨c, hc⟩ := Blockchain.exists_fromGenesis hvalid
    refine ⟨_, hvalid, c, hc, ?_⟩
    have htotal : c.total = 50 := by
      rw [Blockchain.total_fromGenesis hc]
      simp only [funded, List.map_cons, List.map_nil, canonicalAddress_marked,
        canonicalAddress_twice, total_twice]
    have hdeclared : (funded 150 [(marked, 100), (twiceMarked, 50)]).declaredSupply = 150 := rfl
    rw [htotal, hdeclared]
    decide
  · have hvalid : (funded (ieumMaxSupply + 1) [(marked, ieumMaxSupply + 1)]).validate = .ok () :=
      validate_funded (by decide) (checkBalances_single _ (by decide)) le_rfl
    obtain ⟨c, hc⟩ := Blockchain.exists_fromGenesis hvalid
    refine ⟨_, hvalid, c, hc, ?_⟩
    have htotal : c.total = ieumMaxSupply + 1 := by
      rw [Blockchain.total_fromGenesis hc]
      simp only [funded, List.map_cons, List.map_nil, canonicalAddress_marked, total_single]
    rw [Ne, validateSupplyCap_eq_ok, htotal]
    exact Nat.not_succ_le_self _

theorem genesis_allocates_iff_single : ∃ c,
    Blockchain.fromGenesis (funded 100 [(marked, 100)]) = .ok c ∧
      ((c.total = 100 ∧ validateSupplyCap c.toLedger = .ok ()) ↔
        (funded 100 [(marked, 100)]).KeepsBalances ∧ 100 ≤ ieumMaxSupply) :=
  Blockchain.genesis_allocates_iff
    (validate_funded (by decide) (checkBalances_single 100 (by decide)) le_rfl)

end TwoNames

end IeumChain
