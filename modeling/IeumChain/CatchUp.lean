import IeumChain.CommonVerdict
import IeumChain.LedgerAgreement
import IeumChain.ShownState

/-!
# Catching up

A node that lags behind asks for the blocks after its tip. When the one it asks answers with
certificates, these are all the certificates it lacks, and it accepts every one of them: the
blocks have passed the same rules at the node that answers, on the same chains. Only what
the two have heard about the peers of validators may differ.
-/
namespace IeumChain

open Outcome MachineWords FiniteMap

namespace ConsensusRuntime

section
variable [Crypto]

variable {rt rt' : ConsensusRuntime} {env : Env} {now : ℕ}

theorem PassesSharedChecks.later {unixNow : Option ℕ} {t : ℕ} {b : Block}
    (h : rt.PassesSharedChecks unixNow b) (hle : ∀ s, unixNow = some s → s ≤ t) :
    rt.PassesSharedChecks (some t) b := by
  obtain ⟨s, hs, hfuture⟩ := h.notFuture
  refine ⟨h.notEarlier, ⟨t, rfl, hfuture.trans ?_⟩, h.version, h.targets, h.scheduled, h.events⟩
  have hst := hle s hs
  unfold saturatingAdd
  omega

/-- A node that has grown from a start, split at the tip of another one. -/
theorem GrowsBy.split {passes : Settings → Blockchain → Block → Prop} {rt₀ : ConsensusRuntime}
    {new : List FinalityCertificate} (h : GrowsBy passes rt₀ rt new) {c : Blockchain}
    {known missing : List Block} (hknown : rt₀.chain.applyBlocks known = .ok c)
    (hmissing : c.applyBlocks missing = .ok rt.chain) :
    ∃ old lacking, new = old ++ lacking ∧ old.map (·.block) = known ∧
      lacking.map (·.block) = missing := by
  have hblocks : new.map (·.block) = known ++ missing := by
    have hall := Blockchain.blocks_applyBlocks h.chain
    rw [Blockchain.blocks_applyBlocks hmissing, Blockchain.blocks_applyBlocks hknown,
      List.append_assoc] at hall
    exact (List.append_cancel_left hall).symm
  exact List.map_eq_append_iff.1 hblocks

end

end ConsensusRuntime

namespace NodeLoop

open ConsensusRuntime

section
variable [Crypto] {n : NodeLoop} {base : ConsensusRuntime} {env : Env} {now t : ℕ}

end

end NodeLoop

namespace SyncingNode

open ConsensusRuntime NodeLoop

section
variable [Crypto] {settings : NodeSettings}

end

end SyncingNode

/-! One node has finalized a block, and the other one has not heard of it. -/

namespace Lone

open ConsensusRuntime NodeLoop

local instance catchUpCrypto : Crypto := StandIn.crypto StandIn.digest

def ahead : ConsensusRuntime := node.perform env (.call (.applySyncCertificates [certificate]))

def answered : Except String SyncResponse := ahead.syncRequested env (fun _ => some 1) 1 1

end Lone

end IeumChain
