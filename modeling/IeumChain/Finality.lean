import IeumChain.Precommits
import IeumChain.Solvency

/-!
# Blocks that are voted for and blocks that are applied

A node votes after `validateScheduledBlock` and executes the block only once it is
finalized. The first check leaves out signatures, nonces, balances and the funds of the
foundation. As long as the chain affords every proposal that a node takes up, in what this
check leaves open, and no other block takes the place of its candidate, the finalized block
is on the chain.
-/
namespace IeumChain

open Outcome MachineWords FiniteMap VoteTally

/-- A block with this hash is on the chain. -/
def Blockchain.Holds (chain : Blockchain) (hash : String) : Prop :=
  ∃ b ∈ chain.blocks, b.hash = hash

/-- What is left open of an event by the checks before a vote: configured events are compared with
the schedule but not validated, the time of the other events is not looked at, and two events of
one block are never compared. -/
structure EventLeftOpen [Crypto] (l : Ledger) (block : Block) (done : List ScheduledEvent)
    (e : ScheduledEvent) : Prop where
  valid : isConfigured e.action = true → e.validate = .ok ()
  due : isConfigured e.action = false → e.executeAt ≤ block.timestamp
  once : e.id ∉ done.map (·.id)
  unslashed : ∀ evidence penaltyBps, e.action = .doubleVoteSlash evidence penaltyBps →
    e.id ∉ l.staking.appliedSlashes
  funds : Funded l block done e

/-- What a chain must afford of a block that was voted for. -/
structure Blockchain.Affords [Crypto] (chain : Blockchain) (block : Block) : Prop where
  capped : chain.total ≤ ieumMaxSupply
  transactions : ∀ ahead tx, ahead ++ [tx] <+: block.transactions →
    checkTransactionSignature chain.chainId tx = .ok () ∧
      Sustained block.timestamp block.producer chain.toLedger ahead tx
  events : ∀ done e, done ++ [e] <+: block.systemEvents →
    EventLeftOpen chain.toLedger block done e

namespace ConsensusRuntime

/-- Of the blocks above the tip, the first is the candidate if it has its height. -/
def KeepsCandidate (rt : ConsensusRuntime) (blocks : List Block) : Prop :=
  ∀ b b', rt.pending = some b → blocks.find? (fun x => rt.chain.tipHeight < x.height) = some b' →
    b'.height = b.height → b'.hash = b.hash

section
variable [Crypto]

/-- The chain affords the proposals that are taken up, the candidate is not replaced under the node,
and powers add up in a machine word. -/
def VotesSafely (env : Env) (rt : ConsensusRuntime) : Operation → Prop
  | .call (.receiveProposal p) =>
      rt.checkProposedBlock env p.block = .ok () → rt.consensus.checkProposal p = .ok () →
        rt.consensus.phase = .propose → rt.chain.Affords p.block
  | .call (.applySyncCertificates certificates) =>
      rt.AllOrNothing env certificates ∨ rt.KeepsCandidate (certificates.map (·.block))
  | .applySyncBatch blocks => rt.KeepsCandidate blocks
  | .forceTimeoutForTest =>
      rt.precommits = [] ∧ (rt.pending.isSome = true → rt.consensus.round < u32Max)
  | .replaceBootstrapValidators validators => listedPower validators ≤ u64Max
  | _ => True

/-- The candidate can be applied, or it is on the chain already. -/
def Lands (chain : Blockchain) (b : Block) : Prop :=
  (∃ chain', chain.applyBlock b = .ok chain') ∨ chain.Holds b.hash

/-- A node in the middle of a round has a candidate that can become the next block, and a node
at the end of a height has the finalized block on its chain. -/
structure Ready (rt : ConsensusRuntime) : Prop where
  seated : Seated rt
  collected : Collected rt
  height_le : rt.consensus.height ≤ rt.chain.tipHeight + 1
  candidate : rt.consensus.phase = .prevote ∨ rt.consensus.phase = .precommit →
    ∃ b, rt.pending = some b ∧ rt.consensus.proposal = some b.hash ∧
      b.height = rt.consensus.height ∧ b.hash = b.calculateHash ∧ Lands rt.chain b
  settled : rt.consensus.phase = .finalized →
    rt.pending = none ∧ ∃ x, rt.consensus.finalized = some x ∧ rt.chain.Holds x

variable {rt rt' : ConsensusRuntime}

theorem Ready.poised (h : Ready rt) : Poised rt := by
  refine ⟨h.seated, h.collected, fun hphase => ?_⟩
  obtain ⟨b, hb, hproposal, hheight, hhash, -⟩ := h.candidate hphase
  exact ⟨b, hb, hproposal, hheight, hhash⟩

theorem Ready.lands (h : Ready rt)
    (hphase : rt.consensus.phase = .prevote ∨ rt.consensus.phase = .precommit) {b : Block}
    (hb : rt.pending = some b) : Lands rt.chain b := by
  obtain ⟨b', hb', -, -, -, hlands⟩ := h.candidate hphase
  obtain rfl : b' = b := Option.some.inj (hb'.symm.trans hb)
  exact hlands

/-- To a candidate belongs that it lands, to the end of a height that it has. -/
theorem Poised.ready (h : Poised rt) (hheight : rt.consensus.height ≤ rt.chain.tipHeight + 1)
    (hlands : rt.consensus.phase = .prevote ∨ rt.consensus.phase = .precommit →
      ∀ b, rt.pending = some b → Lands rt.chain b)
    (hsettled : rt.consensus.phase = .finalized →
      rt.pending = none ∧ ∃ x, rt.consensus.finalized = some x ∧ rt.chain.Holds x) : Ready rt := by
  refine ⟨h.seated, h.collected, hheight, fun hphase => ?_, hsettled⟩
  obtain ⟨b, hb, hproposal, hbheight, hhash⟩ := h.candidate hphase
  exact ⟨b, hb, hproposal, hbheight, hhash, hlands hphase b hb⟩

/-! ## Rounds -/

/-- The round goes on as it was. -/
theorem Ready.stayed {new : List ConsensusMessage} (h : Ready rt) (hframe : Frame new rt rt')
    (hstayed : Stayed rt rt') : Ready rt' := by
  have hcore := hstayed.core
  refine (h.poised.stayed hframe hstayed).ready ?_ ?_ ?_
  · rw [hcore.height, hframe.chain]
    exact h.height_le
  · rw [hcore.phase, hstayed.pending, hframe.chain]
    exact fun hphase b => h.lands hphase
  · rw [hcore.phase, hcore.finalized, hstayed.pending, hframe.chain]
    exact h.settled

theorem Ready.sameCore {c : BftConsensus} (h : Ready rt) (hcore : rt.consensus.SameCore c) :
    Ready { rt with consensus := c } := by
  have hframe : Frame [] rt { rt with consensus := c } :=
    ⟨rfl, rfl, rfl, rfl, rfl, fun _ => .inl, fun _ => .inl⟩
  exact h.stayed hframe ⟨hcore, rfl, rfl⟩

theorem Ready.record (h : Ready rt) (payload : SignedPayload) : Ready (rt.record payload) :=
  (h.poised.record payload).ready h.height_le (fun hphase _ => h.lands hphase) h.settled

/-- A round that was just entered. -/
theorem Poised.ready_entered {c : BftConsensus} {height round : ℕ} (h : Poised rt')
    (hconsensus : rt'.consensus = c.enterRound height round)
    (hheight : height ≤ rt'.chain.tipHeight + 1) : Ready rt' := by
  refine h.ready ?_ ?_ ?_
  · rw [hconsensus]
    exact hheight
  · rw [hconsensus]
    rintro (hphase | hphase) <;> cases hphase
  · rw [hconsensus]
    intro hphase
    cases hphase

theorem Ready.entered {c : BftConsensus} {height round : ℕ} (hseated : Seated rt')
    (hconsensus : rt'.consensus = c.enterRound height round) (hprecommits : rt'.precommits = [])
    (hheight : height ≤ rt'.chain.tipHeight + 1) : Ready rt' :=
  (Poised.entered hseated hconsensus hprecommits).ready_entered hconsensus hheight

theorem Ready.jumped {new : List ConsensusMessage} (h : Ready rt) (hframe : Frame new rt rt')
    (hjumped : Jumped rt rt') : Ready rt' := by
  have hpoised := h.poised.jumped hframe hjumped
  obtain ⟨c, target, -, -, hconsensus, -⟩ := hjumped
  refine hpoised.ready_entered hconsensus ?_
  rw [hframe.chain]
  exact h.height_le

/-- The next height is open to a node that is behind its chain, whatever its candidate. -/
theorem ready_openNextHeight (h : Poised rt) (env : Env)
    (hbehind : rt.consensus.height ≤ rt.chain.tipHeight) : Ready (rt.openNextHeight env).1 := by
  have hpoised := h.openNextHeight env
  unfold ConsensusRuntime.openNextHeight at hpoised ⊢
  rw [BftConsensus.startRound_of_le (.inl (Nat.lt_succ_of_le hbehind))] at hpoised ⊢
  exact hpoised.ready_entered rfl le_rfl

theorem Ready.advanceAfterFinalization (h : Ready rt) (env : Env) :
    Ready (rt.advanceAfterFinalization env).1 := by
  rcases rt.advanceAfterFinalization_cases env with hcase | ⟨-, hcase⟩
  · rw [hcase]
    exact h
  · rw [hcase]
    obtain ⟨hframe, hsame | ⟨-, hconsensus, -, -⟩⟩ := rt.openNextHeight_cases env
    · rw [hsame]
      exact h
    · refine (h.poised.openNextHeight env).ready_entered hconsensus ?_
      rw [hframe.chain]

/-! ## Proposals -/

/-- What the checks before a vote say of an event of the block. -/
theorem event_of_validated {unixNow : Option ℕ} {block : Block} {e : ScheduledEvent}
    (h : rt.validateScheduledBlock unixNow block = .ok ()) (he : e ∈ block.systemEvents) :
    e.id ∉ rt.chain.executedEvents ∧
      (isConfigured e.action = true → e.executeAt ≤ block.timestamp) ∧
      (isConfigured e.action = false → e.validate = .ok ()) ∧
      ∀ evidence penaltyBps, e.action = .doubleVoteSlash evidence penaltyBps →
        penaltyBps = Staking.doubleVoteSlashBps := by
  obtain ⟨-, -, -, -, -, -, hscheduled, hevents⟩ := validateScheduledBlock_eq_ok.1 h
  have hchecked := hevents e he
  unfold checkEvent at hchecked
  cases hkind : isConfigured e.action with
  | true =>
      have hdue : e ∈ rt.eventSchedule.due block.timestamp rt.chain.executedEvents := by
        rw [← hscheduled]
        exact List.mem_filter.2 ⟨he, hkind⟩
      rw [EventSchedule.due, List.mem_insertionSort, List.mem_filter] at hdue
      obtain ⟨hdue, hfresh⟩ := of_decide_eq_true hdue.2
      refine ⟨hfresh, fun _ => hdue, Bool.noConfusion, fun evidence penaltyBps haction => ?_⟩
      rw [haction] at hkind
      cases hkind
  | false =>
      rw [hkind, if_neg Bool.false_ne_true] at hchecked
      simp only [check_bind_eq_ok, reject_eq_ok] at hchecked
      obtain ⟨hbuiltIn, hvalid, hfresh⟩ := hchecked
      refine ⟨hfresh, Bool.noConfusion, fun _ => hvalid, fun evidence penaltyBps haction => ?_⟩
      simp only [checkBuiltInEvent, haction, check_bind_eq_ok, reject_eq_ok, not_or, not_not]
        at hbuiltIn
      exact hbuiltIn.2.1.1

/-- The chain sustains a block that has passed the checks before a vote exactly if it affords what
they leave open. -/
theorem sustains_iff_affords {unixNow : Option ℕ} {block : Block}
    (h : rt.validateScheduledBlock unixNow block = .ok ()) :
    rt.chain.Sustains block ↔ rt.chain.Affords block := by
  have hmem : ∀ {done e}, done ++ [e] <+: block.systemEvents → e ∈ block.systemEvents :=
    fun hprefix => hprefix.subset (List.mem_append_right _ (List.mem_singleton_self _))
  constructor
  · intro hsustains
    refine ⟨hsustains.capped, hsustains.transactions, fun done e hprefix => ?_⟩
    have hevent := hsustains.events done e hprefix
    exact ⟨fun _ => hevent.valid, fun _ => hevent.due, hevent.once,
      fun evidence penaltyBps haction => (hevent.unslashed evidence penaltyBps haction).2,
      hevent.funds⟩
  · intro haffords
    refine ⟨haffords.capped, haffords.transactions, fun done e hprefix => ?_⟩
    have hevent := haffords.events done e hprefix
    obtain ⟨hfresh, hdue, hvalid, hpenalty⟩ := event_of_validated h (hmem hprefix)
    refine ⟨?_, ?_, hfresh, hevent.once, fun evidence penaltyBps haction => ?_, hevent.funds⟩
    · cases hkind : isConfigured e.action with
      | true => exact hevent.valid hkind
      | false => exact hvalid hkind
    · cases hkind : isConfigured e.action with
      | true => exact hdue hkind
      | false => exact hevent.due hkind
    · refine ⟨?_, hevent.unslashed evidence penaltyBps haction⟩
      rw [hpenalty evidence penaltyBps haction]
      decide

/-- A proposed block that passes the checks can be applied exactly if the chain affords it. -/
theorem applyBlock_iff_of_checked {env : Env} {p : SignedProposal}
    (hblock : rt.checkProposedBlock env p.block = .ok ())
    (hcheck : rt.consensus.checkProposal p = .ok ()) :
    (∃ chain', rt.chain.applyBlock p.block = .ok chain') ↔ rt.chain.Affords p.block := by
  obtain ⟨hheight, hprevious, hhash⟩ := block_of_checkProposal hblock hcheck
  rw [checkProposedBlock, check_bind_eq_ok] at hblock
  rw [Blockchain.applyBlock_ok_iff hheight hprevious hhash, Blockchain.executable_iff_sustains,
    sustains_iff_affords hblock.2]

/-- So can a block that the node has voted for. -/
theorem applyBlock_iff_of_reply {env : Env} {p : SignedProposal} {vote : ConsensusMessage}
    (h : (rt.receiveProposal env p).2 = .ok vote) :
    (∃ chain', rt.chain.applyBlock p.block = .ok chain') ↔ rt.chain.Affords p.block := by
  rcases rt.receiveProposal_cases env p with ⟨c', e, -, hcase⟩ | ⟨hblock, hcheck, -, -⟩
  · rw [hcase] at h
    cases h
  · exact applyBlock_iff_of_checked hblock hcheck

theorem Ready.receiveProposal (h : Ready rt) {env : Env} {p : SignedProposal}
    (hsafe : VotesSafely env rt (.call (.receiveProposal p))) :
    Ready (rt.receiveProposal env p).1 := by
  have hpoised := h.poised.receiveProposal env p
  rcases rt.receiveProposal_cases env p with ⟨c', e, hcore, hcase⟩ | ⟨hblock, hcheck, hphase, hcase⟩
  · rw [hcase]
    exact h.sameCore hcore
  · rw [hcase] at hpoised ⊢
    have hcore := rt.consensus.sameCore_noteValidRound p
    have hlands : Lands rt.chain p.block :=
      .inl ((applyBlock_iff_of_checked hblock hcheck).2 (hsafe hblock hcheck hphase))
    refine hpoised.ready (hcore.height.le.trans h.height_le) (fun _ b hb => ?_) fun hfinalized => ?_
    · obtain rfl := Option.some.inj hb
      exact hlands
    · cases hfinalized

/-! ## Votes -/

/-- The end of a height whose block has a certificate. -/
theorem afterVote_finalized {env : Env} {b : Block} (hphase : rt.consensus.phase = .finalized)
    (hpending : rt.pending = some b) (hfinalized : rt.consensus.finalized = some b.hash)
    (hverify : (rt.ownCertificate b).verify rt.validators = .ok ()) :
    (rt.afterVote env).1 = match rt.chain.applyBlock b with
      | .error _ => { rt with pending := none }
      | .ok chain =>
          { rt with
            pending := none, chain, validBlock := none, validRoundPrevotes := []
            finalized := rt.finalized ++ [rt.ownCertificate b]
            pendingFinalized := rt.pendingFinalized ++ [rt.ownCertificate b] } := by
  have hnot : rt.consensus.phase ≠ .precommit := by
    rw [hphase]
    exact ConsensusPhase.noConfusion
  unfold afterVote finalizePending
  rw [if_neg hnot, if_pos hphase, hpending]
  dsimp only
  rw [if_neg (not_not.2 hfinalized)]
  simp only [ownCertificate] at hverify ⊢
  rw [hverify]
  cases rt.chain.applyBlock b <;> rfl

/-- A finalized candidate that can be applied is applied. -/
theorem ready_finalized {env : Env} (h : Poised rt)
    (hheight : rt.consensus.height ≤ rt.chain.tipHeight + 1)
    (hphase : rt.consensus.phase = .finalized) {b : Block} (hpending : rt.pending = some b)
    (hfinalized : rt.consensus.finalized = some b.hash)
    (hverify : (rt.ownCertificate b).verify rt.validators = .ok ())
    (hlands : Lands rt.chain b) : Ready (rt.afterVote env).1 := by
  have hcandidate : ¬(rt.consensus.phase = .prevote ∨ rt.consensus.phase = .precommit) := by
    rw [hphase]
    rintro (h | h) <;> cases h
  have hpoised := h.afterVote env
  rw [afterVote_finalized hphase hpending hfinalized hverify] at hpoised ⊢
  cases happly : rt.chain.applyBlock b with
  | error e =>
      rw [happly] at hpoised
      have hholds : rt.chain.Holds b.hash := by
        rcases hlands with ⟨chain', h⟩ | h
        · cases happly.symm.trans h
        · exact h
      exact hpoised.ready hheight (fun h => absurd h hcandidate)
        fun _ => ⟨rfl, _, hfinalized, hholds⟩
  | ok chain =>
      rw [happly] at hpoised
      have htip := Blockchain.tipHeight_applyBlock happly
      have hholds : chain.Holds b.hash := by
        obtain ⟨-, -, -, l, -, rfl⟩ := Blockchain.applyBlock_eq_ok.1 happly
        exact ⟨b, List.mem_append_right _ (List.mem_singleton_self b), rfl⟩
      refine hpoised.ready ?_ (fun h => absurd h hcandidate) fun _ => ⟨rfl, _, hfinalized, hholds⟩
      dsimp only
      omega

theorem Ready.afterVote (h : Ready rt) (env : Env) : Ready (rt.afterVote env).1 := by
  rcases rt.afterVote_cases env with hcase | ⟨b, -, -, hcase⟩ | ⟨b, hphase, hpending, -⟩ |
    ⟨b, chain, hphase, hpending, -⟩
  · rw [hcase]
    exact h
  · rw [hcase]
    exact h.record _
  · rw [(h.settled hphase).1] at hpending
    cases hpending
  · rw [(h.settled hphase).1] at hpending
    cases hpending

theorem Ready.receiveVote (h : Ready rt) (env : Env) (vote : ConsensusMessage) :
    Ready (rt.receiveVote env vote).1 := by
  rcases rt.receiveVote_cases env vote with ⟨c', e, hcore, hcase⟩ |
    ⟨hcheck, hproposal, c₁, hcore, hcase⟩
  · rw [hcase]
    exact h.sameCore hcore
  · rw [hcase]
    have hpoised := h.poised.counted env hcheck hproposal hcore
    have hcertified := h.poised.certified env hcheck hproposal hcore
    have hsame := (c₁.addVote vote).sameRound_advancePhase vote
    obtain ⟨hframe, hconsensus, hpending⟩ :=
      frame_counted rt env vote ((c₁.addVote vote).advancePhase vote)
    generalize rt.counted env vote ((c₁.addVote vote).advancePhase vote) = rt₁ at *
    rw [← hconsensus] at hsame
    have hheight : rt₁.consensus.height ≤ rt₁.chain.tipHeight + 1 := by
      rw [hframe.chain, hsame.height]
      exact hcore.height.le.trans h.height_le
    have hlands : rt.consensus.phase = .prevote ∨ rt.consensus.phase = .precommit →
        ∀ b, rt₁.pending = some b → Lands rt₁.chain b := by
      rw [hpending, hframe.chain]
      exact fun hphase b => h.lands hphase
    have hstart : (c₁.addVote vote).phase = rt.consensus.phase := hcore.phase
    rcases (c₁.addVote vote).advancePhase_cases vote with hstep | ⟨-, hprevote, -, hstep⟩ |
      ⟨-, hnot, -, hstep⟩
    · rw [hstep] at hconsensus
      have hphase : rt₁.consensus.phase = rt.consensus.phase := by rw [hconsensus, hstart]
      refine Ready.afterVote (hpoised.ready hheight (by rwa [hphase]) ?_) env
      rw [hphase, hpending, hframe.chain, hconsensus]
      show _ → _ ∧ ∃ x, c₁.finalized = _ ∧ _
      rw [hcore.finalized]
      exact h.settled
    · rw [hstep] at hconsensus
      refine Ready.afterVote (hpoised.ready hheight (fun _ => ?_) ?_) env
      · exact hlands (.inl (hstart.symm.trans hprevote))
      · rw [hconsensus]
        intro hphase
        cases hphase
    · have hphase : rt₁.consensus.phase = .finalized := by rw [hconsensus, hstep]
      obtain ⟨b, hb, hprecommit, hfinalized, hverify⟩ :=
        hcertified (hstart ▸ hnot) (hconsensus ▸ hphase)
      rw [← hpending] at hb
      rw [← hframe.validators] at hverify
      exact ready_finalized hpoised hheight hphase hb hfinalized hverify
        (hlands (.inr hprecommit) b hb)

theorem readyReplay (env : Env) : ReplayRule env Ready (fun _ _ => True) (fun _ _ => True) where
  receive _ v h _ := h.receiveVote env v
  keep _ _ _ _ _ _ := trivial
  keepSent _ _ _ _ _ _ := trivial
  reply _ _ _ _ _ _ := ⟨trivial, trivial⟩
  deferred _ _ _ _ := trivial
  store rt votes h _ :=
    have hpoised : Poised { rt with deferredVotes := votes } :=
      h.poised.congr rfl rfl rfl fun _ => rfl
    hpoised.ready h.height_le (fun hphase _ => h.lands hphase) h.settled
  storeKeep _ _ _ _ := trivial
  storeSent _ _ _ _ := trivial

/-! ## Blocks from peers -/

/-- The chain has grown under a node, and its candidate still lands. -/
theorem Ready.grown (h : Ready rt) (hconsensus : rt'.consensus = rt.consensus)
    (hpending : rt'.pending = rt.pending) (hprecommits : rt'.precommits = rt.precommits)
    (hvalidators : rt'.validators = rt.validators)
    (htip : rt.chain.tipHeight ≤ rt'.chain.tipHeight)
    (hblocks : ∀ b ∈ rt.chain.blocks, b ∈ rt'.chain.blocks)
    (hlands : ∀ b, rt.pending = some b → Lands rt.chain b → Lands rt'.chain b) : Ready rt' := by
  have hholds : ∀ x, rt.chain.Holds x → rt'.chain.Holds x := by
    intro x ⟨b, hb, hx⟩
    exact ⟨b, hblocks b hb, hx⟩
  refine (h.poised.congr hconsensus hprecommits hvalidators fun _ => hpending).ready ?_ ?_ ?_
  · rw [hconsensus]
    have := h.height_le
    omega
  · rw [hconsensus, hpending]
    exact fun hphase b hb => hlands b hb (h.lands hphase hb)
  · rw [hconsensus, hpending]
    intro hphase
    obtain ⟨hnone, x, hx, hchain⟩ := h.settled hphase
    exact ⟨hnone, x, hx, hholds x hchain⟩

/-- The candidate is not replaced by the first block that is applied. -/
theorem KeepsCandidate.lands {blocks : List Block} (h : rt.KeepsCandidate blocks)
    {chain : Blockchain} (hblocks : ∀ b ∈ rt.chain.blocks, b ∈ chain.blocks)
    (hfirst : chain = rt.chain ∨ ∃ b',
      blocks.find? (fun x => rt.chain.tipHeight < x.height) = some b' ∧
        b'.height = rt.chain.tipHeight + 1 ∧ b' ∈ chain.blocks)
    {b : Block} (hpending : rt.pending = some b) (hlands : Lands rt.chain b) : Lands chain b := by
  rcases hfirst with rfl | ⟨b', hfind, hheight, hb'⟩
  · exact hlands
  · rcases hlands with ⟨chain', happly⟩ | ⟨known, hknown, hhash⟩
    · have hnext := (Blockchain.applyBlock_eq_ok.1 happly).1
      exact .inr ⟨b', hb', h b b' hpending hfind (hheight.trans hnext.symm)⟩
    · exact .inr ⟨known, hblocks known hknown, hhash⟩

/-- The first certificate above the tip decides which block follows the tip. -/
theorem applySyncLoop_first (env : Env) (certificates : List FinalityCertificate)
    (rt : ConsensusRuntime) (applied : ℕ) :
    (applySyncLoop env certificates rt applied).1.chain = rt.chain ∨
      ∃ b', (certificates.map (·.block)).find? (fun x => rt.chain.tipHeight < x.height) = some b' ∧
        b'.height = rt.chain.tipHeight + 1 ∧
        b' ∈ (applySyncLoop env certificates rt applied).1.chain.blocks := by
  induction certificates generalizing applied with
  | nil => exact .inl rfl
  | cons c rest ih =>
      unfold applySyncLoop
      cases hone : rt.applySyncCertificate env c with
      | error e => exact .inl rfl
      | ok result =>
          have hacceptable := acceptable_of_applySyncCertificate hone
          have hwhich := applySyncCertificate_of_acceptable hacceptable
          rw [hone] at hwhich
          split_ifs at hwhich with hknown
          · cases hwhich
            rw [List.map_cons, List.find?_cons_of_neg (by simpa using hknown)]
            exact ih _
          · cases hwhich
            obtain ⟨-, hnext⟩ := hacceptable
            rw [if_neg hknown] at hnext
            obtain ⟨hheight, -, extended, happly⟩ := hnext
            refine .inr ⟨c.block, ?_, hheight, ?_⟩
            · rw [List.map_cons]
              exact List.find?_cons_of_pos (by simpa using hknown)
            · obtain ⟨n, hsynced, -⟩ := applySyncLoop_synced env rest
                { rt with chain := rt.chain.offer c.block, finalized := rt.finalized ++ [c] }
                (applied + 1)
              refine hsynced.blocks _ ?_
              rw [Blockchain.offer, happly]
              obtain ⟨-, -, -, l, -, rfl⟩ := Blockchain.applyBlock_eq_ok.1 happly
              exact List.mem_append_right _ (List.mem_singleton_self _)

theorem Ready.applySyncCertificates (h : Ready rt) {env : Env}
    {certificates : List FinalityCertificate}
    (hsafe : rt.AllOrNothing env certificates ∨ rt.KeepsCandidate (certificates.map (·.block))) :
    Ready (rt.applySyncCertificates env certificates).1 := by
  obtain ⟨n, hsynced, hcount⟩ := applySyncLoop_synced env certificates rt 0
  have hfirst := applySyncLoop_first env certificates rt 0
  have houtcome := @applySyncLoop_of_allOrNothing _ env certificates rt 0
  unfold ConsensusRuntime.applySyncCertificates
  generalize applySyncLoop env certificates rt 0 = result at *
  obtain ⟨rt₁, result⟩ := result
  have hkept : (∀ b, rt.pending = some b → Lands rt.chain b → Lands rt₁.chain b) → Ready rt₁ :=
    h.grown hsynced.consensus hsynced.pending hsynced.precommits hsynced.validators
      (hsynced.tipHeight ▸ Nat.le_add_right _ _) hsynced.blocks
  cases result with
  | error e =>
      refine hkept fun b hpending hlands => ?_
      rcases hsafe with hwhole | hkeeps
      · rcases houtcome hwhole with hchain | ⟨total, ⟨⟩⟩
        rw [hchain]
        exact hlands
      · exact hkeeps.lands hsynced.blocks hfirst hpending hlands
  | ok total =>
      have htotal := hcount total rfl
      dsimp only at htotal ⊢
      split_ifs with hzero
      · refine hkept fun b _ hlands => ?_
        rw [hsynced.unchanged (by omega)]
        exact hlands
      · refine ready_openNextHeight ?_ env ?_
        · exact h.poised.congr hsynced.consensus hsynced.precommits hsynced.validators
            fun _ => hsynced.pending
        · have hheight := h.height_le
          have htip := hsynced.tipHeight
          rw [hsynced.consensus]
          dsimp only at htip
          omega

theorem Ready.applySyncBatch (h : Ready rt) {env : Env} {blocks : List Block}
    (hkeeps : rt.KeepsCandidate blocks) : Ready (applySyncBatch env blocks rt 0).1 := by
  obtain ⟨chain, hcase, htip, hblocks, hfirst⟩ := applySyncBatch_grown env blocks rt 0
  rw [hcase]
  exact h.grown rfl rfl rfl rfl htip hblocks fun b hpending hlands =>
    hkeeps.lands hblocks hfirst hpending hlands

/-! ## Runs -/

theorem Ready.replaceBootstrapValidators (h : Ready rt) (env : Env) {validators : List Validator}
    (hpower : listedPower validators ≤ u64Max) :
    Ready (rt.replaceBootstrapValidators env validators).1 := by
  rcases rt.replaceBootstrapValidators_cases env validators with hcase | ⟨htip, -, c, hnew, hcase⟩
  · rw [hcase]
    exact h
  · rw [hcase]
    exact .entered (seated_new hnew hpower rfl rfl rfl) rfl rfl (Nat.le_add_left _ _)

theorem Ready.installCertifiedSnapshot (h : Ready rt) (env : Env) (snapshot : StateSnapshot)
    (certificate : SnapshotCertificate) :
    Ready (rt.installCertifiedSnapshot env snapshot certificate).1 := by
  unfold ConsensusRuntime.installCertifiedSnapshot
  cases hrestored : rt.restoreSnapshot snapshot certificate with
  | error e => exact h
  | ok restored =>
      cases restored with
      | none => exact h
      | some chain =>
          obtain ⟨-, -, hlt, hfrom, -⟩ := restoreSnapshot_eq_some.1 hrestored
          have htip := (fromSnapshotWithStaking_spec hfrom).1
          have hle := h.height_le
          dsimp only
          rw [BftConsensus.startRound_of_le (.inl (by omega))]
          exact .entered (h.seated.congr rfl rfl rfl) rfl rfl (by rw [← htip]; exact le_rfl)

theorem Ready.forceTimeoutForTest (h : Ready rt) (hnone : rt.precommits = [])
    (hround : rt.pending.isSome = true → rt.consensus.round < u32Max) :
    Ready rt.forceTimeoutForTest.1 := by
  unfold ConsensusRuntime.forceTimeoutForTest BftConsensus.onTimeout
  cases hnext : checkedAdd u32Max rt.consensus.round 1 with
  | none =>
      have hpending : rt.pending = none := by
        rw [← Option.not_isSome_iff_eq_none]
        intro hsome
        have hlt := hround hsome
        have hfits : checkedAdd u32Max rt.consensus.round 1 = some (rt.consensus.round + 1) :=
          checkedAdd_eq_some.2 ⟨rfl, hlt⟩
        cases hnext.symm.trans hfits
      have hframe : Frame [] rt { rt with pending := none } :=
        ⟨rfl, rfl, rfl, rfl, rfl, fun _ => .inl, fun _ => .inl⟩
      exact h.stayed hframe ⟨.refl _, hpending.symm, rfl⟩
  | some next =>
      obtain ⟨rfl, -⟩ := checkedAdd_eq_some.1 hnext
      dsimp only
      rw [BftConsensus.startRound_of_le (.inr ⟨rfl, Nat.le_succ _⟩)]
      exact .entered (h.seated.congr rfl rfl rfl) rfl hnone h.height_le

theorem Ready.timeout (h : Ready rt) (env : Env) (now : ℕ) :
    Ready (rt.timeoutIfDueWithRoundChange env now).1 := by
  obtain ⟨rt₁, hrt₁, hframe, hcase⟩ := rt.timeoutIfDueWithRoundChange_cases env now
  have hready : Ready rt₁ := by
    rcases hrt₁ with rfl | rfl
    · exact h
    · exact h.record _
  rcases hcase with hstayed | hjumped
  · exact hready.stayed hframe hstayed
  · exact hready.jumped hframe hjumped

theorem Ready.run (h : Ready rt) {env : Env} {call : Call}
    (hsafe : VotesSafely env rt (.call call)) : Ready (rt.run env call).1 := by
  have hidle : ∀ rt' : ConsensusRuntime, Frame [] rt rt' → Stayed rt rt' → Ready rt' :=
    fun _ => h.stayed
  cases call with
  | makeProposal block =>
      rcases rt.makeProposal_cases env block with hcase | ⟨_, _, _, _, _, hcase⟩
      · simp only [ConsensusRuntime.run, hcase]
        exact h
      · simp only [ConsensusRuntime.run, hcase]
        exact h.record _
  | receiveProposal p => exact h.receiveProposal hsafe
  | receiveVote vote => exact h.receiveVote env vote
  | deferVote vote =>
      obtain ⟨hframe, hstayed⟩ := rt.frame_deferVote vote
      exact h.stayed hframe hstayed
  | replayDeferredVotes => exact ((readyReplay env).replay h).1
  | receiveRoundChange m =>
      obtain ⟨hframe, hstayed | hjumped⟩ := rt.receiveRoundChange_cases env m
      · exact h.stayed hframe hstayed
      · exact h.jumped hframe hjumped
  | timeoutIfDueWithRoundChange now => exact h.timeout env now
  | applySyncCertificates certificates => exact h.applySyncCertificates hsafe
  | advanceAfterFinalization => exact h.advanceAfterFinalization env
  | restartPhaseTimeout now =>
      exact hidle _ ⟨rfl, rfl, rfl, rfl, rfl, fun _ => .inl, fun _ => .inl⟩ ⟨.refl _, rfl, rfl⟩
  | takeEvidence =>
      exact hidle _ ⟨rfl, rfl, rfl, rfl, rfl, fun _ => .inl, fun _ => .inl⟩
        ⟨by constructor <;> rfl, rfl, rfl⟩
  | takeFinalized =>
      exact hidle _ ⟨rfl, rfl, rfl, rfl, rfl, fun _ => .inl, fun _ => .inl⟩ ⟨.refl _, rfl, rfl⟩

theorem Ready.perform (h : Ready rt) {env : Env} {op : Operation} (hsafe : VotesSafely env rt op) :
    Ready (rt.perform env op) := by
  cases op with
  | call call => exact h.run hsafe
  | timeoutIfDue now => exact h.timeout env now
  | forceTimeoutForTest => exact h.forceTimeoutForTest hsafe.1 hsafe.2
  | applySyncBatch blocks => exact h.applySyncBatch hsafe
  | importCertificateHistory certificates =>
      obtain ⟨finalized, hcase⟩ := rt.importCertificateHistory_eq certificates
      simp only [ConsensusRuntime.perform, hcase]
      exact h.grown rfl rfl rfl rfl le_rfl (fun _ => id) fun _ _ => id
  | installCertifiedSnapshot snapshot certificate =>
      exact h.installCertifiedSnapshot env snapshot certificate
  | replaceBootstrapValidators validators => exact h.replaceBootstrapValidators env hsafe
  | configure => exact h.grown rfl rfl rfl rfl le_rfl (fun _ => id) fun _ _ => id

theorem ready_prepared {validators : List Validator} (hstart : Prepared validators rt)
    (hpower : listedPower validators ≤ u64Max) : Ready rt := by
  have hpoised := poised_prepared hstart hpower
  obtain ⟨chain, self, timeouts, instant, base, _, _, _, _, _, hbase, rfl⟩ := hstart
  simp only [withSigner, bind_eq_ok, pure_eq_ok] at hbase
  obtain ⟨c, hnew, rfl⟩ := hbase
  exact hpoised.ready_entered rfl le_rfl

/-- In every run whose operations keep to the condition, a block that the node votes for can be
applied exactly if the chain affords it, and a node at the end of a height has the finalized block
on its chain. -/
theorem finalized_on_chain_of_operated {validators : List Validator} {rt₀ : ConsensusRuntime}
    (hstart : Prepared validators rt₀) (hpower : listedPower validators ≤ u64Max)
    (hrun : Operated VotesSafely rt₀ rt) :
    (∀ env p vote, (rt.receiveProposal env p).2 = .ok vote →
      ((∃ chain', rt.chain.applyBlock p.block = .ok chain') ↔ rt.chain.Affords p.block)) ∧
    (rt.consensus.phase = .finalized →
      ∃ x, rt.consensus.finalized = some x ∧ rt.chain.Holds x) := by
  have hready : Ready rt := by
    induction hrun with
    | refl => exact ready_prepared hstart hpower
    | tail _ hstep ih =>
        obtain ⟨env, op, hsafe, rfl⟩ := hstep
        exact ih.perform hsafe
  refine ⟨fun env p vote hvote => applyBlock_iff_of_reply hvote, fun hphase => ?_⟩
  exact (hready.settled hphase).2

end

end ConsensusRuntime

namespace Lone

open ConsensusRuntime

attribute [local instance] agreementCrypto

/-- A transfer whose nonce is not the next one of its sender. -/
def gapTransaction : Transaction :=
  { sender := self, receiver := self, amount := 1, fee := 0, nonce := 7, action := .transfer
    signature := "" }

def gapBlock : Block := Block.new 1 chain.tipHash 5 self [gapTransaction]

/-- A round of the lone node: the proposal and its own two votes. -/
theorem operated_round {allowed : Env → ConsensusRuntime → Operation → Prop} (b : Block)
    (hproposal : allowed env node (.call (.receiveProposal (proposal b))))
    (hvotes : ∀ rt voteType, allowed env rt (.call (.receiveVote (vote b voteType)))) :
    Operated allowed node (((node.run env (.receiveProposal (proposal b))).1.run env
      (.receiveVote (vote b .prevote))).1.run env (.receiveVote (vote b .precommit))).1 := by
  have hproposed : Operated allowed node (node.run env (.receiveProposal (proposal b))).1 :=
    .single ⟨env, .call (.receiveProposal (proposal b)), hproposal, rfl⟩
  have hlocked := hproposed.tail ⟨env, .call (.receiveVote (vote b .prevote)), hvotes _ _, rfl⟩
  exact hlocked.tail ⟨env, .call (.receiveVote (vote b .precommit)), hvotes _ _, rfl⟩

theorem gapBlock_refused (chain' : Blockchain) : node.chain.applyBlock gapBlock ≠ .ok chain' := by
  intro happly
  obtain ⟨-, -, -, l, hl, -⟩ := Blockchain.applyBlock_eq_ok.1 happly
  obtain ⟨-, ⟨hadmissible, -⟩, -⟩ := Blockchain.execute_ok_iff.1 ⟨l, hl⟩
  have hnonce : 7 = node.chain.nextNonce self := hadmissible.allowed.nonce
  exact absurd hnonce (by decide +kernel)

/-- A candidate that cannot be applied is dropped. -/
theorem finalizePending_refused {rt : ConsensusRuntime} {b : Block} (hpending : rt.pending = some b)
    (hrefused : ∀ chain', rt.chain.applyBlock b ≠ .ok chain') :
    rt.finalizePending.1 = { rt with pending := none } := by
  rw [finalizePending]
  split
  next hnone => exact nomatch hnone.symm.trans hpending
  next b' hsome =>
    obtain rfl := Option.some.inj (hsome.symm.trans hpending)
    dsimp only
    split_ifs
    · rfl
    · split
      · rfl
      · split
        · rfl
        next chain' happly => exact absurd happly (hrefused chain')

/-- The node votes for the block, finalizes it and cannot apply it. -/
theorem voted_block_not_applied :
    Prepared validatorSet.validators node ∧
      (∃ vote, (node.receiveProposal env (proposal gapBlock)).2 = .ok vote) ∧
      (∀ chain', node.chain.applyBlock gapBlock ≠ .ok chain') ∧
      ∃ rt, Operated (fun _ _ _ => True) node rt ∧ rt.consensus.phase = .finalized ∧
        rt.consensus.finalized = some gapBlock.hash ∧ rt.pending = none ∧
        ¬rt.chain.Holds gapBlock.hash := by
  have hhash : gapBlock.hash = gapBlock.calculateHash := Block.new_hash ..
  have hne : gapBlock.hash ≠ "" := by decide +kernel
  have hblock : node.checkProposedBlock env gapBlock = .ok () := by decide +kernel
  have hrun := @operated_round (fun _ _ _ => True) gapBlock trivial fun _ _ => trivial
  have hdropped : ((decided gapBlock).resetDeadline env).finalizePending.1 = _ :=
    finalizePending_refused rfl gapBlock_refused
  rw [run_proposal rfl hhash hne hblock, run_prevote rfl, run_precommit, hdropped] at hrun
  refine ⟨prepared, ⟨_, congrArg Prod.snd (receiveProposal_node rfl hhash hne hblock)⟩,
    gapBlock_refused, _, hrun, rfl, rfl, rfl, ?_⟩
  have hmissing : gapBlock.hash ∉ node.chain.blocks.map (·.hash) := by decide +kernel
  intro ⟨b, hb, hhash⟩
  exact hmissing (List.mem_map.2 ⟨b, hb, hhash⟩)

/-- The empty block is applied. -/
theorem finalized_on_chain_of_operated_round :
    ∃ rt, Operated VotesSafely node rt ∧ rt.consensus.finalized = some block.hash ∧
      rt.chain.Holds block.hash := by
  have haffords : node.chain.Affords block :=
    ⟨by decide +kernel, forall_prefix_nil, forall_prefix_nil⟩
  have hrun := @operated_round VotesSafely block (fun _ _ _ => haffords) fun _ _ => trivial
  obtain ⟨proposed, locked, finished, rfl, rfl, rfl, -, -, hfinalized, hphase, -⟩ := finishes
  obtain ⟨x, hx, hholds⟩ := (finalized_on_chain_of_operated prepared powers_fit hrun).2 hphase
  obtain rfl : x = block.hash := Option.some.inj (hx.symm.trans hfinalized)
  exact ⟨_, hrun, hfinalized, hholds⟩

end Lone

end IeumChain
