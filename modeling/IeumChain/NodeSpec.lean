import IeumChain.ConsensusSpec

/-!
# What a call on a node can do

For each call the possible new states, with the conditions under which they arise.
The proofs about whole runs go through these cases and not through the code of the
calls.
-/
namespace IeumChain

open ByteCodec Outcome MachineWords FiniteMap

namespace ConsensusRuntime

/-- Nothing was signed or applied, and every vote in store was there before or is new. -/
structure Frame (new : List ConsensusMessage) (rt rt' : ConsensusRuntime) : Prop where
  chain : rt'.chain = rt.chain
  signed : rt'.signed = rt.signed
  validator : rt'.validator = rt.validator
  validators : rt'.validators = rt.validators
  finalized : rt'.finalized = rt.finalized
  deferredVotes : ∀ v ∈ rt'.deferredVotes, v ∈ rt.deferredVotes ∨ v ∈ new
  precommits : ∀ v ∈ rt'.precommits, v ∈ rt.precommits ∨ v ∈ new

theorem Frame.refl (new : List ConsensusMessage) (rt : ConsensusRuntime) : Frame new rt rt :=
  ⟨rfl, rfl, rfl, rfl, rfl, fun _ => .inl, fun _ => .inl⟩

theorem Frame.trans {new : List ConsensusMessage} {a b c : ConsensusRuntime} (h : Frame new a b)
    (h' : Frame new b c) : Frame new a c where
  chain := h'.chain.trans h.chain
  signed := h'.signed.trans h.signed
  validator := h'.validator.trans h.validator
  validators := h'.validators.trans h.validators
  finalized := h'.finalized.trans h.finalized
  deferredVotes v hv := (h'.deferredVotes v hv).elim (h.deferredVotes v) .inr
  precommits v hv := (h'.precommits v hv).elim (h.precommits v) .inr

/-- The node after a request to its signer. -/
def record (rt : ConsensusRuntime) (payload : SignedPayload) : ConsensusRuntime :=
  { rt with signed := rt.signed ++ [payload] }

/-- The machine after a proposal was taken up. -/
def accepted (rt : ConsensusRuntime) (p : SignedProposal) : BftConsensus :=
  { rt.consensus.noteValidRound p with proposal := some p.block.hash, phase := .prevote }

/-- The node right after a vote was counted and before it reacts to it. -/
def counted (rt : ConsensusRuntime) (env : Env) (vote : ConsensusMessage) (c : BftConsensus) :
    ConsensusRuntime :=
  ({ rt with consensus := c }.collectPrecommit vote).afterPhaseChange env rt.consensus.phase

theorem frame_collectPrecommit (rt : ConsensusRuntime) (vote : ConsensusMessage) :
    Frame [vote] rt (rt.collectPrecommit vote) ∧
      (rt.collectPrecommit vote).consensus = rt.consensus ∧
      (rt.collectPrecommit vote).pending = rt.pending := by
  unfold collectPrecommit
  split_ifs
  · refine ⟨⟨rfl, rfl, rfl, rfl, rfl, fun _ => .inl, fun v hv => ?_⟩, rfl, rfl⟩
    exact List.mem_append.1 hv
  · exact ⟨.refl _ _, rfl, rfl⟩

theorem frame_afterPhaseChange (new : List ConsensusMessage) (rt : ConsensusRuntime) (env : Env)
    (previousPhase : ConsensusPhase) :
    Frame new rt (rt.afterPhaseChange env previousPhase) ∧
      (rt.afterPhaseChange env previousPhase).consensus = rt.consensus ∧
      (rt.afterPhaseChange env previousPhase).pending = rt.pending := by
  unfold afterPhaseChange resetDeadline
  split_ifs
  all_goals exact ⟨⟨rfl, rfl, rfl, rfl, rfl, fun _ => .inl, fun _ => .inl⟩, rfl, rfl⟩

/-- Counting changes the machine and possibly the collected precommits, the valid block and
the clock, nothing else. -/
theorem frame_counted (rt : ConsensusRuntime) (env : Env) (vote : ConsensusMessage)
    (c : BftConsensus) :
    Frame [vote] rt (rt.counted env vote c) ∧ (rt.counted env vote c).consensus = c ∧
      (rt.counted env vote c).pending = rt.pending := by
  obtain ⟨hcollect, hc₁, hp₁⟩ := frame_collectPrecommit { rt with consensus := c } vote
  obtain ⟨hphase, hc₂, hp₂⟩ := frame_afterPhaseChange [vote]
    ({ rt with consensus := c }.collectPrecommit vote) env rt.consensus.phase
  have hframe := hcollect.trans hphase
  refine ⟨⟨hframe.chain, hframe.signed, hframe.validator, hframe.validators, hframe.finalized,
    hframe.deferredVotes, hframe.precommits⟩, ?_, ?_⟩
  · rw [counted, hc₂, hc₁]
  · rw [counted, hp₂, hp₁]

/-- The certificate a node forms for the block it finalizes. -/
def ownCertificate (rt : ConsensusRuntime) (block : Block) : FinalityCertificate :=
  { block, round := rt.consensus.round, precommits := rt.precommits }

theorem frame_recordRoundChange (rt : ConsensusRuntime) (m : SignedRoundChange) :
    Frame [] rt (rt.recordRoundChange m) :=
  ⟨rfl, rfl, rfl, rfl, rfl, fun _ => .inl, fun _ => .inl⟩

/-- The round goes on as it was. -/
structure Stayed (rt rt' : ConsensusRuntime) : Prop where
  core : rt.consensus.SameCore rt'.consensus
  pending : rt'.pending = rt.pending
  precommits : rt'.precommits = rt.precommits

theorem Stayed.refl (rt : ConsensusRuntime) : Stayed rt rt := ⟨.refl _, rfl, rfl⟩

theorem Stayed.trans {a b c : ConsensusRuntime} (h : Stayed a b) (h' : Stayed b c) : Stayed a c :=
  ⟨h.core.trans h'.core, h'.pending.trans h.pending, h'.precommits.trans h.precommits⟩

theorem frame_pruneRoundChanges (rt : ConsensusRuntime) :
    Frame [] rt rt.pruneRoundChanges ∧ Stayed rt rt.pruneRoundChanges := by
  unfold pruneRoundChanges
  split_ifs
  · split
    · exact ⟨⟨rfl, rfl, rfl, rfl, rfl, fun _ => .inl, fun _ => .inl⟩, .refl _, rfl, rfl⟩
    · exact ⟨.refl _ _, .refl _⟩
  · exact ⟨.refl _ _, .refl _⟩

/-- The node has moved to a later round of its height. -/
def Jumped (rt rt' : ConsensusRuntime) : Prop :=
  ∃ c target, rt.consensus.SameCore c ∧ rt.consensus.round < target ∧
    rt'.consensus = c.enterRound rt.consensus.height target ∧ rt'.pending = none ∧
    rt'.precommits = []

theorem jumpToRound_cases (rt : ConsensusRuntime) (env : Env) {target : ℕ}
    (hround : rt.consensus.round < target) :
    Frame [] rt (rt.jumpToRound env rt.consensus.height target).1 ∧
      Jumped rt (rt.jumpToRound env rt.consensus.height target).1 := by
  unfold jumpToRound
  rw [BftConsensus.startRound_of_le (.inr ⟨rfl, hround.le⟩)]
  refine ⟨⟨rfl, rfl, rfl, rfl, rfl, fun v hv => .inl (List.mem_of_mem_filter hv), ?_⟩,
    rt.consensus, target, .refl _, hround, rfl, rfl, rfl⟩
  intro v hv
  cases hv

/-- Leaving a round that timed out: the node is in a later round afterwards, unless rounds
are used up. -/
theorem leaveTimedOutRound_cases (rt : ConsensusRuntime) (now : ℕ) (m : SignedRoundChange) :
    Frame [] rt (rt.leaveTimedOutRound now m).1 ∧
      (rt.consensus.round = m.round →
        Stayed rt (rt.leaveTimedOutRound now m).1 ∨ Jumped rt (rt.leaveTimedOutRound now m).1) ∧
      (rt.consensus.round ≠ m.round →
        (rt.leaveTimedOutRound now m).1.consensus = rt.consensus ∧
          (rt.leaveTimedOutRound now m).1.pending = none ∧
          (rt.leaveTimedOutRound now m).1.precommits = []) := by
  have hclear : ∀ c deadline, Frame [] rt { ({ rt with consensus := c }.clearRound) with
      deadline := deadline } := by
    intro c deadline
    refine ⟨rfl, rfl, rfl, rfl, rfl, fun _ => .inl, fun v hv => ?_⟩
    cases hv
  unfold leaveTimedOutRound
  by_cases hround : rt.consensus.round = m.round
  · rw [if_pos hround]
    unfold BftConsensus.onTimeout
    cases hnext : checkedAdd u32Max rt.consensus.round 1 with
    | none =>
        refine ⟨⟨rfl, rfl, rfl, rfl, rfl, fun _ => .inl, fun _ => .inl⟩,
          fun _ => .inl ⟨.refl _, rfl, rfl⟩, fun h => absurd hround h⟩
    | some next =>
        obtain ⟨rfl, -⟩ := checkedAdd_eq_some.1 hnext
        dsimp only
        rw [BftConsensus.startRound_of_le (.inr ⟨rfl, Nat.le_succ _⟩)]
        exact ⟨hclear _ _,
          fun _ => .inr ⟨rt.consensus, _, .refl _, Nat.lt_succ_self _, rfl, rfl, rfl⟩,
          fun h => absurd hround h⟩
  · rw [if_neg hround]
    exact ⟨hclear _ _, fun h => absurd h hround, fun _ => ⟨rfl, rfl, rfl⟩⟩

/-- Opening the next height is refused, or enters its round zero. -/
theorem openNextHeight_cases (rt : ConsensusRuntime) (env : Env) :
    Frame [] rt (rt.openNextHeight env).1 ∧
      ((rt.openNextHeight env).1 = rt ∨
        (rt.consensus.height < rt.chain.tipHeight + 1 ∨
            rt.consensus.height = rt.chain.tipHeight + 1 ∧ rt.consensus.round = 0) ∧
          (rt.openNextHeight env).1.consensus =
            rt.consensus.enterRound (rt.chain.tipHeight + 1) 0 ∧
          (rt.openNextHeight env).1.pending = none ∧
          (rt.openNextHeight env).1.precommits = []) := by
  unfold openNextHeight
  rcases rt.consensus.startRound_cases (rt.chain.tipHeight + 1) 0 with ⟨e, h⟩ | ⟨hle, h⟩
  · rw [h]
    exact ⟨.refl _ _, .inl rfl⟩
  · rw [h]
    refine ⟨⟨rfl, rfl, rfl, rfl, rfl, fun _ => .inl, fun v hv => ?_⟩, .inr ⟨?_, rfl, rfl, rfl⟩⟩
    · cases hv
    · omega

/-- After finalization a node stays where it is or opens the next height. -/
theorem advanceAfterFinalization_cases (rt : ConsensusRuntime) (env : Env) :
    (rt.advanceAfterFinalization env).1 = rt ∨
      rt.consensus.phase = .finalized ∧
        (rt.advanceAfterFinalization env).1 = (rt.openNextHeight env).1 := by
  unfold advanceAfterFinalization
  split_ifs with hphase
  · exact .inl rfl
  · exact .inr ⟨not_not.1 hphase, rfl⟩

theorem frame_deferVote (rt : ConsensusRuntime) (vote : ConsensusMessage) :
    Frame [vote] rt (rt.deferVote vote) ∧ Stayed rt (rt.deferVote vote) := by
  unfold deferVote
  split_ifs
  · exact ⟨.refl _ _, .refl _⟩
  all_goals
    refine ⟨⟨rfl, rfl, rfl, rfl, rfl, fun v hv => ?_, fun _ => .inl⟩, .refl _, rfl, rfl⟩
    rcases List.mem_append.1 hv with hv | hv
  · exact .inl (List.mem_of_mem_drop hv)
  · exact .inr hv
  · exact .inl hv
  · exact .inr hv

/-- Replacing the validators is refused, or starts height one from scratch. -/
theorem replaceBootstrapValidators_cases (rt : ConsensusRuntime) (env : Env)
    (validators : List Validator) :
    (rt.replaceBootstrapValidators env validators).1 = rt ∨
      rt.chain.tipHeight = 0 ∧ rt.pending = none ∧
        ∃ c, BftConsensus.new validators = .ok c ∧
          (rt.replaceBootstrapValidators env validators).1 =
            ({ rt with consensus := c.enterRound 1 0, validators }.clearHeight).resetDeadline
              env := by
  unfold replaceBootstrapValidators
  split_ifs with hrefused
  · exact .inl rfl
  · rw [not_or, not_not, Bool.not_eq_true, Option.isSome_eq_false_iff,
      Option.isNone_iff_eq_none] at hrefused
    cases hnew : BftConsensus.new validators with
    | error e => exact .inl rfl
    | ok c => exact .inr ⟨hrefused.1, hrefused.2, c, rfl, rfl⟩

theorem fromSnapshotWithStaking_spec {snapshot : StateSnapshot} {chain : Blockchain}
    (h : Blockchain.fromSnapshotWithStaking snapshot = .ok chain) :
    chain.tipHeight = snapshot.height ∧ chain.toLedger = snapshot.ledger := by
  simp only [Blockchain.fromSnapshotWithStaking, check_bind_eq_ok, pure_eq_ok] at h
  obtain ⟨-, -, rfl⟩ := h
  exact ⟨rfl, rfl⟩

section
variable [Crypto]

theorem signVote_fst (rt : ConsensusRuntime) (env : Env) (height round : ℕ) (voteType : VoteType)
    (blockHash : String) :
    (rt.signVote env height round voteType blockHash).1 =
      rt.record (.vote height round voteType blockHash) := by
  unfold signVote sign record
  cases env.sign _ <;> rfl

/-- A signed vote that is handed out is the one the signer was asked for. -/
theorem signVote_reply {rt : ConsensusRuntime} {env : Env} {height round : ℕ} {voteType : VoteType}
    {blockHash : String} {m : ConsensusMessage}
    (h : (rt.signVote env height round voteType blockHash).2 = .ok m) :
    (m.validatorId = rt.validator ∧ m.height = height ∧ m.round = round ∧ m.voteType = voteType ∧
        m.blockHash = blockHash) ∧
      .vote m.height m.round m.voteType m.blockHash ∈
        (rt.signVote env height round voteType blockHash).1.signed := by
  rw [signVote_fst]
  unfold signVote sign at h
  cases hsignature : env.sign _ with
  | error e =>
      rw [hsignature] at h
      cases h
  | ok signature =>
      rw [hsignature] at h
      dsimp only at h
      cases hverify : ConsensusMessage.verify _ with
      | error e =>
          rw [hverify] at h
          cases h
      | ok u =>
          rw [hverify] at h
          cases h
          exact ⟨⟨rfl, rfl, rfl, rfl, rfl⟩, List.mem_append_right _ (List.mem_singleton_self _)⟩

/-- A proposal is refused without consequences for the round, or taken up and prevoted. -/
theorem receiveProposal_cases (rt : ConsensusRuntime) (env : Env) (p : SignedProposal) :
    (∃ c' e, rt.consensus.SameCore c' ∧
        rt.receiveProposal env p = ({ rt with consensus := c' }, .error e)) ∨
      (rt.checkProposedBlock env p.block = .ok () ∧ rt.consensus.checkProposal p = .ok () ∧
        rt.consensus.phase = .propose ∧
        (rt.receiveProposal env p).1 =
          (({ rt with consensus := rt.accepted p, pending := some p.block }.resetDeadline
            env).record (.vote p.height p.round .prevote p.block.hash))) := by
  unfold receiveProposal
  cases hblock : rt.checkProposedBlock env p.block with
  | error e => exact .inl ⟨rt.consensus, e, .refl _, rfl⟩
  | ok u =>
      dsimp only
      rcases rt.consensus.handleProposal_cases p with ⟨c', e, h, hcore⟩ | ⟨hcheck, hphase, -, h⟩
      · rw [h]
        exact .inl ⟨c', e, hcore, rfl⟩
      · rw [h]
        exact .inr ⟨rfl, hcheck, hphase, signVote_fst ..⟩

/-- After a counted vote: nothing, a precommit of the candidate, or the end of the height
with or without the candidate on the chain. -/
theorem afterVote_cases (rt : ConsensusRuntime) (env : Env) :
    (rt.afterVote env).1 = rt ∨
      (∃ b, rt.consensus.phase = .precommit ∧ rt.pending = some b ∧
        (rt.afterVote env).1 =
          rt.record (.vote b.height rt.consensus.round .precommit b.hash)) ∨
      (∃ b, rt.consensus.phase = .finalized ∧ rt.pending = some b ∧
        (rt.afterVote env).1 = { rt with pending := none }) ∨
      (∃ b chain, rt.consensus.phase = .finalized ∧ rt.pending = some b ∧
        rt.consensus.finalized = some b.hash ∧
        (rt.ownCertificate b).verify rt.validators = .ok () ∧
        rt.chain.applyBlock b = .ok chain ∧
        (rt.afterVote env).1 =
          { rt with
            pending := none, chain, validBlock := none, validRoundPrevotes := []
            finalized := rt.finalized ++ [rt.ownCertificate b]
            pendingFinalized := rt.pendingFinalized ++ [rt.ownCertificate b] }) := by
  unfold afterVote
  split_ifs with hprecommit hfinalized
  · cases hpending : rt.pending with
    | none => exact .inl rfl
    | some b => exact .inr (.inl ⟨b, hprecommit, rfl, signVote_fst ..⟩)
  · unfold finalizePending
    cases hpending : rt.pending with
    | none => exact .inl rfl
    | some b =>
        dsimp only
        split_ifs with hhash
        · exact .inr (.inr (.inl ⟨b, hfinalized, rfl, rfl⟩))
        · cases hverify : (rt.ownCertificate b).verify rt.validators with
          | error e =>
              refine .inr (.inr (.inl ⟨b, hfinalized, rfl, ?_⟩))
              simp only [ownCertificate] at hverify
              simp only [hverify]
          | ok u =>
              have hverify' := hverify
              simp only [ownCertificate] at hverify'
              cases happly : rt.chain.applyBlock b with
              | error e =>
                  refine .inr (.inr (.inl ⟨b, hfinalized, rfl, ?_⟩))
                  simp only [hverify']
              | ok chain =>
                  refine .inr (.inr (.inr ⟨b, chain, hfinalized, rfl, not_not.1 hhash, hverify, happly,
                    ?_⟩))
                  simp only [hverify']
                  rfl
  · exact .inl rfl

/-- A vote is refused without consequences for the round, or counted and reacted to. -/
theorem receiveVote_cases (rt : ConsensusRuntime) (env : Env) (vote : ConsensusMessage) :
    (∃ c' e, rt.consensus.SameCore c' ∧
        rt.receiveVote env vote = ({ rt with consensus := c' }, .error e)) ∨
      (rt.consensus.checkVote vote = .ok () ∧ rt.consensus.proposal = some vote.blockHash ∧
        ∃ c₁, rt.consensus.SameCore c₁ ∧
          rt.receiveVote env vote =
            (rt.counted env vote ((c₁.addVote vote).advancePhase vote)).afterVote env) := by
  unfold receiveVote
  rcases rt.consensus.handle_cases vote with ⟨c', e, h, hcore⟩ | ⟨hcheck, hproposal, c₁, hcore, h⟩
  · rw [h]
    exact .inl ⟨c', e, hcore, rfl⟩
  · rw [h]
    exact .inr ⟨hcheck, hproposal, c₁, hcore, rfl⟩

/-! ## Round changes -/

/-- A carried valid value never touches the round. -/
theorem adoptRoundChangeValue_frame (rt : ConsensusRuntime) (env : Env) (m : SignedRoundChange) :
    Frame [] rt (rt.adoptRoundChangeValue env m).1 ∧
      Stayed rt (rt.adoptRoundChangeValue env m).1 := by
  have hkeep : ∀ c', rt.consensus.SameCore c' →
      Frame [] rt { rt with consensus := c' } ∧ Stayed rt { rt with consensus := c' } :=
    fun c' hc' => ⟨⟨rfl, rfl, rfl, rfl, rfl, fun _ => .inl, fun _ => .inl⟩, hc', rfl, rfl⟩
  unfold adoptRoundChangeValue
  cases m.validValue with
  | none => exact hkeep _ (.refl _)
  | some valid =>
      dsimp only
      cases rt.checkRoundChangeValue env m valid with
      | error e => exact hkeep _ (.refl _)
      | ok u =>
          have hcore := rt.consensus.sameCore_adoptValidValue valid.block.hash valid.validRound
            valid.prevotes
          dsimp only
          generalize rt.consensus.adoptValidValue valid.block.hash valid.validRound
            valid.prevotes = adopted at hcore
          obtain ⟨c', result⟩ := adopted
          cases result with
          | error e => exact hkeep c' hcore
          | ok u =>
              dsimp only
              split_ifs
              · exact ⟨⟨rfl, rfl, rfl, rfl, rfl, fun _ => .inl, fun _ => .inl⟩, hcore, rfl, rfl⟩
              · exact hkeep c' hcore

/-- A round change is only filed, or it takes the node to a later round of its height. -/
theorem receiveRoundChange_cases (rt : ConsensusRuntime) (env : Env) (m : SignedRoundChange) :
    Frame [] rt (rt.receiveRoundChange env m).1 ∧
      (Stayed rt (rt.receiveRoundChange env m).1 ∨ Jumped rt (rt.receiveRoundChange env m).1) := by
  unfold receiveRoundChange
  cases hcheck : rt.checkRoundChange m with
  | error e => exact ⟨.refl _ _, .inl (.refl _)⟩
  | ok u =>
      have hheight : m.height = rt.consensus.height := by
        simp only [checkRoundChange, check_bind_eq_ok, reject_eq_ok, not_not] at hcheck
        exact hcheck.2.2.1
      obtain ⟨hframe, hstayed⟩ := rt.adoptRoundChangeValue_frame env m
      dsimp only
      generalize rt.adoptRoundChangeValue env m = adopted at hframe hstayed
      obtain ⟨rt₁, result⟩ := adopted
      cases result with
      | error e => exact ⟨hframe, .inl hstayed⟩
      | ok u =>
          have hrecord := frame_recordRoundChange rt₁ m
          have hrecorded : Stayed rt₁ (rt₁.recordRoundChange m) := ⟨.refl _, rfl, rfl⟩
          obtain ⟨hprune, hpruned⟩ := frame_pruneRoundChanges (rt₁.recordRoundChange m)
          have hframe₂ := hframe.trans (hrecord.trans hprune)
          have hstayed₂ := hstayed.trans (hrecorded.trans hpruned)
          have hcore₂ := hstayed₂.core
          dsimp only at hframe₂ hstayed₂ hcore₂ ⊢
          generalize (rt₁.recordRoundChange m).pruneRoundChanges = rt₂ at *
          split
          · exact ⟨hframe₂, .inl hstayed₂⟩
          · split_ifs with hjump
            · rw [hheight, ← hcore₂.height]
              obtain ⟨hframe₃, c, target', hc, hlt, hconsensus, hnone⟩ :=
                rt₂.jumpToRound_cases env hjump.2
              refine ⟨hframe₂.trans hframe₃, .inr ⟨c, target', hcore₂.trans hc, ?_, ?_, hnone⟩⟩
              · rw [← hcore₂.round]
                exact hlt
              · rw [hconsensus, hcore₂.height]
            · exact ⟨hframe₂, .inl hstayed₂⟩

/-- A timeout signs at most a round change, and then leaves the round or does nothing. -/
theorem timeoutIfDueWithRoundChange_cases (rt : ConsensusRuntime) (env : Env) (now : ℕ) :
    ∃ rt₁, (rt₁ = rt ∨ rt₁ = rt.record (.roundChange rt.chain.chainId rt.chain.genesisCommitment
          rt.consensus.height rt.consensus.round)) ∧
      Frame [] rt₁ (rt.timeoutIfDueWithRoundChange env now).1 ∧
      (Stayed rt₁ (rt.timeoutIfDueWithRoundChange env now).1 ∨
        Jumped rt₁ (rt.timeoutIfDueWithRoundChange env now).1) := by
  unfold timeoutIfDueWithRoundChange
  split_ifs with hdue
  · exact ⟨rt, .inl rfl, .refl _ _, .inl (.refl _)⟩
  · refine ⟨_, .inr rfl, ?_⟩
    generalize hrt₁ : rt.record (.roundChange rt.chain.chainId rt.chain.genesisCommitment
      rt.consensus.height rt.consensus.round) = rt₁
    have hsign : ∀ payload, rt.sign env payload =
        (rt.record payload, env.sign (payload.bytes rt.validator)) := fun _ => rfl
    have hkeep : Frame [] rt₁ rt₁ ∧ (Stayed rt₁ rt₁ ∨ Jumped rt₁ rt₁) := ⟨.refl _ _, .inl (.refl _)⟩
    have hround₁ : rt₁.consensus.round = rt.consensus.round := by rw [← hrt₁]; rfl
    dsimp only
    rw [hsign, hrt₁]
    cases env.sign _ with
    | error e => exact hkeep
    | ok signature =>
        dsimp only
        generalize hm : SignedRoundChange.mk rt₁.chain.chainId rt₁.chain.genesisCommitment
          rt.consensus.height rt.consensus.round rt₁.validator rt.reportedValidValue
          signature = m
        have hmround : m.round = rt₁.consensus.round := by rw [← hm, hround₁]
        cases m.verify with
        | error e => exact hkeep
        | ok u =>
            obtain ⟨hframe, hcases⟩ := rt₁.receiveRoundChange_cases env m
            dsimp only
            generalize rt₁.receiveRoundChange env m = received at hframe hcases
            obtain ⟨rt₂, result⟩ := received
            cases result with
            | error e => exact ⟨hframe, hcases⟩
            | ok moved =>
                obtain ⟨hleave, hsame, hother⟩ := rt₂.leaveTimedOutRound_cases now m
                dsimp only at hcases hframe ⊢
                refine ⟨hframe.trans hleave, ?_⟩
                rcases hcases with hstayed | ⟨c, target, hcore, hlt, hc, -, -⟩
                · have hcore := hstayed.core
                  rcases hsame (by rw [hcore.round, hmround]) with
                    hstayed' | ⟨c', target', hcore', hlt', hc', hnone'⟩
                  · exact .inl (hstayed.trans hstayed')
                  · refine .inr ⟨c', target', hcore.trans hcore', ?_, ?_, hnone'⟩
                    · rw [← hcore.round]
                      exact hlt'
                    · rw [hc', hcore.height]
                · have hne : rt₂.consensus.round ≠ m.round := by
                    rw [hc, hmround]
                    exact hlt.ne'
                  obtain ⟨hc', hnone'⟩ := hother hne
                  exact .inr ⟨c, target, hcore, hlt, hc'.trans hc, hnone'⟩

/-! ## Certificates from peers -/

/-- The chain grew by certified blocks; nothing else changed. -/
structure Synced (certificates : List FinalityCertificate) (rt rt' : ConsensusRuntime)
    (applied : ℕ) : Prop where
  consensus : rt'.consensus = rt.consensus
  pending : rt'.pending = rt.pending
  signed : rt'.signed = rt.signed
  validator : rt'.validator = rt.validator
  validators : rt'.validators = rt.validators
  deferredVotes : rt'.deferredVotes = rt.deferredVotes
  precommits : rt'.precommits = rt.precommits
  tipHeight : rt'.chain.tipHeight = rt.chain.tipHeight + applied
  unchanged : applied = 0 → rt'.chain = rt.chain
  blocks : ∀ b ∈ rt.chain.blocks, b ∈ rt'.chain.blocks
  finalized : ∀ c ∈ rt'.finalized, c ∈ rt.finalized ∨
    c ∈ certificates ∧ c.verify rt.validators = .ok ()

theorem Synced.refl (certificates : List FinalityCertificate) (rt : ConsensusRuntime) :
    Synced certificates rt rt 0 :=
  ⟨rfl, rfl, rfl, rfl, rfl, rfl, rfl, rfl, fun _ => rfl, fun _ => id, fun _ => .inl⟩

theorem applySyncCertificate_cases {rt rt' : ConsensusRuntime} {env : Env}
    {certificate : FinalityCertificate} {isNew : Bool}
    (h : rt.applySyncCertificate env certificate = .ok (rt', isNew)) :
    Synced [certificate] rt rt' (if isNew then 1 else 0) := by
  simp only [applySyncCertificate, check_bind_eq_ok] at h
  obtain ⟨hverify, h⟩ := h
  split_ifs at h with hnew
  · simp only [bind_eq_ok, okOr_eq_ok, reject_eq_ok, pure_eq_ok, Prod.mk.injEq] at h
    obtain ⟨-, -, -, -, rfl, rfl⟩ := h
    exact ⟨rfl, rfl, rfl, rfl, rfl, rfl, rfl, rfl, fun _ => rfl, fun _ => id, fun _ => .inl⟩
  · simp only [check_bind_eq_ok, reject_eq_ok, not_not] at h
    obtain ⟨-, -, h⟩ := h
    simp only [bind_eq_ok, pure_eq_ok, Prod.mk.injEq] at h
    obtain ⟨chain, hchain, rfl, rfl⟩ := h
    refine ⟨rfl, rfl, rfl, rfl, rfl, rfl, rfl, Blockchain.tipHeight_applyBlock hchain,
      fun hzero => (Nat.one_ne_zero hzero).elim, fun b hb => Blockchain.mem_blocks_applyBlock hchain hb,
      ?_⟩
    intro c hc
    rcases List.mem_append.1 hc with hc | hc
    · exact .inl hc
    · rw [List.mem_singleton] at hc
      subst hc
      exact .inr ⟨List.mem_singleton_self _, hverify⟩

theorem applySyncLoop_synced (env : Env) (certificates : List FinalityCertificate)
    (rt : ConsensusRuntime) (applied : ℕ) :
    ∃ n, Synced certificates rt (applySyncLoop env certificates rt applied).1 n ∧
      ∀ total, (applySyncLoop env certificates rt applied).2 = .ok total → total = applied + n := by
  induction certificates generalizing rt applied with
  | nil =>
      refine ⟨0, .refl _ _, ?_⟩
      rintro total ⟨⟩
      rfl
  | cons certificate rest ih =>
      unfold applySyncLoop
      cases hone : rt.applySyncCertificate env certificate with
      | error e =>
          refine ⟨0, .refl _ _, ?_⟩
          rintro total ⟨⟩
      | ok result =>
          obtain ⟨rt₁, isNew⟩ := result
          have h₁ := applySyncCertificate_cases hone
          dsimp only
          obtain ⟨n, h₂, hcount⟩ := ih rt₁ (if isNew then applied + 1 else applied)
          refine ⟨(if isNew then 1 else 0) + n, ?_, ?_⟩
          · refine ⟨h₂.consensus.trans h₁.consensus, h₂.pending.trans h₁.pending,
              h₂.signed.trans h₁.signed, h₂.validator.trans h₁.validator,
              h₂.validators.trans h₁.validators, h₂.deferredVotes.trans h₁.deferredVotes,
              h₂.precommits.trans h₁.precommits, ?_, ?_, fun b hb => h₂.blocks b (h₁.blocks b hb), ?_⟩
            · rw [h₂.tipHeight, h₁.tipHeight, add_assoc]
            · intro hzero
              rw [h₂.unchanged (by omega), h₁.unchanged (by omega)]
            · intro c hc
              rcases h₂.finalized c hc with hc | ⟨hmem, hverify⟩
              · rcases h₁.finalized c hc with hc | ⟨hmem, hverify⟩
                · exact .inl hc
                · rw [List.mem_singleton] at hmem
                  exact .inr ⟨hmem ▸ List.mem_cons_self .., hverify⟩
              · rw [h₁.validators] at hverify
                exact .inr ⟨List.mem_cons_of_mem _ hmem, hverify⟩
          · intro total htotal
            have := hcount total htotal
            split_ifs at this ⊢ <;> omega

/-- Certificates extend the chain, and if one did, the node opens the next height. -/
theorem applySyncCertificates_cases (rt : ConsensusRuntime) (env : Env)
    (certificates : List FinalityCertificate) :
    ∃ rt₁ n, Synced certificates rt rt₁ n ∧
      ((rt.applySyncCertificates env certificates).1 = rt₁ ∧
          (n = 0 ∨ ∃ e, (rt.applySyncCertificates env certificates).2 = .error e) ∨
        0 < n ∧ (rt.applySyncCertificates env certificates).1 = (rt₁.openNextHeight env).1) := by
  obtain ⟨n, hsynced, hcount⟩ := applySyncLoop_synced env certificates rt 0
  unfold applySyncCertificates
  generalize applySyncLoop env certificates rt 0 = result at hsynced hcount
  obtain ⟨rt₁, result⟩ := result
  refine ⟨rt₁, n, hsynced, ?_⟩
  cases result with
  | error e => exact .inl ⟨rfl, .inr ⟨e, rfl⟩⟩
  | ok applied =>
      have happlied := hcount applied rfl
      dsimp only
      split_ifs with hzero
      · exact .inl ⟨rfl, .inl (by omega)⟩
      · refine .inr ⟨by omega, rfl⟩

/-- Making a proposal signs at most that proposal. -/
theorem makeProposal_cases (rt : ConsensusRuntime) (env : Env) (block : Block) :
    (rt.makeProposal env block).1 = rt ∨
      ∃ height round hash validRound prevotes,
        (rt.makeProposal env block).1 =
          rt.record (.proposal height round hash validRound prevotes) := by
  unfold makeProposal
  cases rt.prepareProposal block with
  | error e => exact .inl rfl
  | ok content =>
      obtain ⟨b, validRound, prevotes⟩ := content
      refine .inr ⟨b.height, rt.consensus.round, b.hash, validRound, prevotes, ?_⟩
      dsimp only [sign]
      cases env.sign _ <;> rfl

/-- The reply to a proposal is the node's prevote, and it was signed. -/
theorem receiveProposal_reply {rt : ConsensusRuntime} {env : Env} {p : SignedProposal}
    {m : ConsensusMessage} (h : (rt.receiveProposal env p).2 = .ok m) :
    .vote m.height m.round m.voteType m.blockHash ∈ (rt.receiveProposal env p).1.signed := by
  unfold receiveProposal at h ⊢
  cases hblock : rt.checkProposedBlock env p.block with
  | error e =>
      rw [hblock] at h
      cases h
  | ok u =>
      rw [hblock] at h
      dsimp only at h ⊢
      generalize rt.consensus.handleProposal p = handled at h ⊢
      obtain ⟨c, result⟩ := handled
      cases result with
      | error e => cases h
      | ok u => exact (signVote_reply h).2

/-- The reply to a vote is the node's precommit of its candidate, and it was signed. -/
theorem receiveVote_reply {rt : ConsensusRuntime} {env : Env} {vote m : ConsensusMessage}
    (h : (rt.receiveVote env vote).2 = .ok (some m)) :
    rt.consensus.checkVote vote = .ok () ∧
      ∃ b, rt.pending = some b ∧ m.validatorId = rt.validator ∧ m.height = b.height ∧
        m.round = rt.consensus.round ∧ m.voteType = .precommit ∧ m.blockHash = b.hash ∧
        .vote m.height m.round m.voteType m.blockHash ∈ (rt.receiveVote env vote).1.signed := by
  rcases rt.receiveVote_cases env vote with ⟨c', e, -, hcase⟩ | ⟨hcheck, -, c₁, hcore, hcase⟩
  · rw [hcase] at h
    cases h
  · refine ⟨hcheck, ?_⟩
    rw [hcase] at h ⊢
    obtain ⟨hframe, hconsensus, hpending⟩ :=
      frame_counted rt env vote ((c₁.addVote vote).advancePhase vote)
    have hround : ((c₁.addVote vote).advancePhase vote).round = rt.consensus.round := by
      rw [← hcore.round]
      exact ((c₁.addVote vote).sameRound_advancePhase vote).round
    generalize rt.counted env vote ((c₁.addVote vote).advancePhase vote) = rt₁ at *
    unfold afterVote at h ⊢
    split_ifs at h ⊢ with hprecommit hfinalized
    · cases hsome : rt₁.pending with
      | none => simp [hsome] at h
      | some b =>
          simp only [hsome] at h ⊢
          have hreply : (rt₁.signVote env b.height rt₁.consensus.round .precommit b.hash).2 =
              .ok m := by
            obtain ⟨a, ha, hsome⟩ := Outcome.map_eq_ok.1 h
            cases hsome
            exact ha
          obtain ⟨⟨hvalidator, hheight, hround', htype, hhash⟩, hsigned⟩ := signVote_reply hreply
          exact ⟨b, by rw [← hpending, hsome], hvalidator.trans hframe.validator, hheight,
            by rw [hround', hconsensus, hround], htype, hhash, hsigned⟩
    · unfold finalizePending at h
      cases hsome : rt₁.pending with
      | none => simp [hsome] at h
      | some b =>
          simp only [hsome] at h
          split_ifs at h
          split at h
          · cases h
          · split at h <;> cases h
    · cases h

/-! ## Starting over -/

theorem restoreSnapshot_eq_none {rt : ConsensusRuntime} {snapshot : StateSnapshot}
    {certificate : SnapshotCertificate} (h : rt.restoreSnapshot snapshot certificate = .ok none) :
    certificate.verifySnapshot snapshot rt.validators = .ok () ∧
      snapshot.height ≤ rt.chain.tipHeight := by
  simp only [restoreSnapshot, check_bind_eq_ok] at h
  obtain ⟨hverify, -, h⟩ := h
  split_ifs at h with hheight
  · exact ⟨hverify, hheight⟩
  · simp [bind_eq_ok] at h

/-- What it takes to restore a chain, and what its ledger is. -/
theorem restoreSnapshot_eq_some {rt : ConsensusRuntime} {snapshot : StateSnapshot}
    {certificate : SnapshotCertificate} {chain : Blockchain} :
    rt.restoreSnapshot snapshot certificate = .ok (some chain) ↔
      certificate.verifySnapshot snapshot rt.validators = .ok () ∧
        (snapshot.chainId = rt.chain.chainId ∧
          snapshot.genesisCommitment = rt.chain.genesisCommitment) ∧
        rt.chain.tipHeight < snapshot.height ∧
        Blockchain.fromSnapshotWithStaking snapshot = .ok chain ∧
        Blockchain.stateHash chain.toLedger = snapshot.stateHash := by
  simp only [restoreSnapshot, check_bind_eq_ok, reject_eq_ok, not_or, not_not]
  refine and_congr_right fun _ => and_congr_right fun _ => ?_
  split_ifs with hheight
  · simp [hheight]
  · simp only [bind_eq_ok, pure_eq_ok, Option.some.injEq, reject_eq_ok, not_not]
    constructor
    · rintro ⟨restored, hfrom, -, hhash, rfl⟩
      exact ⟨not_le.1 hheight, hfrom, hhash⟩
    · rintro ⟨-, hfrom, hhash⟩
      exact ⟨chain, hfrom, (), hhash, rfl⟩

/-- A snapshot is ignored or refused, or the chain continues from it at its height. -/
theorem installCertifiedSnapshot_cases (rt : ConsensusRuntime) (env : Env)
    (snapshot : StateSnapshot) (certificate : SnapshotCertificate) :
    (rt.installCertifiedSnapshot env snapshot certificate).1 = rt ∨
      rt.chain.tipHeight < snapshot.height ∧
        (rt.installCertifiedSnapshot env snapshot certificate).1.chain.tipHeight =
          snapshot.height ∧
        (rt.installCertifiedSnapshot env snapshot certificate).1.signed = rt.signed ∧
        ((rt.installCertifiedSnapshot env snapshot certificate).1.consensus = rt.consensus ∧
            (rt.installCertifiedSnapshot env snapshot certificate).1.pending = rt.pending ∨
          (rt.installCertifiedSnapshot env snapshot certificate).1.consensus =
              rt.consensus.enterRound (snapshot.height + 1) 0 ∧
            (rt.installCertifiedSnapshot env snapshot certificate).1.pending = none ∧
            (rt.installCertifiedSnapshot env snapshot certificate).1.precommits = []) := by
  unfold installCertifiedSnapshot
  cases hrestored : rt.restoreSnapshot snapshot certificate with
  | error e => exact .inl rfl
  | ok restored =>
      cases restored with
      | none => exact .inl rfl
      | some chain =>
          obtain ⟨-, -, hlt, hfrom, -⟩ := restoreSnapshot_eq_some.1 hrestored
          have htip := (fromSnapshotWithStaking_spec hfrom).1
          refine .inr ⟨hlt, ?_⟩
          dsimp only
          rcases rt.consensus.startRound_cases (snapshot.height + 1) 0 with ⟨e, h⟩ | ⟨-, h⟩
          · rw [h]
            exact ⟨htip, rfl, .inl ⟨rfl, rfl⟩⟩
          · rw [h]
            exact ⟨htip, rfl, .inr ⟨rfl, rfl, rfl⟩⟩

/-! ## Replaying deferred votes -/

/-- What it takes to carry through a replay a property of the node, one of the votes in store
and one of the votes it emits. -/
structure ReplayRule (env : Env) (P : ConsensusRuntime → Prop)
    (Q R : ConsensusRuntime → ConsensusMessage → Prop) : Prop where
  receive : ∀ rt v, P rt → Q rt v → P (rt.receiveVote env v).1
  keep : ∀ rt v u, P rt → Q rt v → Q rt u → Q (rt.receiveVote env v).1 u
  keepSent : ∀ rt v u, P rt → Q rt v → R rt u → R (rt.receiveVote env v).1 u
  reply : ∀ rt v m, P rt → Q rt v → (rt.receiveVote env v).2 = .ok (some m) →
    Q (rt.receiveVote env v).1 m ∧ R (rt.receiveVote env v).1 m
  deferred : ∀ rt, P rt → ∀ v ∈ rt.deferredVotes, Q rt v
  store : ∀ rt votes, P rt → (∀ v ∈ votes, Q rt v) → P { rt with deferredVotes := votes }
  storeKeep : ∀ rt votes u, Q rt u → Q { rt with deferredVotes := votes } u
  storeSent : ∀ rt votes u, R rt u → R { rt with deferredVotes := votes } u

section
variable {env : Env} {P : ConsensusRuntime → Prop}
  {Q R : ConsensusRuntime → ConsensusMessage → Prop}

theorem ReplayRule.pass (rule : ReplayRule env P Q R) {votes : List ConsensusMessage}
    {rt : ConsensusRuntime} (progressed : Bool) {remaining outbound : List ConsensusMessage}
    (hrt : P rt) (hvotes : ∀ v ∈ votes, Q rt v) (hremaining : ∀ v ∈ remaining, Q rt v)
    (hsent : ∀ v ∈ outbound, R rt v) :
    P (replayPass env votes rt progressed remaining outbound).1 ∧
      ∀ progressed' remaining' outbound',
        (replayPass env votes rt progressed remaining outbound).2 =
          .ok (progressed', remaining', outbound') →
        (∀ v ∈ remaining', Q (replayPass env votes rt progressed remaining outbound).1 v) ∧
          ∀ v ∈ outbound', R (replayPass env votes rt progressed remaining outbound).1 v := by
  induction votes generalizing rt progressed remaining outbound with
  | nil =>
      refine ⟨hrt, ?_⟩
      rintro _ _ _ ⟨⟩
      exact ⟨hremaining, hsent⟩
  | cons vote rest ih =>
      have hvote := hvotes vote (List.mem_cons_self ..)
      have hnext := rule.receive rt vote hrt hvote
      have hkeep := fun u => rule.keep rt vote u hrt hvote
      have hreply := fun m => rule.reply rt vote m hrt hvote
      have hrest : ∀ v ∈ rest, Q (rt.receiveVote env vote).1 v :=
        fun v hv => hkeep v (hvotes v (List.mem_cons_of_mem _ hv))
      have hstay : ∀ v ∈ remaining, Q (rt.receiveVote env vote).1 v :=
        fun v hv => hkeep v (hremaining v hv)
      have hback : ∀ v ∈ remaining ++ [vote], Q (rt.receiveVote env vote).1 v := by
        intro v hv
        rcases List.mem_append.1 hv with hv | hv
        · exact hstay v hv
        · rw [List.mem_singleton.1 hv]
          exact hkeep vote hvote
      have hsent₁ : ∀ v ∈ outbound, R (rt.receiveVote env vote).1 v :=
        fun v hv => rule.keepSent rt vote v hrt hvote (hsent v hv)
      unfold replayPass
      generalize rt.receiveVote env vote = received at *
      obtain ⟨rt₁, result⟩ := received
      dsimp only at *
      cases result with
      | error e =>
          dsimp only
          split_ifs
          · exact ih _ hnext hrest hback hsent₁
          · exact ih _ hnext hrest hstay hsent₁
      | ok reply =>
          cases reply with
          | none => exact ih _ hnext hrest hstay hsent₁
          | some precommit =>
              -- the node's own precommit is fed back before the next stored vote
              obtain ⟨hown, hownSent⟩ := hreply precommit rfl
              have hnext₂ := rule.receive rt₁ precommit hnext hown
              have hkeep₂ := fun u => rule.keep rt₁ precommit u hnext hown
              have hsent₂ : ∀ v ∈ outbound ++ [precommit],
                  R (rt₁.receiveVote env precommit).1 v := by
                intro v hv
                refine rule.keepSent rt₁ precommit v hnext hown ?_
                rcases List.mem_append.1 hv with hv | hv
                · exact hsent₁ v hv
                · rw [List.mem_singleton.1 hv]
                  exact hownSent
              dsimp only
              generalize rt₁.receiveVote env precommit = received at *
              obtain ⟨rt₂, result⟩ := received
              cases result with
              | error e =>
                  refine ⟨hnext₂, ?_⟩
                  rintro _ _ _ ⟨⟩
              | ok reply =>
                  exact ih _ hnext₂ (fun v hv => hkeep₂ v (hrest v hv))
                    (fun v hv => hkeep₂ v (hstay v hv)) hsent₂

theorem ReplayRule.loop (rule : ReplayRule env P Q R) {fuel : ℕ} {rt : ConsensusRuntime}
    {outbound : List ConsensusMessage} (hrt : P rt) (hsent : ∀ v ∈ outbound, R rt v) :
    P (replayLoop env fuel rt outbound).1 ∧
      ∀ outbound', (replayLoop env fuel rt outbound).2 = .ok outbound' →
        ∀ v ∈ outbound', R (replayLoop env fuel rt outbound).1 v := by
  induction fuel generalizing rt outbound with
  | zero =>
      refine ⟨hrt, ?_⟩
      rintro _ ⟨⟩
      exact hsent
  | succ fuel ih =>
      have hvotes := rule.deferred rt hrt
      have hempty : P { rt with deferredVotes := [] } :=
        rule.store rt [] hrt (List.forall_mem_nil _)
      obtain ⟨hpass, hresult⟩ := rule.pass false hempty
        (fun v hv => rule.storeKeep rt [] v (hvotes v hv)) (List.forall_mem_nil _)
        fun v hv => rule.storeSent rt [] v (hsent v hv)
      unfold replayLoop
      generalize replayPass env rt.deferredVotes { rt with deferredVotes := [] } false [] outbound =
        passed at *
      obtain ⟨rt₁, result⟩ := passed
      cases result with
      | error e =>
          refine ⟨hpass, ?_⟩
          rintro _ ⟨⟩
      | ok result =>
          obtain ⟨progressed, remaining, outbound₁⟩ := result
          obtain ⟨hremaining, hsent₁⟩ := hresult _ _ _ rfl
          have hstored := rule.store rt₁ remaining hpass hremaining
          have hsent₂ := fun v hv => rule.storeSent rt₁ remaining v (hsent₁ v hv)
          dsimp only
          split_ifs
          · exact ih hstored hsent₂
          · refine ⟨hstored, ?_⟩
            rintro _ ⟨⟩
            exact hsent₂

/-- A rule for single votes is a rule for the whole replay. -/
theorem ReplayRule.replay (rule : ReplayRule env P Q R) {rt : ConsensusRuntime} (hrt : P rt) :
    P (rt.replayDeferredVotes env).1 ∧
      ∀ outbound, (rt.replayDeferredVotes env).2 = .ok outbound →
        ∀ v ∈ outbound, R (rt.replayDeferredVotes env).1 v :=
  rule.loop hrt (List.forall_mem_nil _)

end

end

end ConsensusRuntime

end IeumChain
