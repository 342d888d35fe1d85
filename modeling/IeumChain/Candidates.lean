import IeumChain.NodeLoop

/-!
# What becomes of a candidate

A node has a candidate only in the middle of a round. A vote that is answered without an
error leaves the candidate in place or finalizes it. A vote whose error is only logged may
have taken the candidate out without applying it; this happens to no candidate that the
chain accepts, and to none that the precommits in sight are too few for.
-/
namespace IeumChain

open Outcome MachineWords FiniteMap

namespace ConsensusRuntime

def HasIncluded (rt : ConsensusRuntime) (tx : Transaction) : Prop :=
  ∃ c ∈ rt.finalized, tx ∈ c.block.transactions

theorem HasIncluded.of_finalized {rt rt' : ConsensusRuntime} {tx : Transaction}
    (hfinalized : rt'.finalized = rt.finalized) (h : rt.HasIncluded tx) : rt'.HasIncluded tx := by
  obtain ⟨c, hc, htx⟩ := h
  exact ⟨c, hfinalized ▸ hc, htx⟩

/-- The candidate or a finalized block holds the transaction. -/
def Carries (rt : ConsensusRuntime) (tx : Transaction) : Prop :=
  tx ∈ rt.pendingTransactions ∨ rt.HasIncluded tx

theorem mem_pendingTransactions {rt : ConsensusRuntime} {tx : Transaction} :
    tx ∈ rt.pendingTransactions ↔ ∃ b, rt.pending = some b ∧ tx ∈ b.transactions := by
  unfold pendingTransactions
  cases rt.pending with
  | none => simp
  | some b => simp

theorem pendingTransactions_congr {rt rt' : ConsensusRuntime} (h : rt'.pending = rt.pending) :
    rt'.pendingTransactions = rt.pendingTransactions := by
  unfold pendingTransactions
  rw [h]

theorem Carries.congr {rt rt' : ConsensusRuntime} {tx : Transaction} (h : rt.Carries tx)
    (hpending : rt'.pending = rt.pending) (hfinalized : ∀ c ∈ rt.finalized, c ∈ rt'.finalized) :
    rt'.Carries tx := by
  rcases h with hcandidate | ⟨c, hc, htx⟩
  · exact .inl (by rwa [pendingTransactions_congr hpending])
  · exact .inr ⟨c, hfinalized c hc, htx⟩

section
variable [Crypto]

/-- Outside the middle of a round there is no candidate. -/
structure Steady (rt : ConsensusRuntime) : Prop where
  poised : Poised rt
  vacant : rt.consensus.phase = .propose ∨ rt.consensus.phase = .finalized → rt.pending = none

variable {rt rt' : ConsensusRuntime} {env : Env} {tx : Transaction} {b : Block}

/-! ## Rounds -/

theorem steady_prepared {validators : List Validator} (hstart : Prepared validators rt)
    (hpower : listedPower validators ≤ u64Max) : Steady rt := by
  refine ⟨poised_prepared hstart hpower, fun _ => ?_⟩
  obtain ⟨_, _, _, _, _, _, _, _, _, _, hbase, rfl⟩ := hstart
  simp only [withSigner, bind_eq_ok, pure_eq_ok] at hbase
  obtain ⟨_, -, rfl⟩ := hbase
  rfl

theorem Steady.stayed {new : List ConsensusMessage} (h : Steady rt) (hframe : Frame new rt rt')
    (hstayed : Stayed rt rt') : Steady rt' := by
  refine ⟨h.poised.stayed hframe hstayed, fun hphase => ?_⟩
  rw [hstayed.pending]
  exact h.vacant (hstayed.core.phase ▸ hphase)

theorem Steady.sameCore {c : BftConsensus} (h : Steady rt) (hcore : rt.consensus.SameCore c) :
    Steady { rt with consensus := c } := by
  have hframe : Frame [] rt { rt with consensus := c } :=
    ⟨rfl, rfl, rfl, rfl, rfl, fun _ => .inl, fun _ => .inl⟩
  exact h.stayed hframe ⟨hcore, rfl, rfl⟩

theorem Steady.congr (h : Steady rt) (hconsensus : rt'.consensus = rt.consensus)
    (hprecommits : rt'.precommits = rt.precommits) (hvalidators : rt'.validators = rt.validators)
    (hpending : rt'.pending = rt.pending) : Steady rt' := by
  refine ⟨h.poised.congr hconsensus hprecommits hvalidators fun _ => hpending, fun hphase => ?_⟩
  rw [hpending]
  exact h.vacant (hconsensus ▸ hphase)

theorem Steady.record (h : Steady rt) (payload : SignedPayload) : Steady (rt.record payload) :=
  h.congr rfl rfl rfl rfl

theorem Steady.jumped {new : List ConsensusMessage} (h : Steady rt) (hframe : Frame new rt rt')
    (hjumped : Jumped rt rt') : Steady rt' := by
  refine ⟨h.poised.jumped hframe hjumped, fun _ => ?_⟩
  obtain ⟨-, -, -, -, -, hnone, -⟩ := hjumped
  exact hnone

theorem Steady.receiveRoundChange (h : Steady rt) (env : Env) (m : SignedRoundChange) :
    Steady (rt.receiveRoundChange env m).1 := by
  obtain ⟨hframe, hstayed | hjumped⟩ := rt.receiveRoundChange_cases env m
  · exact h.stayed hframe hstayed
  · exact h.jumped hframe hjumped

theorem Steady.timeout (h : Steady rt) (env : Env) (now : ℕ) :
    Steady (rt.timeoutIfDueWithRoundChange env now).1 := by
  obtain ⟨rt₁, hrt₁, hframe, hcase⟩ := rt.timeoutIfDueWithRoundChange_cases env now
  have hsteady : Steady rt₁ := by
    rcases hrt₁ with rfl | rfl
    · exact h
    · exact h.record _
  rcases hcase with hstayed | hjumped
  · exact hsteady.stayed hframe hstayed
  · exact hsteady.jumped hframe hjumped

theorem Steady.advanceAfterFinalization (h : Steady rt) (env : Env) :
    Steady (rt.advanceAfterFinalization env).1 := by
  rcases rt.advanceAfterFinalization_cases env with hcase | ⟨-, hcase⟩
  · rw [hcase]
    exact h
  · rw [hcase]
    obtain ⟨-, hsame | ⟨-, -, hnone, -⟩⟩ := rt.openNextHeight_cases env
    · rw [hsame]
      exact h
    · exact ⟨h.poised.openNextHeight env, fun _ => hnone⟩

/-- A timeout that is not due changes nothing. -/
theorem timeout_not_due {now : ℕ} {roundChange : Option SignedRoundChange}
    (h : (rt.timeoutIfDueWithRoundChange env now).2 = .ok (false, roundChange)) :
    (rt.timeoutIfDueWithRoundChange env now).1 = rt := by
  have hleaves : ∀ (rt : ConsensusRuntime) (m : SignedRoundChange),
      (rt.leaveTimedOutRound now m).2 ≠ .ok (false, roundChange) := by
    intro rt m
    unfold leaveTimedOutRound
    dsimp only
    split_ifs
    · cases hresult : rt.consensus.onTimeout with
      | mk c result => cases result <;> simp
    · simp
  unfold timeoutIfDueWithRoundChange at h ⊢
  split_ifs at h ⊢ with hdue
  · rfl
  · dsimp only at h ⊢
    cases hsigned : rt.sign env _ with
    | mk rt₁ signature =>
        rw [hsigned] at h
        cases signature with
        | error e => cases h
        | ok signature =>
            dsimp only at h
            cases hverify : SignedRoundChange.verify _ with
            | error e =>
                rw [hverify] at h
                cases h
            | ok u =>
                rw [hverify] at h
                dsimp only at h
                cases hreceived : rt₁.receiveRoundChange env _ with
                | mk rt₂ result =>
                    rw [hreceived] at h
                    cases result with
                    | error e => cases h
                    | ok moved => exact absurd h (hleaves _ _)

theorem deadline_le_of_left {now : ℕ} {roundChange : Option SignedRoundChange}
    (h : (rt.timeoutIfDueWithRoundChange env now).2 = .ok (true, roundChange)) :
    rt.deadline ≤ now := by
  by_contra hearly
  rw [timeoutIfDueWithRoundChange, if_pos (.inl (not_le.1 hearly))] at h
  cases h

theorem finalized_timeout (rt : ConsensusRuntime) (env : Env) (now : ℕ) :
    (rt.timeoutIfDueWithRoundChange env now).1.finalized = rt.finalized := by
  obtain ⟨rt₁, hrt₁, hframe, -⟩ := rt.timeoutIfDueWithRoundChange_cases env now
  rw [hframe.finalized]
  rcases hrt₁ with rfl | rfl <;> rfl

/-- The message is in order and calls for a later round than the node's. -/
def CallsAway (rt : ConsensusRuntime) (env : Env) (m : SignedRoundChange) : Prop :=
  rt.checkRoundChange m = .ok () ∧ (rt.adoptRoundChangeValue env m).2 = .ok () ∧
    ∃ target, (rt.recordRoundChange m).calledRound m.height m.round = some target ∧
      rt.consensus.round < target

/-- A round change drops the candidate exactly if it calls the node away. -/
theorem pending_receiveRoundChange (rt : ConsensusRuntime) (env : Env) (m : SignedRoundChange) :
    (rt.CallsAway env m → (rt.receiveRoundChange env m).1.pending = none) ∧
      (¬rt.CallsAway env m → (rt.receiveRoundChange env m).1.pending = rt.pending) := by
  obtain ⟨-, hstayed⟩ := rt.adoptRoundChangeValue_frame env m
  cases hcheck : rt.checkRoundChange m with
  | error e =>
      refine ⟨fun hcalls => ?_, fun _ => ?_⟩
      · cases hcheck.symm.trans hcalls.1
      · unfold ConsensusRuntime.receiveRoundChange
        rw [hcheck]
  | ok u =>
      cases hadopt : rt.adoptRoundChangeValue env m with
      | mk rt₁ result =>
          rw [hadopt] at hstayed
          cases result with
          | error e =>
              refine ⟨fun hcalls => ?_, fun _ => ?_⟩
              · have hok := hcalls.2.1
                rw [hadopt] at hok
                cases hok
              · unfold ConsensusRuntime.receiveRoundChange
                rw [hcheck, hadopt]
                exact hstayed.pending
          | ok u =>
              rcases receiveRoundChange_adopted hcheck hadopt with
                ⟨target, hcalled, hlt, hcase⟩ | ⟨hnot, hcase, -⟩
              · have hcalls : rt.CallsAway env m :=
                  ⟨hcheck, by rw [hadopt], target, hcalled, hlt⟩
                refine ⟨fun _ => ?_, fun hstays => absurd hcalls hstays⟩
                obtain ⟨-, hmachine, -, -⟩ := filed_ground rt₁ m
                have hheight : (rt₁.recordRoundChange m).pruneRoundChanges.consensus.height =
                    m.height := by
                  rw [hmachine, height_of_checkRoundChange hcheck, hstayed.core.height]
                have hlater : (rt₁.recordRoundChange m).pruneRoundChanges.consensus.round <
                    target := by
                  rw [hmachine, hstayed.core.round]
                  exact hlt
                obtain ⟨-, -, -, -, -, -, hnone, -⟩ :=
                  (rt₁.recordRoundChange m).pruneRoundChanges.jumpToRound_cases env hlater
                rw [hcase, ← hheight]
                exact hnone
              · refine ⟨fun hcalls => absurd hcalls.2.2 hnot, fun _ => ?_⟩
                have hrecorded : Stayed rt₁ (rt₁.recordRoundChange m) := ⟨.refl _, rfl, rfl⟩
                obtain ⟨-, hpruned⟩ := frame_pruneRoundChanges (rt₁.recordRoundChange m)
                rw [hcase]
                exact (hstayed.trans (hrecorded.trans hpruned)).pending

/-! ## Proposals -/

theorem Steady.receiveProposal (h : Steady rt) (env : Env) (p : SignedProposal) :
    Steady (rt.receiveProposal env p).1 := by
  rcases rt.receiveProposal_cases env p with ⟨c', e, hcore, hcase⟩ | ⟨-, -, -, hcase⟩
  · rw [hcase]
    exact h.sameCore hcore
  · refine ⟨h.poised.receiveProposal env p, fun hphase => ?_⟩
    rw [hcase] at hphase
    rcases hphase with hphase | hphase <;> cases hphase

theorem finalized_receiveProposal (rt : ConsensusRuntime) (env : Env) (p : SignedProposal) :
    (rt.receiveProposal env p).1.finalized = rt.finalized := by
  rcases rt.receiveProposal_cases env p with ⟨c', e, -, hcase⟩ | ⟨-, -, -, hcase⟩
  · rw [hcase]
  · rw [hcase]
    rfl

/-- A proposal does not take the place of a candidate: the node prevotes only without one. -/
theorem carries_receiveProposal (hsteady : Steady rt) (h : rt.Carries tx) (env : Env)
    (p : SignedProposal) :
    (rt.receiveProposal env p).1.Carries tx ∧
      ∀ vote, (rt.receiveProposal env p).2 = .ok vote →
        (rt.receiveProposal env p).1.HasIncluded tx := by
  have hfinalized := rt.finalized_receiveProposal env p
  rcases rt.receiveProposal_cases env p with ⟨c', e, -, hcase⟩ | ⟨-, -, hphase, -⟩
  · rw [hcase]
    exact ⟨h.congr rfl fun _ => id, nofun⟩
  · rcases h with hcandidate | hincluded
    · obtain ⟨b, hb, -⟩ := mem_pendingTransactions.1 hcandidate
      cases hb.symm.trans (hsteady.vacant (.inl hphase))
    · have hincluded' := hincluded.of_finalized hfinalized
      exact ⟨.inr hincluded', fun _ _ => hincluded'⟩

/-- A proposal that the node prevotes is its candidate. -/
theorem pending_of_reply {p : SignedProposal} {vote : ConsensusMessage}
    (h : (rt.receiveProposal env p).2 = .ok vote) :
    (rt.receiveProposal env p).1.pending = some p.block := by
  rcases rt.receiveProposal_cases env p with ⟨c', e, -, hcase⟩ | ⟨-, -, -, hcase⟩
  · rw [hcase] at h
    cases h
  · rw [hcase]
    rfl

/-! ## Votes -/

theorem finalizePending_pending (rt : ConsensusRuntime) : rt.finalizePending.1.pending = none := by
  unfold finalizePending
  cases hpending : rt.pending with
  | none => exact hpending
  | some b =>
      dsimp only
      split_ifs
      · rfl
      · split
        · rfl
        · split <;> rfl

theorem afterVote_pending_of_finalized (h : rt.consensus.phase = .finalized) :
    (rt.afterVote env).1.pending = none := by
  have hnot : rt.consensus.phase ≠ .precommit := by
    rw [h]
    exact ConsensusPhase.noConfusion
  rw [afterVote, if_neg hnot, if_pos h]
  exact rt.finalizePending_pending

theorem Steady.receiveVote (h : Steady rt) (env : Env) (vote : ConsensusMessage) :
    Steady (rt.receiveVote env vote).1 := by
  refine ⟨h.poised.receiveVote env vote, ?_⟩
  rcases rt.receiveVote_cases env vote with ⟨c', e, hcore, hcase⟩ |
    ⟨hcheck, hproposal, c₁, hcore, hcase⟩
  · rw [hcase]
    exact (h.sameCore hcore).vacant
  · rw [hcase]
    obtain ⟨hconsensus, -, -, -⟩ :=
      (rt.counted env vote ((c₁.addVote vote).advancePhase vote)).afterVote_frame env
    obtain ⟨-, hmachine, -⟩ := frame_counted rt env vote ((c₁.addVote vote).advancePhase vote)
    obtain ⟨-, -, -, -, haccepts⟩ := BftConsensus.checkVote_eq_ok hcheck
    have hstart : (c₁.addVote vote).phase = rt.consensus.phase := hcore.phase
    rw [hconsensus]
    rintro (hphase | hphase)
    · -- No vote is counted before the proposal, and none leads back.
      rw [hmachine] at hphase
      rcases (c₁.addVote vote).advancePhase_cases vote with hstep | ⟨-, -, -, hstep⟩ |
        ⟨-, -, -, hstep⟩
      · rw [hstep, hstart] at hphase
        rw [hphase] at haccepts
        cases vote.voteType <;> cases haccepts
      · rw [hstep] at hphase
        cases hphase
      · rw [hstep] at hphase
        cases hphase
    · exact afterVote_pending_of_finalized hphase

theorem steadyReplay (env : Env) : ReplayRule env Steady (fun _ _ => True) (fun _ _ => True) where
  receive _ v h _ := h.receiveVote env v
  keep _ _ _ _ _ _ := trivial
  keepSent _ _ _ _ _ _ := trivial
  reply _ _ _ _ _ _ := ⟨trivial, trivial⟩
  deferred _ _ _ _ := trivial
  store _ _ h _ := h.congr rfl rfl rfl rfl
  storeKeep _ _ _ _ := trivial
  storeSent _ _ _ _ := trivial

theorem mem_finalized_receiveVote {c : FinalityCertificate} (h : c ∈ rt.finalized) (env : Env)
    (vote : ConsensusMessage) : c ∈ (rt.receiveVote env vote).1.finalized := by
  rcases rt.receiveVote_cases env vote with ⟨c', e, -, hcase⟩ | ⟨-, -, c₁, -, hcase⟩
  · rw [hcase]
    exact h
  · rw [hcase]
    have hframe := (frame_counted rt env vote ((c₁.addVote vote).advancePhase vote)).1
    rw [← hframe.finalized] at h
    generalize rt.counted env vote ((c₁.addVote vote).advancePhase vote) = rt₁ at *
    rcases rt₁.afterVote_cases env with hafter | ⟨b, -, -, hafter⟩ | ⟨b, -, -, hafter⟩ |
      ⟨b, chain, -, -, -, -, -, hafter⟩
    · rw [hafter]
      exact h
    · rw [hafter]
      exact h
    · rw [hafter]
      exact h
    · rw [hafter]
      exact List.mem_append_left _ h

theorem finalizedReplay (env : Env) (c : FinalityCertificate) :
    ReplayRule env (fun rt => c ∈ rt.finalized) (fun _ _ => True) (fun _ _ => True) where
  receive _ v h _ := mem_finalized_receiveVote h env v
  keep _ _ _ _ _ _ := trivial
  keepSent _ _ _ _ _ _ := trivial
  reply _ _ _ _ _ _ := ⟨trivial, trivial⟩
  deferred _ _ _ _ := trivial
  store _ _ h _ := h
  storeKeep _ _ _ _ := trivial
  storeSent _ _ _ _ := trivial

/-- Without an error the candidate stays or is finalized. -/
theorem afterVote_ok {reply : Option ConsensusMessage} (hok : (rt.afterVote env).2 = .ok reply) :
    (rt.afterVote env).1.pending = rt.pending ∧ (rt.afterVote env).1.finalized = rt.finalized ∨
      ∃ b, rt.pending = some b ∧
        (rt.afterVote env).1.finalized = rt.finalized ++ [rt.ownCertificate b] := by
  unfold afterVote at hok ⊢
  split_ifs at hok ⊢ with hprecommit hfinalized
  · cases hpending : rt.pending with
    | none => exact .inl ⟨hpending, rfl⟩
    | some b =>
        dsimp only
        rw [signVote_fst]
        exact .inl ⟨hpending, rfl⟩
  · unfold finalizePending at hok ⊢
    cases hpending : rt.pending with
    | none => exact .inl ⟨hpending, rfl⟩
    | some b =>
        rw [hpending] at hok
        dsimp only at hok ⊢
        split_ifs at hok ⊢ with hhash
        refine .inr ⟨b, rfl, ?_⟩
        split at hok
        · cases hok
        · split at hok
          · cases hok
          · rfl
  · exact .inl ⟨rfl, rfl⟩

theorem carries_receiveVote_ok {vote : ConsensusMessage} {reply : Option ConsensusMessage}
    (h : rt.Carries tx) (hok : (rt.receiveVote env vote).2 = .ok reply) :
    (rt.receiveVote env vote).1.Carries tx := by
  rcases rt.receiveVote_cases env vote with ⟨c', e, -, hcase⟩ | ⟨-, -, c₁, -, hcase⟩
  · rw [hcase] at hok
    cases hok
  · rw [hcase] at hok ⊢
    obtain ⟨hframe, -, hpending⟩ :=
      frame_counted rt env vote ((c₁.addVote vote).advancePhase vote)
    have hcounted := h.congr hpending fun c hc => hframe.finalized ▸ hc
    generalize rt.counted env vote ((c₁.addVote vote).advancePhase vote) = rt₁ at *
    rcases afterVote_ok hok with ⟨hsame, hfinalized⟩ | ⟨b, hb, hfinalized⟩
    · exact hcounted.congr hsame fun c hc => hfinalized ▸ hc
    · rcases hcounted with hcandidate | ⟨c, hc, htx⟩
      · obtain ⟨b', hb', htx⟩ := mem_pendingTransactions.1 hcandidate
        obtain rfl : b' = b := Option.some.inj (hb'.symm.trans hb)
        refine .inr ⟨rt₁.ownCertificate b', ?_, htx⟩
        rw [hfinalized]
        exact List.mem_append_right _ (List.mem_singleton_self _)
      · refine .inr ⟨c, ?_, htx⟩
        rw [hfinalized]
        exact List.mem_append_left _ hc

/-! ## Votes from peers -/

section
variable {P : ConsensusRuntime → Prop} {Q R : ConsensusRuntime → ConsensusMessage → Prop}

theorem ReplayRule.publishReplayedVotes (rule : ReplayRule env P Q R) (hrt : P rt) :
    P (rt.publishReplayedVotes env).1 := by
  have hreplayed := (rule.replay hrt).1
  unfold ConsensusRuntime.publishReplayedVotes
  generalize rt.replayDeferredVotes env = replayed at *
  obtain ⟨rt₁, result⟩ := replayed
  cases result <;> exact hreplayed

theorem ReplayRule.followUp (rule : ReplayRule env P Q R) (hrt : P rt)
    {reply : Option ConsensusMessage} (hreply : ∀ precommit, reply = some precommit → Q rt precommit) :
    P (rt.followUp env reply).1 := by
  unfold ConsensusRuntime.followUp
  cases reply with
  | none => exact rule.publishReplayedVotes hrt
  | some precommit =>
      have hfed := rule.receive rt precommit hrt (hreply precommit rfl)
      unfold feedBack
      dsimp only
      generalize rt.receiveVote env precommit = fed at *
      obtain ⟨rt₁, result⟩ := fed
      cases result with
      | error e => exact hfed
      | ok reply => exact rule.publishReplayedVotes hfed

/-- A rule for single votes is a rule for what the loop does with a peer's vote. -/
theorem ReplayRule.consensusReceived (rule : ReplayRule env P Q R) (hrt : P rt)
    {message : ConsensusMessage} (hmessage : Q rt message) :
    P (rt.consensusReceived env message).1 := by
  have hreceived := rule.receive rt message hrt hmessage
  have hkept := rule.keep rt message message hrt hmessage hmessage
  have hreply := fun m => rule.reply rt message m hrt hmessage
  unfold ConsensusRuntime.consensusReceived
  generalize rt.receiveVote env message = received at *
  obtain ⟨rt₁, result⟩ := received
  cases result with
  | error e =>
      dsimp only at hreceived hkept ⊢
      refine rule.publishReplayedVotes ?_
      split_ifs
      · rw [deferVote_eq]
        refine rule.store rt₁ _ hreceived fun v hv => ?_
        rcases mem_of_mem_deferVote hv with hv | rfl
        · exact rule.deferred rt₁ hreceived v hv
        · exact hkept
      · exact hreceived
  | ok reply =>
      dsimp only at hreceived ⊢
      refine rule.followUp hreceived fun precommit hprecommit => (hreply precommit ?_).1
      rw [hprecommit]

end

/-- The candidate waits or is finalized, and the chain accepts it. -/
structure Landing (b : Block) (next : Blockchain) (rt : ConsensusRuntime) : Prop where
  steady : Steady rt
  place : rt.pending = some b ∧ rt.chain.applyBlock b = .ok next ∨
    ∃ c ∈ rt.finalized, c.block = b

theorem Landing.receiveVote {next : Blockchain} (h : Landing b next rt) (env : Env)
    (vote : ConsensusMessage) : Landing b next (rt.receiveVote env vote).1 := by
  refine ⟨h.steady.receiveVote env vote, ?_⟩
  rcases h.place with ⟨hb, happly⟩ | ⟨c, hc, hblock⟩
  · rcases rt.receiveVote_cases env vote with ⟨c', e, -, hcase⟩ |
      ⟨hcheck, hproposal, c₁, hcore, hcase⟩
    · rw [hcase]
      exact .inl ⟨hb, happly⟩
    · rw [hcase]
      have hcertified := h.steady.poised.certified env hcheck hproposal hcore
      obtain ⟨hframe, hmachine, hpending⟩ :=
        frame_counted rt env vote ((c₁.addVote vote).advancePhase vote)
      obtain ⟨-, -, -, hkept⟩ :=
        (rt.counted env vote ((c₁.addVote vote).advancePhase vote)).afterVote_frame env
      have hbefore : rt.consensus.phase ≠ .finalized := by
        intro hphase
        have hnone := h.steady.vacant (.inr hphase)
        cases hb.symm.trans hnone
      by_cases hphase : ((c₁.addVote vote).advancePhase vote).phase = .finalized
      · obtain ⟨b', hb', -, hfinalized, hverify⟩ := hcertified hbefore hphase
        obtain rfl : b' = b := Option.some.inj (hb'.symm.trans hb)
        generalize rt.counted env vote ((c₁.addVote vote).advancePhase vote) = rt₁ at *
        rw [← hmachine] at hphase
        rw [← hframe.validators] at hverify
        rw [← hframe.chain] at happly
        rw [afterVote_finalizes hphase (hpending.trans hb) hfinalized hverify happly]
        exact .inr ⟨rt₁.ownCertificate b', List.mem_append_right _ (List.mem_singleton_self _), rfl⟩
      · generalize rt.counted env vote ((c₁.addVote vote).advancePhase vote) = rt₁ at *
        rw [← hmachine] at hphase
        have hchain : (rt₁.afterVote env).1.chain = rt₁.chain := by
          rcases rt₁.afterVote_cases env with hafter | ⟨_, -, -, hafter⟩ | ⟨_, hend, -, -⟩ |
            ⟨_, _, hend, -⟩
          · rw [hafter]
          · rw [hafter]
            rfl
          · exact absurd hend hphase
          · exact absurd hend hphase
        refine .inl ⟨(hkept hphase).trans (hpending.trans hb), ?_⟩
        rw [hchain, hframe.chain]
        exact happly
  · exact .inr ⟨c, mem_finalized_receiveVote hc env vote, hblock⟩

theorem landingReplay (env : Env) (b : Block) (next : Blockchain) :
    ReplayRule env (Landing b next) (fun _ _ => True) (fun _ _ => True) where
  receive _ v h _ := h.receiveVote env v
  keep _ _ _ _ _ _ := trivial
  keepSent _ _ _ _ _ _ := trivial
  reply _ _ _ _ _ _ := ⟨trivial, trivial⟩
  deferred _ _ _ _ := trivial
  store _ _ h _ := ⟨h.steady.congr rfl rfl rfl rfl, h.place⟩
  storeKeep _ _ _ _ := trivial
  storeSent _ _ _ _ := trivial

/-- A precommit for the candidate in the current round. -/
def Precommits (rt : ConsensusRuntime) (b : Block) (v : ConsensusMessage) : Prop :=
  v.voteType = .precommit ∧ v.height = rt.consensus.height ∧ v.round = rt.consensus.round ∧
    v.blockHash = b.hash

instance (rt : ConsensusRuntime) (b : Block) : DecidablePred (rt.Precommits b) := fun v =>
  inferInstanceAs (Decidable (v.voteType = .precommit ∧ v.height = rt.consensus.height ∧
    v.round = rt.consensus.round ∧ v.blockHash = b.hash))

/-- Whose precommits for the candidate the node has counted, has kept for later, has just been
given, or may cast itself. -/
def precommitsInSight (rt : ConsensusRuntime) (message : ConsensusMessage) (b : Block) :
    Finset String :=
  insert rt.validator (rt.consensus.tally .precommit b.hash ∪
    (((message :: rt.deferredVotes).filter (rt.Precommits b)).map (·.validatorId)).toFinset)

/-- The candidate waits for precommits that are not in sight. -/
structure Short (start : ConsensusRuntime) (b : Block) (known : Finset String)
    (rt : ConsensusRuntime) : Prop where
  steady : Steady rt
  pending : rt.pending = some b
  round : rt.consensus.height = start.consensus.height ∧ rt.consensus.round = start.consensus.round
  power : rt.consensus.validators = start.consensus.validators ∧
    rt.consensus.totalPower = start.consensus.totalPower
  self : rt.validator ∈ known
  counted : rt.consensus.tally .precommit b.hash ⊆ known
  waiting : ∀ v ∈ rt.deferredVotes, start.Precommits b v → v.validatorId ∈ known

theorem Short.receiveVote {start : ConsensusRuntime} {known : Finset String}
    (h : Short start b known rt) (hfew : ¬start.consensus.Enough known) (env : Env)
    {vote : ConsensusMessage} (hvote : start.Precommits b vote → vote.validatorId ∈ known) :
    Short start b known (rt.receiveVote env vote).1 := by
  have hsteady := h.steady.receiveVote env vote
  have hwaiting := h.waiting
  rw [← deferredVotes_receiveVote rt env vote] at hwaiting
  rcases rt.receiveVote_cases env vote with ⟨c', e, hcore, hcase⟩ |
    ⟨hcheck, hproposal, c₁, hcore, hcase⟩
  · rw [hcase] at hsteady hwaiting ⊢
    refine ⟨hsteady, h.pending, ?_, ?_, h.self, ?_, hwaiting⟩
    · rw [hcore.height, hcore.round]
      exact h.round
    · rw [hcore.validators, hcore.totalPower]
      exact h.power
    · unfold BftConsensus.tally
      rw [hcore.votes]
      exact h.counted
  · rw [hcase] at hsteady hwaiting ⊢
    obtain ⟨hheight, hround, -, -, haccepts⟩ := BftConsensus.checkVote_eq_ok hcheck
    have hmiddle : rt.consensus.phase = .prevote ∨ rt.consensus.phase = .precommit := by
      cases hphase : rt.consensus.phase with
      | prevote => exact .inl rfl
      | precommit => exact .inr rfl
      | finalized =>
          have hnone := h.steady.vacant (.inr hphase)
          cases h.pending.symm.trans hnone
      | _ =>
          rw [hphase] at haccepts
          cases hvoteType : vote.voteType <;> rw [hvoteType] at haccepts <;> cases haccepts
    have hblock : vote.blockHash = b.hash := by
      obtain ⟨b', hb', hcandidate, -⟩ := h.steady.poised.candidate hmiddle
      obtain rfl : b' = b := Option.some.inj (hb'.symm.trans h.pending)
      exact Option.some.inj (hproposal.symm.trans hcandidate)
    have htallied := BftConsensus.tallied_advancePhase hcore hblock haccepts
    have hsame := (c₁.addVote vote).sameRound_advancePhase vote
    have hcounted : ((c₁.addVote vote).advancePhase vote).tally .precommit b.hash ⊆ known := by
      rw [htallied.tally]
      split_ifs with htype
      · refine Finset.insert_subset (hvote ⟨htype.symm, ?_, ?_, hblock⟩) h.counted
        · rw [hheight, h.round.1]
        · rw [hround, h.round.2]
      · exact h.counted
    have hphase : ((c₁.addVote vote).advancePhase vote).phase ≠ .finalized := by
      intro hend
      have hquorum : rt.consensus.Enough
          (((c₁.addVote vote).advancePhase vote).tally .precommit b.hash) := by
        cases htallied.advance with
        | stays phase =>
            rw [phase] at hend
            rcases hmiddle with hmiddle | hmiddle <;> cases hmiddle.symm.trans hend
        | locks _ phase => cases phase.symm.trans hend
        | finalizes _ _ _ _ quorum => exact quorum
      have hfits : total rt.consensus.validators ≤ u64Max := by
        rw [h.steady.poised.seated.total]
        exact h.steady.poised.seated.fits
      exact hfew ((BftConsensus.Enough.congr h.power.1 h.power.2).1
        (hquorum.mono hfits hcounted))
    obtain ⟨hframe, hmachine, hpending⟩ :=
      frame_counted rt env vote ((c₁.addVote vote).advancePhase vote)
    obtain ⟨hconsensus, -, -, hkept⟩ :=
      (rt.counted env vote ((c₁.addVote vote).advancePhase vote)).afterVote_frame env
    have hself : ((rt.counted env vote
        ((c₁.addVote vote).advancePhase vote)).afterVote env).1.validator = rt.validator := by
      rw [← hframe.validator]
      rcases (rt.counted env vote ((c₁.addVote vote).advancePhase vote)).afterVote_cases env with
        hafter | ⟨_, -, -, hafter⟩ | ⟨_, -, -, hafter⟩ | ⟨_, _, -, -, -, -, -, hafter⟩
      · rw [hafter]
      · rw [hafter]
        rfl
      · rw [hafter]
      · rw [hafter]
    generalize rt.counted env vote ((c₁.addVote vote).advancePhase vote) = rt₁ at *
    rw [hmachine] at hconsensus hkept
    refine ⟨hsteady, (hkept hphase).trans (hpending.trans h.pending), ?_, ?_, ?_, ?_, hwaiting⟩
    · rw [hconsensus, hsame.height, hsame.round]
      exact ⟨hcore.height.trans h.round.1, hcore.round.trans h.round.2⟩
    · rw [hconsensus, hsame.validators, hsame.totalPower]
      exact ⟨hcore.validators.trans h.power.1, hcore.totalPower.trans h.power.2⟩
    · rw [hself]
      exact h.self
    · rw [hconsensus]
      exact hcounted

theorem shortReplay {start : ConsensusRuntime} {known : Finset String}
    (hfew : ¬start.consensus.Enough known) (env : Env) (b : Block) :
    ReplayRule env (Short start b known)
      (fun _ v => start.Precommits b v → v.validatorId ∈ known) (fun _ _ => True) where
  receive _ _ h hvote := h.receiveVote hfew env hvote
  keep _ _ _ _ _ hvote := hvote
  keepSent _ _ _ _ _ _ := trivial
  reply rt _ _ h _ hreply := by
    obtain ⟨-, _, -, hself, -⟩ := receiveVote_reply hreply
    refine ⟨fun _ => ?_, trivial⟩
    rw [hself]
    exact h.self
  deferred _ h := h.waiting
  store _ _ h hvotes :=
    ⟨h.steady.congr rfl rfl rfl rfl, h.pending, h.round, h.power, h.self, h.counted, hvotes⟩
  storeKeep _ _ _ hvote := hvote
  storeSent _ _ _ _ := trivial

/-- A peer's vote leaves a transaction with the candidate or puts it on the chain, if the chain
accepts the candidate or the precommits in sight are too few for it. -/
theorem carries_consensusReceived (hsteady : Steady rt) (h : rt.Carries tx)
    {message : ConsensusMessage} (hcandidate : ∀ b, rt.pending = some b → tx ∈ b.transactions →
      (∃ next, rt.chain.applyBlock b = .ok next) ∨
        ¬rt.consensus.Enough (rt.precommitsInSight message b)) :
    (rt.consensusReceived env message).1.Carries tx := by
  rcases h with hpending | ⟨c, hc, htx⟩
  · obtain ⟨b, hb, htx⟩ := mem_pendingTransactions.1 hpending
    rcases hcandidate b hb htx with ⟨next, happly⟩ | hfew
    · have hlanding : Landing b next rt := ⟨hsteady, .inl ⟨hb, happly⟩⟩
      have hlanded : Landing b next (rt.consensusReceived env message).1 :=
        (landingReplay env b next).consensusReceived hlanding trivial
      rcases hlanded.place with ⟨hb', -⟩ | ⟨c, hc, rfl⟩
      · exact .inl (mem_pendingTransactions.2 ⟨b, hb', htx⟩)
      · exact .inr ⟨c, hc, htx⟩
    · have hknown : ∀ v ∈ message :: rt.deferredVotes, rt.Precommits b v →
          v.validatorId ∈ rt.precommitsInSight message b := by
        intro v hv hprecommits
        refine Finset.mem_insert_of_mem (Finset.mem_union_right _ ?_)
        rw [List.mem_toFinset]
        exact List.mem_map_of_mem (List.mem_filter.2 ⟨hv, decide_eq_true hprecommits⟩)
      have hshort : Short rt b (rt.precommitsInSight message b) rt :=
        ⟨hsteady, hb, ⟨rfl, rfl⟩, ⟨rfl, rfl⟩, Finset.mem_insert_self _ _,
          fun id hid => Finset.mem_insert_of_mem (Finset.mem_union_left _ hid),
          fun v hv => hknown v (List.mem_cons_of_mem _ hv)⟩
      have hkept := (shortReplay hfew env b).consensusReceived hshort
        (hknown message (List.mem_cons_self ..))
      exact .inl (mem_pendingTransactions.2 ⟨b, hkept.pending, htx⟩)
  · exact .inr ⟨c, (finalizedReplay env c).consensusReceived hc trivial, htx⟩

theorem Steady.followUp (h : Steady rt) (reply : Option ConsensusMessage) :
    Steady (rt.followUp env reply).1 :=
  (steadyReplay env).followUp h fun _ _ => trivial

theorem Steady.consensusReceived (h : Steady rt) (message : ConsensusMessage) :
    Steady (rt.consensusReceived env message).1 :=
  (steadyReplay env).consensusReceived h trivial

end

end ConsensusRuntime

end IeumChain
