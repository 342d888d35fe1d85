import IeumChain.NodeSpec
import IeumChain.Library.LockedVoting

/-!
# The node as a voter with a lock

Every call on a node is a sequence of moves of the abstract voter: entering rounds,
taking up a proposal, prevoting, locking, precommitting. The votes of the abstract
voter are the votes the node's signer was asked for.
-/
namespace IeumChain

open ByteCodec Outcome MachineWords FiniteMap LockedVoting

def VoteType.kind : VoteType → Kind
  | .prevote => .prevote
  | .precommit => .precommit

/-- What a vote says, without who says it. -/
def ConsensusMessage.content (m : ConsensusMessage) : Vote String :=
  ⟨m.voteType.kind, m.height, m.round, m.blockHash⟩

namespace ConsensusRuntime

/-- The voter that a node implements. -/
def voter (rt : ConsensusRuntime) : Voter String :=
  ⟨rt.consensus.height, rt.consensus.round, rt.consensus.proposal, rt.consensus.lockedPair⟩

/-- Whether the signer was asked for a vote with this content. -/
def Cast (rt : ConsensusRuntime) (w : Vote String) : Prop :=
  ∃ voteType, voteType.kind = w.kind ∧ .vote w.height w.round voteType w.value ∈ rt.signed

/-- How the parts of a node's state fit together. -/
structure Coherent (rt : ConsensusRuntime) : Prop where
  started : rt.consensus.phase ≠ .waiting
  proposeNone : rt.consensus.phase = .propose → rt.consensus.proposal = none
  lockedPhase : rt.consensus.phase = .precommit ∨ rt.consensus.phase = .finalized →
    ∃ x, rt.consensus.proposal = some x ∧ rt.consensus.lockedPair = some (x, rt.consensus.round)
  lockShape : rt.consensus.lockedValue.isSome = rt.consensus.lockedRound.isSome
  pendingMatches : ∀ b, rt.pending = some b →
    rt.consensus.proposal = some b.hash ∧ b.height = rt.consensus.height
  heightLe : rt.consensus.height ≤ rt.chain.tipHeight + 1

/-- The moves of the voter between two states of a node. -/
def Moves (polka : ℕ → ℕ → String → Prop) (rt rt' : ConsensusRuntime) : Prop :=
  Steps polka rt.Cast rt.voter rt'.Cast rt'.voter

section
variable {polka : ℕ → ℕ → String → Prop} {rt rt' rt'' : ConsensusRuntime}

theorem cast_congr (h : rt'.signed = rt.signed) : rt'.Cast = rt.Cast := by
  funext w
  simp only [Cast, h]

theorem Moves.of_eq (hsigned : rt'.signed = rt.signed) (hvoter : rt'.voter = rt.voter) :
    Moves polka rt rt' := by
  unfold Moves
  rw [cast_congr hsigned, hvoter]
  exact .refl

theorem Moves.refl : Moves polka rt rt := .of_eq rfl rfl

theorem Moves.trans (h : Moves polka rt rt') (h' : Moves polka rt' rt'') : Moves polka rt rt'' :=
  Steps.trans h h'

/-- A move that casts nothing. -/
theorem Moves.silent (hsigned : rt'.signed = rt.signed)
    (hstep : Step polka rt.Cast rt.voter none rt'.voter) : Moves polka rt rt' := by
  have h := Steps.one hstep
  rw [extend_none] at h
  unfold Moves
  rw [cast_congr hsigned]
  exact h

/-- A request for a vote adds exactly that vote. -/
theorem cast_vote {height round : ℕ} {voteType : VoteType} {x : String}
    (hsigned : rt'.signed = rt.signed ++ [.vote height round voteType x]) :
    rt'.Cast = extend rt.Cast (some ⟨voteType.kind, height, round, x⟩) := by
  funext w
  obtain ⟨kind, h, r, y⟩ := w
  simp only [Cast, hsigned, List.mem_append, List.mem_singleton, SignedPayload.vote.injEq, extend,
    Option.some.injEq, Vote.mk.injEq, eq_iff_iff]
  constructor
  · rintro ⟨t, rfl, ht | ⟨rfl, rfl, rfl, rfl⟩⟩
    · exact .inl ⟨t, rfl, ht⟩
    · exact .inr ⟨rfl, rfl, rfl, rfl⟩
  · rintro (⟨t, ht, hmem⟩ | ⟨rfl, rfl, rfl, rfl⟩)
    · exact ⟨t, ht, .inl hmem⟩
    · exact ⟨voteType, rfl, .inr ⟨rfl, rfl, rfl, rfl⟩⟩

/-- Other requests add no vote. -/
theorem cast_other {payload : SignedPayload} (hsigned : rt'.signed = rt.signed ++ [payload])
    (hother : ∀ height round voteType x, payload ≠ .vote height round voteType x) :
    rt'.Cast = rt.Cast := by
  funext w
  simp only [Cast, hsigned, List.mem_append, List.mem_singleton, eq_iff_iff]
  constructor
  · rintro ⟨t, ht, hmem | hmem⟩
    · exact ⟨t, ht, hmem⟩
    · exact absurd hmem.symm (hother _ _ _ _)
  · rintro ⟨t, ht, hmem⟩
    exact ⟨t, ht, .inl hmem⟩

/-- A move that casts the vote the signer is asked for. -/
theorem Moves.casting {height round : ℕ} {voteType : VoteType} {x : String}
    (hsigned : rt'.signed = rt.signed ++ [.vote height round voteType x])
    (hvoter : rt'.voter = rt.voter)
    (hstep : Step polka rt.Cast rt.voter (some ⟨voteType.kind, height, round, x⟩) rt.voter) :
    Moves polka rt rt' := by
  unfold Moves
  rw [cast_vote hsigned, hvoter]
  exact Steps.one hstep

/-! ## Coherence under changes that do not concern the voter -/

/-- Replacing the machine by one with the same core, while the candidate stays or goes. -/
theorem Coherent.sameCore (h : Coherent rt) (hcore : rt.consensus.SameCore rt'.consensus)
    (hpending : ∀ b, rt'.pending = some b → rt.pending = some b) (htip : rt.chain.tipHeight ≤ rt'.chain.tipHeight) :
    Coherent rt' where
  started := by
    rw [hcore.phase]
    exact h.started
  proposeNone hphase := by
    rw [hcore.proposal]
    exact h.proposeNone (hcore.phase ▸ hphase)
  lockedPhase hphase := by
    rw [hcore.proposal, hcore.lockedPair, hcore.round]
    rw [hcore.phase] at hphase
    exact h.lockedPhase hphase
  lockShape := by
    rw [hcore.lockedValue, hcore.lockedRound]
    exact h.lockShape
  pendingMatches b hb := by
    rw [hcore.proposal, hcore.height]
    exact h.pendingMatches b (hpending b hb)
  heightLe := by
    rw [hcore.height]
    exact h.heightLe.trans (Nat.succ_le_succ htip)

theorem voter_sameCore (hcore : rt.consensus.SameCore rt'.consensus) : rt'.voter = rt.voter := by
  simp only [voter, hcore.height, hcore.round, hcore.proposal, hcore.lockedPair]

/-- Entering a round of a height not below the current one leaves a coherent node. -/
theorem Coherent.enterRound (h : Coherent rt) {height round : ℕ}
    (hconsensus : rt'.consensus = rt.consensus.enterRound height round)
    (hpending : rt'.pending = none) (hheight : height ≤ rt'.chain.tipHeight + 1) :
    Coherent rt' where
  started := by simp [hconsensus, BftConsensus.enterRound]
  proposeNone := by simp [hconsensus, BftConsensus.enterRound]
  lockedPhase := by simp [hconsensus, BftConsensus.enterRound]
  lockShape := by
    have hshape := h.lockShape
    simp only [hconsensus, BftConsensus.enterRound]
    split_ifs
    · rfl
    · exact hshape
  pendingMatches := by simp [hpending]
  heightLe := by simpa [hconsensus, BftConsensus.enterRound] using hheight

theorem voter_enterRound_fresh {height round : ℕ}
    (hconsensus : rt'.consensus = rt.consensus.enterRound height round)
    (hheight : rt.consensus.height < height) :
    rt'.voter = ⟨height, round, none, none⟩ := by
  simp [voter, hconsensus, BftConsensus.enterRound, BftConsensus.lockedPair, hheight]

theorem voter_enterRound_same {round : ℕ}
    (hconsensus : rt'.consensus = rt.consensus.enterRound rt.consensus.height round) :
    rt'.voter = { rt.voter with round, proposal := none } := by
  simp [voter, hconsensus, BftConsensus.enterRound, BftConsensus.lockedPair]

/-- Every vote so far is for a height up to the current one. -/
def PastVotes (rt : ConsensusRuntime) : Prop := ∀ w, rt.Cast w → w.height ≤ rt.consensus.height

/-- A later height is entered without a lock. -/
theorem Moves.freshHeight (hpast : PastVotes rt) {height round : ℕ}
    (hconsensus : rt'.consensus = rt.consensus.enterRound height round)
    (hsigned : rt'.signed = rt.signed) (hheight : rt.consensus.height < height) :
    Moves polka rt rt' := by
  refine Moves.silent hsigned ?_
  rw [voter_enterRound_fresh hconsensus hheight]
  exact .freshHeight height round fun w hw => (hpast w hw).trans_lt hheight

/-- A later round of the same height keeps the lock. -/
theorem Moves.nextRound {round : ℕ}
    (hconsensus : rt'.consensus = rt.consensus.enterRound rt.consensus.height round)
    (hsigned : rt'.signed = rt.signed) (hround : rt.consensus.round < round) :
    Moves polka rt rt' := by
  refine Moves.silent hsigned ?_
  rw [voter_enterRound_same hconsensus]
  exact .nextRound round hround

/-! ## The calls -/

/-- A frame that keeps the core keeps coherence and is no move. -/
theorem moves_sameCore (h : Coherent rt) (hcore : rt.consensus.SameCore rt'.consensus)
    (hpending : ∀ b, rt'.pending = some b → rt.pending = some b)
    (hchain : rt'.chain = rt.chain) (hsigned : rt'.signed = rt.signed) :
    Coherent rt' ∧ Moves polka rt rt' :=
  ⟨h.sameCore hcore hpending (by rw [hchain]), .of_eq hsigned (voter_sameCore hcore)⟩

theorem moves_stayed {new : List ConsensusMessage} (h : Coherent rt) (hframe : Frame new rt rt')
    (hstayed : Stayed rt rt') : Coherent rt' ∧ Moves polka rt rt' := by
  refine moves_sameCore h hstayed.core ?_ hframe.chain hframe.signed
  rw [hstayed.pending]
  exact fun _ => id

theorem moves_jumped {new : List ConsensusMessage} (h : Coherent rt) (hframe : Frame new rt rt')
    (hjump : Jumped rt rt') : Coherent rt' ∧ Moves polka rt rt' := by
  obtain ⟨c, target, hcore, hlt, hconsensus, hpending, -⟩ := hjump
  have hsame : Coherent { rt with consensus := c } ∧ Moves polka rt { rt with consensus := c } :=
    moves_sameCore h hcore (fun _ => id) rfl rfl
  obtain ⟨hcoherent, hmoves⟩ := hsame
  rw [← hcore.height] at hconsensus
  refine ⟨hcoherent.enterRound hconsensus hpending ?_, hmoves.trans (.nextRound hconsensus
    hframe.signed ?_)⟩
  · rw [hframe.chain]
    exact hcoherent.heightLe
  · rw [← hcore.round] at hlt
    exact hlt

/-- Opening the next height is a fresh start, or reopens a round that ended in a lock. -/
theorem moves_openNextHeight (h : Coherent rt) (hpast : PastVotes rt) (env : Env)
    (hclosed : rt.consensus.phase = .finalized ∨ rt.consensus.height ≤ rt.chain.tipHeight) :
    Coherent (rt.openNextHeight env).1 ∧ Moves polka rt (rt.openNextHeight env).1 := by
  obtain ⟨hframe, hcase | ⟨hplace, hconsensus, hpending, -⟩⟩ := rt.openNextHeight_cases env
  · rw [hcase]
    exact ⟨h, .refl⟩
  · refine ⟨h.enterRound hconsensus hpending (by rw [hframe.chain]), ?_⟩
    rcases hplace with hlt | ⟨heq, hzero⟩
    · exact .freshHeight hpast hconsensus hframe.signed hlt
    · have hphase : rt.consensus.phase = .finalized := hclosed.resolve_right (by omega)
      obtain ⟨x, -, hlocked⟩ := h.lockedPhase (.inr hphase)
      rw [← heq] at hconsensus
      refine .silent hframe.signed ?_
      rw [voter_enterRound_same hconsensus, ← hzero]
      exact .reopen hlocked

theorem moves_advanceAfterFinalization (h : Coherent rt) (hpast : PastVotes rt) (env : Env) :
    Coherent (rt.advanceAfterFinalization env).1 ∧
      Moves polka rt (rt.advanceAfterFinalization env).1 := by
  rcases rt.advanceAfterFinalization_cases env with hcase | ⟨hphase, hcase⟩
  · rw [hcase]
    exact ⟨h, .refl⟩
  · rw [hcase]
    exact moves_openNextHeight h hpast env (.inl hphase)

/-- Signing something other than a vote. -/
theorem moves_record_other (h : Coherent rt) {payload : SignedPayload}
    (hother : ∀ height round voteType x, payload ≠ .vote height round voteType x) :
    Coherent (rt.record payload) ∧ Moves polka rt (rt.record payload) := by
  refine ⟨h.sameCore (.refl _) (fun _ => id) le_rfl, ?_⟩
  unfold Moves
  have hcast : (rt.record payload).Cast = rt.Cast := cast_other rfl hother
  rw [hcast]
  exact .refl

end

section
variable [Crypto] {polka : ℕ → ℕ → String → Prop} {rt : ConsensusRuntime} (env : Env)

/-- A proposal is taken up against a lock only with a quorum since the lock, and then
prevoted. -/
theorem moves_receiveProposal (h : Coherent rt) {p : SignedProposal}
    (hpolka : ∀ validRound, p.height = rt.consensus.height →
      rt.consensus.verifyValidRoundCertificate p validRound = .ok () →
      polka rt.consensus.height validRound p.block.hash) :
    Coherent (rt.receiveProposal env p).1 ∧ Moves polka rt (rt.receiveProposal env p).1 := by
  rcases rt.receiveProposal_cases env p with ⟨c', e, hcore, hcase⟩ | ⟨-, hcheck, hphase, hcase⟩
  · rw [hcase]
    exact moves_sameCore h hcore (fun _ => id) rfl rfl
  · obtain ⟨hheight, hround, hblock, -, -, -⟩ := BftConsensus.checkProposal_eq_ok hcheck
    have hcore := rt.consensus.sameCore_noteValidRound p
    rw [hcase, hheight, hround]
    set rt₁ := { rt with consensus := rt.accepted p, pending := some p.block }.resetDeadline env
    have hvoter : rt₁.voter = { rt.voter with proposal := some p.block.hash } := by
      simp only [voter, rt₁, resetDeadline, accepted, hcore.height, hcore.round]
      exact congrArg _ hcore.lockedPair
    have haccept : Moves polka rt rt₁ := by
      refine Moves.silent rfl ?_
      rw [hvoter]
      refine .accept (h.proposeNone hphase) fun y l hlocked hne => ?_
      obtain ⟨validRound, hl, hr, hcertificate⟩ := BftConsensus.checkProposal_lock hcheck hlocked hne
      exact ⟨validRound, hl, hr, hpolka validRound hheight hcertificate⟩
    refine ⟨⟨?_, ?_, ?_, ?_, ?_, ?_⟩, haccept.trans (Moves.casting rfl rfl ?_)⟩
    · simp [record, rt₁, resetDeadline, accepted]
    · simp [record, rt₁, resetDeadline, accepted]
    · simp [record, rt₁, resetDeadline, accepted]
    · simpa [record, rt₁, resetDeadline, accepted, hcore.lockedValue, hcore.lockedRound]
        using h.lockShape
    · rintro b ⟨⟩
      refine ⟨rfl, ?_⟩
      rw [hblock]
      exact hcore.height.symm
    · simpa [record, rt₁, resetDeadline, accepted, hcore.height] using h.heightLe
    · rw [hvoter]
      exact .prevote rfl

/-- Counting a vote keeps the voter, unless a quorum of prevotes locks the proposal. -/
theorem moves_counted (h : Coherent rt) {vote : ConsensusMessage} {c₁ : BftConsensus}
    (hcheck : rt.consensus.checkVote vote = .ok ())
    (hproposal : rt.consensus.proposal = some vote.blockHash)
    (hcore : rt.consensus.SameCore c₁)
    (hquorum : (c₁.addVote vote).hasQuorum .prevote vote.blockHash = true →
      vote.voteType = .prevote → polka rt.consensus.height rt.consensus.round vote.blockHash) :
    Coherent (rt.counted env vote ((c₁.addVote vote).advancePhase vote)) ∧
      Moves polka rt (rt.counted env vote ((c₁.addVote vote).advancePhase vote)) := by
  obtain ⟨hframe, hconsensus, hpending⟩ :=
    frame_counted rt env vote ((c₁.addVote vote).advancePhase vote)
  generalize rt.counted env vote ((c₁.addVote vote).advancePhase vote) = rt₁ at *
  have htip : rt₁.chain.tipHeight = rt.chain.tipHeight := by rw [hframe.chain]
  have hbase : Coherent { rt with consensus := c₁ } :=
    h.sameCore hcore (fun _ => id) le_rfl
  have hvoter₁ : voter { rt with consensus := c₁ } = rt.voter := voter_sameCore hcore
  rcases (c₁.addVote vote).advancePhase_cases vote with
    hsame | ⟨htype, -, hhas, hlock⟩ | ⟨htype, hphase, -, hfinal⟩
  · rw [hsame] at hconsensus
    refine ⟨⟨?_, ?_, ?_, ?_, ?_, ?_⟩, .of_eq hframe.signed ?_⟩
    · rw [hconsensus]
      exact hbase.started
    · rw [hconsensus]
      exact hbase.proposeNone
    · rw [hconsensus]
      exact hbase.lockedPhase
    · rw [hconsensus]
      exact hbase.lockShape
    · rw [hconsensus, hpending]
      exact hbase.pendingMatches
    · rw [hconsensus, htip]
      exact hbase.heightLe
    · rw [← hvoter₁, voter, hconsensus]
      rfl
  · rw [hlock] at hconsensus
    have hproposal₁ : c₁.proposal = some vote.blockHash := by rw [hcore.proposal, hproposal]
    refine ⟨⟨?_, ?_, ?_, ?_, ?_, ?_⟩, .silent hframe.signed ?_⟩
    · simp [hconsensus]
    · simp [hconsensus]
    · rw [hconsensus]
      exact fun _ => ⟨vote.blockHash, hproposal₁, rfl⟩
    · simp [hconsensus]
    · rw [hconsensus, hpending]
      exact hbase.pendingMatches
    · rw [hconsensus, htip]
      exact hbase.heightLe
    · have hvoter : rt₁.voter =
          { rt.voter with locked := some (vote.blockHash, rt.voter.round) } := by
        rw [← hvoter₁, voter, hconsensus]
        rfl
      rw [hvoter]
      exact .lock hproposal (hquorum hhas htype)
  · rw [hfinal] at hconsensus
    -- precommits are only counted after a lock, so the lock is that of this round
    have hprecommit : rt.consensus.phase = .precommit := by
      have haccepts := (BftConsensus.checkVote_eq_ok hcheck).2.2.2.2
      rw [htype] at haccepts
      rw [show (c₁.addVote vote).phase = rt.consensus.phase from hcore.phase] at hphase
      revert haccepts hphase
      cases rt.consensus.phase <;> simp [BftConsensus.acceptsVote]
    obtain ⟨x, hx, hlocked⟩ := h.lockedPhase (.inl hprecommit)
    refine ⟨⟨?_, ?_, ?_, ?_, ?_, ?_⟩, .of_eq hframe.signed ?_⟩
    · simp [hconsensus]
    · simp [hconsensus]
    · rw [hconsensus]
      refine fun _ => ⟨x, ?_, ?_⟩
      · rw [← hx]
        exact hcore.proposal
      · rw [show (c₁.addVote vote).round = rt.consensus.round from hcore.round, ← hlocked]
        exact hcore.lockedPair
    · rw [hconsensus]
      exact hbase.lockShape
    · rw [hconsensus, hpending]
      exact hbase.pendingMatches
    · rw [hconsensus, htip]
      exact hbase.heightLe
    · rw [← hvoter₁, voter, hconsensus]
      rfl

/-- The reaction to a counted vote precommits only what the node is locked on. -/
theorem moves_afterVote (h : Coherent rt) :
    Coherent (rt.afterVote env).1 ∧ Moves polka rt (rt.afterVote env).1 := by
  rcases rt.afterVote_cases env with hcase | ⟨b, hphase, hpending, hcase⟩ |
    ⟨b, -, -, hcase⟩ | ⟨b, chain, -, -, -, -, happly, hcase⟩
  · rw [hcase]
    exact ⟨h, .refl⟩
  · rw [hcase]
    refine ⟨h.sameCore (.refl _) (fun _ => id) le_rfl, .casting rfl rfl ?_⟩
    obtain ⟨x, hx, hlocked⟩ := h.lockedPhase (.inl hphase)
    obtain ⟨hhash, hheight⟩ := h.pendingMatches b hpending
    rw [hx, Option.some.injEq] at hhash
    rw [hheight, ← hhash]
    exact .precommit hlocked
  · rw [hcase]
    exact ⟨h.sameCore (.refl _) (by simp) le_rfl, .of_eq rfl rfl⟩
  · rw [hcase]
    refine ⟨h.sameCore (.refl _) (by simp) ?_, .of_eq rfl rfl⟩
    have := Blockchain.tipHeight_applyBlock happly
    simp only
    omega

theorem moves_receiveVote (h : Coherent rt) {vote : ConsensusMessage}
    (hquorum : ∀ c₁, rt.consensus.SameCore c₁ → rt.consensus.checkVote vote = .ok () →
      (c₁.addVote vote).hasQuorum .prevote vote.blockHash = true → vote.voteType = .prevote →
      polka rt.consensus.height rt.consensus.round vote.blockHash) :
    Coherent (rt.receiveVote env vote).1 ∧ Moves polka rt (rt.receiveVote env vote).1 := by
  rcases rt.receiveVote_cases env vote with ⟨c', e, hcore, hcase⟩ |
    ⟨hcheck, hproposal, c₁, hcore, hcase⟩
  · rw [hcase]
    exact moves_sameCore h hcore (fun _ => id) rfl rfl
  · rw [hcase]
    obtain ⟨hcounted, hmoves⟩ := moves_counted env h hcheck hproposal hcore (hquorum c₁ hcore hcheck)
    obtain ⟨hafter, hmoves'⟩ := moves_afterVote env hcounted
    exact ⟨hafter, hmoves.trans hmoves'⟩

theorem moves_receiveRoundChange (h : Coherent rt) (m : SignedRoundChange) :
    Coherent (rt.receiveRoundChange env m).1 ∧ Moves polka rt (rt.receiveRoundChange env m).1 := by
  obtain ⟨hframe, hstayed | hjump⟩ := rt.receiveRoundChange_cases env m
  · exact moves_stayed h hframe hstayed
  · exact moves_jumped h hframe hjump

theorem moves_timeout (h : Coherent rt) (now : ℕ) :
    Coherent (rt.timeoutIfDueWithRoundChange env now).1 ∧
      Moves polka rt (rt.timeoutIfDueWithRoundChange env now).1 := by
  obtain ⟨rt₁, hrt₁, hframe, hcases⟩ := rt.timeoutIfDueWithRoundChange_cases env now
  have hsign : Coherent rt₁ ∧ Moves polka rt rt₁ := by
    rcases hrt₁ with rfl | rfl
    · exact ⟨h, .refl⟩
    · exact moves_record_other h (by simp)
  obtain ⟨h₁, hmoves₁⟩ := hsign
  have hrest : Coherent (rt.timeoutIfDueWithRoundChange env now).1 ∧
      Moves polka rt₁ (rt.timeoutIfDueWithRoundChange env now).1 := by
    rcases hcases with hstayed | hjump
    · exact moves_stayed h₁ hframe hstayed
    · exact moves_jumped h₁ hframe hjump
  exact ⟨hrest.1, hmoves₁.trans hrest.2⟩

theorem moves_makeProposal (h : Coherent rt) (block : Block) :
    Coherent (rt.makeProposal env block).1 ∧ Moves polka rt (rt.makeProposal env block).1 := by
  rcases rt.makeProposal_cases env block with hcase | ⟨_, _, _, _, _, hcase⟩
  · rw [hcase]
    exact ⟨h, .refl⟩
  · rw [hcase]
    exact moves_record_other h (by simp)

theorem moves_applySyncCertificates (h : Coherent rt) (hpast : PastVotes rt)
    (certificates : List FinalityCertificate) :
    Coherent (rt.applySyncCertificates env certificates).1 ∧
      Moves polka rt (rt.applySyncCertificates env certificates).1 := by
  obtain ⟨rt₁, n, hsynced, hcases⟩ := rt.applySyncCertificates_cases env certificates
  have h₁ : Coherent rt₁ := by
    refine h.sameCore (by rw [hsynced.consensus]; exact .refl _) ?_ ?_
    · rw [hsynced.pending]
      exact fun _ => id
    · rw [hsynced.tipHeight]
      exact Nat.le_add_right ..
  have hmoves₁ : Moves polka rt rt₁ := .of_eq hsynced.signed (by rw [voter, hsynced.consensus]; rfl)
  rcases hcases with ⟨hcase, -⟩ | ⟨hpos, hcase⟩
  · rw [hcase]
    exact ⟨h₁, hmoves₁⟩
  · have hpast₁ : PastVotes rt₁ := by
      unfold PastVotes
      rw [cast_congr hsynced.signed, hsynced.consensus]
      exact hpast
    rw [hcase]
    obtain ⟨h₂, hmoves₂⟩ := moves_openNextHeight h₁ hpast₁ env (.inr (by
      have := h.heightLe
      rw [hsynced.consensus, hsynced.tipHeight]
      omega))
    exact ⟨h₂, hmoves₁.trans hmoves₂⟩

end

end ConsensusRuntime

end IeumChain
