import IeumChain.Timeouts

/-!
# Precommits and the certificate they make

A quorum of precommits is counted by the machine, and the certificate is made of the
precommits that the node collects beside it. In every round the two agree: whoever is
counted for the proposal is collected, once and with a valid signature, and both are
emptied together when the node leaves the round.
-/
namespace IeumChain

open Outcome MachineWords FiniteMap VoteTally

namespace ConsensusRuntime

/-- The machine counts with the powers of the node's validators. -/
structure Seated (rt : ConsensusRuntime) : Prop where
  validators : rt.consensus.validators = validatorPowers rt.validators
  totalPower : rt.consensus.totalPower = listedPower rt.validators
  total : total rt.consensus.validators = listedPower rt.validators
  fits : listedPower rt.validators ≤ u64Max

theorem Seated.congr {rt rt' : ConsensusRuntime} (h : Seated rt)
    (hvalidators : rt'.consensus.validators = rt.consensus.validators)
    (htotal : rt'.consensus.totalPower = rt.consensus.totalPower)
    (hlist : rt'.validators = rt.validators) : Seated rt' := by
  refine ⟨?_, ?_, ?_, ?_⟩
  · rw [hvalidators, hlist]
    exact h.validators
  · rw [htotal, hlist]
    exact h.totalPower
  · rw [hvalidators, hlist]
    exact h.total
  · rw [hlist]
    exact h.fits

theorem seated_new {rt : ConsensusRuntime} {validators : List Validator} {c : BftConsensus}
    (hnew : BftConsensus.new validators = .ok c) (hpower : listedPower validators ≤ u64Max)
    (hvalidators : rt.consensus.validators = c.validators)
    (htotal : rt.consensus.totalPower = c.totalPower) (hlist : rt.validators = validators) :
    Seated rt := by
  simp only [BftConsensus.new, check_bind_eq_ok] at hnew
  simp only [bind_eq_ok, pure_eq_ok] at hnew
  obtain ⟨-, powers, hpowers, rfl⟩ := hnew
  obtain ⟨hmap, -, -, -, -, hsum⟩ := BftConsensus.newLoop_spec hpowers
  have hempty : total (∅ : HashMap String ℕ) = 0 := rfl
  have hlisted : total powers = listedPower validators := by omega
  refine ⟨?_, ?_, ?_, ?_⟩
  · rw [hvalidators, hlist]
    exact hmap
  · rw [htotal, hlist, ← hlisted]
    exact wrappingSum_of_le (by rw [← hlisted] at hpower; exact hpower)
  · rw [hvalidators, hlist]
    exact hlisted
  · rw [hlist]
    exact hpower

/-- The precommits after a vote was counted. -/
theorem precommits_counted (rt : ConsensusRuntime) (env : Env) (vote : ConsensusMessage)
    (c : BftConsensus) :
    (rt.counted env vote c).precommits =
      if vote.voteType = .precommit ∧
          ¬∃ known ∈ rt.precommits, known.height = vote.height ∧ known.round = vote.round ∧
            known.validatorId = vote.validatorId then rt.precommits ++ [vote]
      else rt.precommits := by
  have hkept : ∀ rt₁ : ConsensusRuntime,
      (rt₁.afterPhaseChange env rt.consensus.phase).precommits = rt₁.precommits := by
    intro rt₁
    unfold afterPhaseChange resetDeadline
    split_ifs <;> rfl
  rw [counted, hkept, collectPrecommit]
  dsimp only
  split_ifs <;> rfl

/-- More than two thirds on saturating products is more than two thirds. -/
theorem lt_of_exceedsTwoThirds {power total : ℕ}
    (h : BftConsensus.exceedsTwoThirds power total = true) : total * 2 < power * 3 := by
  rw [BftConsensus.exceedsTwoThirds, decide_eq_true_eq] at h
  unfold saturatingMul at h
  omega

section
variable [Crypto]

/-- The precommits collected in a round are those that were counted for its proposal. -/
structure Collected (rt : ConsensusRuntime) : Prop where
  opening : rt.consensus.phase = .propose → rt.precommits = []
  each : ∀ v ∈ rt.precommits,
    (v.height = rt.consensus.height ∧ v.round = rt.consensus.round ∧ v.voteType = .precommit) ∧
      rt.consensus.proposal = some v.blockHash ∧ v.verify = .ok () ∧
      v.validatorId ∈ rt.consensus.validators
  nodup : (rt.precommits.map (·.validatorId)).Nodup
  covered : ∀ x, ∀ id ∈ getD rt.consensus.votes (.precommit, x) ∅,
    id ∈ rt.precommits.map (·.validatorId)

/-- In the middle of a round the node has the block that it votes for. -/
structure Poised (rt : ConsensusRuntime) : Prop where
  seated : Seated rt
  collected : Collected rt
  candidate : rt.consensus.phase = .prevote ∨ rt.consensus.phase = .precommit →
    ∃ b, rt.pending = some b ∧ rt.consensus.proposal = some b.hash ∧
      b.height = rt.consensus.height ∧ b.hash = b.calculateHash

variable {rt rt' : ConsensusRuntime}

/-! ## Rounds -/

/-- The machine, the precommits and the candidate are all that counts. -/
theorem Poised.congr (h : Poised rt) (hconsensus : rt'.consensus = rt.consensus)
    (hprecommits : rt'.precommits = rt.precommits) (hvalidators : rt'.validators = rt.validators)
    (hpending : rt.consensus.phase = .prevote ∨ rt.consensus.phase = .precommit →
      rt'.pending = rt.pending) : Poised rt' := by
  refine ⟨h.seated.congr (by rw [hconsensus]) (by rw [hconsensus]) hvalidators, ⟨?_, ?_, ?_, ?_⟩, ?_⟩
  · rw [hconsensus, hprecommits]
    exact h.collected.opening
  · rw [hconsensus, hprecommits]
    exact h.collected.each
  · rw [hprecommits]
    exact h.collected.nodup
  · rw [hconsensus, hprecommits]
    exact h.collected.covered
  · rw [hconsensus]
    intro hphase
    rw [hpending hphase]
    exact h.candidate hphase

/-- The round goes on as it was. -/
theorem Poised.stayed {new : List ConsensusMessage} (h : Poised rt) (hframe : Frame new rt rt')
    (hstayed : Stayed rt rt') : Poised rt' := by
  have hcore := hstayed.core
  refine ⟨h.seated.congr hcore.validators hcore.totalPower hframe.validators, ⟨?_, ?_, ?_, ?_⟩, ?_⟩
  · rw [hcore.phase, hstayed.precommits]
    exact h.collected.opening
  · rw [hstayed.precommits, hcore.height, hcore.round, hcore.proposal, hcore.validators]
    exact h.collected.each
  · rw [hstayed.precommits]
    exact h.collected.nodup
  · rw [hstayed.precommits, hcore.votes]
    exact h.collected.covered
  · rw [hcore.phase, hcore.proposal, hcore.height, hstayed.pending]
    exact h.candidate

theorem Poised.sameCore {c : BftConsensus} (h : Poised rt) (hcore : rt.consensus.SameCore c) :
    Poised { rt with consensus := c } := by
  have hframe : Frame [] rt { rt with consensus := c } :=
    ⟨rfl, rfl, rfl, rfl, rfl, fun _ => .inl, fun _ => .inl⟩
  exact h.stayed hframe ⟨hcore, rfl, rfl⟩

theorem Poised.record (h : Poised rt) (payload : SignedPayload) : Poised (rt.record payload) :=
  h.congr rfl rfl rfl fun _ => rfl

/-- A round that was just entered. -/
theorem Poised.entered {c : BftConsensus} {height round : ℕ} (hseated : Seated rt')
    (hconsensus : rt'.consensus = c.enterRound height round) (hprecommits : rt'.precommits = []) :
    Poised rt' := by
  refine ⟨hseated, ⟨fun _ => hprecommits, ?_, ?_, ?_⟩, ?_⟩
  · rw [hprecommits]
    exact List.forall_mem_nil _
  · rw [hprecommits]
    exact List.nodup_nil
  · intro x id hid
    rw [hconsensus] at hid
    simp [BftConsensus.enterRound, getD] at hid
  · rw [hconsensus]
    rintro (hphase | hphase) <;> cases hphase

theorem Poised.jumped {new : List ConsensusMessage} (h : Poised rt) (hframe : Frame new rt rt')
    (hjumped : Jumped rt rt') : Poised rt' := by
  obtain ⟨c, target, hcore, -, hconsensus, -, hprecommits⟩ := hjumped
  refine .entered ?_ hconsensus hprecommits
  refine h.seated.congr ?_ ?_ hframe.validators
  · rw [hconsensus]
    exact hcore.validators
  · rw [hconsensus]
    exact hcore.totalPower

theorem Poised.openNextHeight (h : Poised rt) (env : Env) : Poised (rt.openNextHeight env).1 := by
  obtain ⟨hframe, hsame | ⟨-, hconsensus, -, hprecommits⟩⟩ := rt.openNextHeight_cases env
  · rw [hsame]
    exact h
  · refine .entered ?_ hconsensus hprecommits
    refine h.seated.congr ?_ ?_ hframe.validators <;> rw [hconsensus] <;> rfl

theorem Poised.timeout (h : Poised rt) (env : Env) (now : ℕ) :
    Poised (rt.timeoutIfDueWithRoundChange env now).1 := by
  obtain ⟨rt₁, hrt₁, hframe, hcase⟩ := rt.timeoutIfDueWithRoundChange_cases env now
  have hpoised : Poised rt₁ := by
    rcases hrt₁ with rfl | rfl
    · exact h
    · exact h.record _
  rcases hcase with hstayed | hjumped
  · exact hpoised.stayed hframe hstayed
  · exact hpoised.jumped hframe hjumped

/-! ## Proposals -/

/-- What a proposed block has passed before the node votes for it. -/
theorem block_of_checkProposal {env : Env} {p : SignedProposal}
    (hblock : rt.checkProposedBlock env p.block = .ok ())
    (hcheck : rt.consensus.checkProposal p = .ok ()) :
    p.block.height = rt.chain.tipHeight + 1 ∧ p.block.previousHash = rt.chain.tipHash ∧
      p.block.hash = p.block.calculateHash := by
  simp only [checkProposedBlock, check_bind_eq_ok, reject_eq_ok, not_or, not_not] at hblock
  obtain ⟨-, -, -, hverify, -⟩ := BftConsensus.checkProposal_eq_ok hcheck
  simp only [SignedProposal.verify, check_bind_eq_ok, reject_eq_ok, not_not] at hverify
  exact ⟨hblock.1.2, hblock.1.1, hverify.2.1⟩

theorem Poised.receiveProposal (h : Poised rt) (env : Env) (p : SignedProposal) :
    Poised (rt.receiveProposal env p).1 := by
  rcases rt.receiveProposal_cases env p with ⟨c', e, hcore, hcase⟩ | ⟨hblock, hcheck, hphase, hcase⟩
  · rw [hcase]
    exact h.sameCore hcore
  · rw [hcase]
    have hcore := rt.consensus.sameCore_noteValidRound p
    have hnone := h.collected.opening hphase
    have hround := (BftConsensus.checkProposal_eq_ok hcheck).2.2.1
    obtain ⟨-, -, hhash⟩ := block_of_checkProposal hblock hcheck
    suffices hpoised : Poised
        ({ rt with consensus := rt.accepted p, pending := some p.block }.resetDeadline env) from
      hpoised.record _
    refine ⟨h.seated.congr hcore.validators hcore.totalPower rfl, ⟨fun _ => hnone, ?_, ?_, ?_⟩, ?_⟩
    · intro v hv
      have hv' : v ∈ rt.precommits := hv
      rw [hnone] at hv'
      cases hv'
    · exact h.collected.nodup
    · intro x id hid
      refine h.collected.covered x id ?_
      rw [← hcore.votes]
      exact hid
    · intro _
      exact ⟨p.block, rfl, rfl, hround.trans hcore.height.symm, hhash⟩

/-! ## Votes -/

theorem Collected.counted (h : Collected rt) (env : Env) {vote : ConsensusMessage}
    (hcheck : rt.consensus.checkVote vote = .ok ())
    (hproposal : rt.consensus.proposal = some vote.blockHash) {c₁ : BftConsensus}
    (hcore : rt.consensus.SameCore c₁) :
    Collected (rt.counted env vote ((c₁.addVote vote).advancePhase vote)) := by
  obtain ⟨hheight, hround, hmember, hverify, haccepts⟩ := BftConsensus.checkVote_eq_ok hcheck
  have hsame := (c₁.addVote vote).sameRound_advancePhase vote
  obtain ⟨-, hconsensus, -⟩ := frame_counted rt env vote ((c₁.addVote vote).advancePhase vote)
  have hprecommits := precommits_counted rt env vote ((c₁.addVote vote).advancePhase vote)
  have hvotes := hsame.votes
  generalize rt.counted env vote ((c₁.addVote vote).advancePhase vote) = rt₁ at *
  rw [← hconsensus] at hsame hvotes
  have hknown : ∀ v ∈ rt.precommits, v ∈ rt₁.precommits := by
    intro v hv
    rw [hprecommits]
    split_ifs
    · exact List.mem_append_left _ hv
    · exact hv
  refine ⟨?_, ?_, ?_, ?_⟩
  · intro hphase
    refine absurd hphase ?_
    have hstart : (c₁.addVote vote).phase = rt.consensus.phase := hcore.phase
    rw [hconsensus]
    rcases (c₁.addVote vote).advancePhase_cases vote with hcase | ⟨-, -, -, hcase⟩ | ⟨-, -, -, hcase⟩
    · rw [hcase, hstart]
      intro hpropose
      rw [hpropose] at haccepts
      cases hvote : vote.voteType <;> rw [hvote] at haccepts <;> cases haccepts
    · rw [hcase]
      exact ConsensusPhase.noConfusion
    · rw [hcase]
      exact ConsensusPhase.noConfusion
  · rw [hsame.height, hsame.round, hsame.proposal, hsame.validators]
    have hheld : ∀ v ∈ rt.precommits, (v.height = c₁.height ∧ v.round = c₁.round ∧
        v.voteType = .precommit) ∧ c₁.proposal = some v.blockHash ∧ v.verify = .ok () ∧
        v.validatorId ∈ c₁.validators := by
      rw [hcore.height, hcore.round, hcore.proposal, hcore.validators]
      exact h.each
    intro v hv
    rw [hprecommits] at hv
    split_ifs at hv with hnew
    · rcases List.mem_append.1 hv with hv | hv
      · exact hheld v hv
      · obtain rfl := List.mem_singleton.1 hv
        exact ⟨⟨hheight.trans hcore.height.symm, hround.trans hcore.round.symm, hnew.1⟩,
          hcore.proposal.trans hproposal, hverify, hcore.validators.symm ▸ hmember⟩
    · exact hheld v hv
  · rw [hprecommits]
    split_ifs with hnew
    · rw [List.map_append, List.map_singleton]
      refine List.Nodup.append h.nodup (List.nodup_singleton _) ?_
      intro id hid hid'
      obtain rfl := List.mem_singleton.1 hid'
      obtain ⟨known, hmem, hid⟩ := List.mem_map.1 hid
      obtain ⟨⟨hknownHeight, hknownRound, -⟩, -⟩ := h.each known hmem
      exact hnew.2 ⟨known, hmem, hknownHeight.trans hheight.symm, hknownRound.trans hround.symm, hid⟩
    · exact h.nodup
  · intro x id hid
    rw [hvotes] at hid
    rcases BftConsensus.mem_votes_addVote hid with hid | ⟨rfl, htype, -⟩
    · rw [hcore.votes] at hid
      obtain ⟨v, hv, rfl⟩ := List.mem_map.1 (h.covered x id hid)
      exact List.mem_map_of_mem (hknown v hv)
    · by_cases hnew : ∃ known ∈ rt.precommits, known.height = vote.height ∧
          known.round = vote.round ∧ known.validatorId = vote.validatorId
      · obtain ⟨known, hmem, -, -, hid⟩ := hnew
        exact List.mem_map.2 ⟨known, hknown known hmem, hid⟩
      · rw [hprecommits, if_pos ⟨htype.symm, hnew⟩]
        exact List.mem_map_of_mem (List.mem_append_right _ (List.mem_singleton_self vote))

/-- The precommits behind a quorum make a certificate. -/
theorem Collected.verify (h : Collected rt) (hseated : Seated rt) {b : Block}
    (hproposal : rt.consensus.proposal = some b.hash) (hheight : b.height = rt.consensus.height)
    (hhash : b.hash = b.calculateHash)
    (hquorum : rt.consensus.hasQuorum .precommit b.hash = true) :
    (rt.ownCertificate b).verify rt.validators = .ok () := by
  have haccepted : ∀ v ∈ rt.precommits, Accepted ((rt.ownCertificate b).rule rt.validators) v := by
    intro v hv
    obtain ⟨⟨hvheight, hvround, hvtype⟩, hvproposal, hverify, hmember⟩ := h.each v hv
    refine ⟨?_, hverify, ?_⟩
    · have hvhash := Option.some.inj (hvproposal.symm.trans hproposal)
      simp only [FinalityCertificate.rule, ownCertificate, votesFor, decide_eq_true_eq]
      exact ⟨hvheight.trans hheight.symm, hvround, hvtype, hvhash⟩
    · rw [hseated.validators] at hmember
      exact AList.lookup_isSome.2 hmember
  have hsum : (rt.precommits.map fun v =>
      powerOf ((rt.ownCertificate b).rule rt.validators) v.validatorId).sum =
      ∑ id ∈ (rt.precommits.map (·.validatorId)).toFinset, getD rt.consensus.validators id 0 := by
    rw [List.sum_toFinset _ h.nodup, List.map_map, hseated.validators]
    rfl
  have hle : rt.consensus.votePower .precommit b.hash ≤
      ∑ id ∈ (rt.precommits.map (·.validatorId)).toFinset, getD rt.consensus.validators id 0 := by
    refine (Nat.mod_le _ _).trans (Finset.sum_le_sum_of_subset fun id hid => ?_)
    exact List.mem_toFinset.2 (h.covered b.hash id hid)
  have htop := sum_getD_le_total rt.consensus.validators
    (rt.precommits.map (·.validatorId)).toFinset
  have hexceeds := lt_of_exceedsTwoThirds hquorum
  rw [hseated.total] at htop
  rw [hseated.totalPower] at hexceeds
  rw [← hsum] at hle htop
  have hmax : u64Max ≤ u128Max := by decide
  have hcount := count_complete _ haccepted h.nodup
    ((htop.trans hseated.fits).trans hmax)
  simp only [FinalityCertificate.verify, check_bind_eq_ok, reject_eq_ok, not_not]
  refine ⟨hhash, by omega, ?_⟩
  simp only [bind_eq_ok, reject_eq_ok, not_le]
  refine ⟨_, hcount, ?_⟩
  dsimp only [FinalityCertificate.rule] at *
  omega

/-- A vote that is counted in the middle of a round leaves the candidate in place. -/
theorem Poised.counted (h : Poised rt) (env : Env) {vote : ConsensusMessage}
    (hcheck : rt.consensus.checkVote vote = .ok ())
    (hproposal : rt.consensus.proposal = some vote.blockHash) {c₁ : BftConsensus}
    (hcore : rt.consensus.SameCore c₁) :
    Poised (rt.counted env vote ((c₁.addVote vote).advancePhase vote)) := by
  have hcollected := h.collected.counted env hcheck hproposal hcore
  have hsame := (c₁.addVote vote).sameRound_advancePhase vote
  obtain ⟨hframe, hconsensus, hpending⟩ :=
    frame_counted rt env vote ((c₁.addVote vote).advancePhase vote)
  generalize rt.counted env vote ((c₁.addVote vote).advancePhase vote) = rt₁ at *
  rw [← hconsensus] at hsame
  refine ⟨h.seated.congr (hsame.validators.trans hcore.validators)
    (hsame.totalPower.trans hcore.totalPower) hframe.validators, hcollected, fun hphase => ?_⟩
  rw [hpending, hsame.proposal, hsame.height]
  show ∃ b, _ ∧ c₁.proposal = _ ∧ _ = c₁.height ∧ _
  rw [hcore.proposal, hcore.height]
  refine h.candidate ?_
  have hstart : (c₁.addVote vote).phase = rt.consensus.phase := hcore.phase
  rw [hconsensus] at hphase
  rcases (c₁.addVote vote).advancePhase_cases vote with hstep | ⟨-, hprevote, -, -⟩ | ⟨-, -, -, hstep⟩
  · rw [hstep, hstart] at hphase
    exact hphase
  · exact .inl (hstart.symm.trans hprevote)
  · rw [hstep] at hphase
    rcases hphase with hphase | hphase <;> cases hphase

/-- The vote that finalizes leaves a node whose candidate is certified. -/
theorem Poised.certified (h : Poised rt) (env : Env) {vote : ConsensusMessage}
    (hcheck : rt.consensus.checkVote vote = .ok ())
    (hproposal : rt.consensus.proposal = some vote.blockHash) {c₁ : BftConsensus}
    (hcore : rt.consensus.SameCore c₁) (hbefore : rt.consensus.phase ≠ .finalized)
    (hafter : ((c₁.addVote vote).advancePhase vote).phase = .finalized) :
    ∃ b, rt.pending = some b ∧ rt.consensus.phase = .precommit ∧
      (rt.counted env vote ((c₁.addVote vote).advancePhase vote)).consensus.finalized =
        some b.hash ∧
      ((rt.counted env vote ((c₁.addVote vote).advancePhase vote)).ownCertificate b).verify
        rt.validators = .ok () := by
  have hcollected := h.collected.counted env hcheck hproposal hcore
  have hsame := (c₁.addVote vote).sameRound_advancePhase vote
  obtain ⟨hframe, hconsensus, hpending⟩ :=
    frame_counted rt env vote ((c₁.addVote vote).advancePhase vote)
  have hstart : (c₁.addVote vote).phase = rt.consensus.phase := hcore.phase
  obtain ⟨hvote, hquorum, hstep⟩ : vote.voteType = .precommit ∧
      (c₁.addVote vote).hasQuorum .precommit vote.blockHash = true ∧
      (c₁.addVote vote).advancePhase vote =
        { c₁.addVote vote with phase := .finalized, finalized := some vote.blockHash } := by
    rcases (c₁.addVote vote).advancePhase_cases vote with hstep | ⟨-, -, -, hstep⟩ |
      ⟨hvote, -, hquorum, hstep⟩
    · rw [hstep, hstart] at hafter
      exact absurd hafter hbefore
    · rw [hstep] at hafter
      cases hafter
    · exact ⟨hvote, hquorum, hstep⟩
  obtain ⟨-, -, -, -, haccepts⟩ := BftConsensus.checkVote_eq_ok hcheck
  have hprecommit : rt.consensus.phase = .precommit := by
    rw [hvote] at haccepts
    cases hphase : rt.consensus.phase with
    | precommit => rfl
    | finalized => exact absurd hphase hbefore
    | _ =>
        rw [hphase] at haccepts
        cases haccepts
  obtain ⟨b, hb, hbproposal, hbheight, hbhash⟩ := h.candidate (.inr hprecommit)
  have hhash : vote.blockHash = b.hash := Option.some.inj (hproposal.symm.trans hbproposal)
  refine ⟨b, hb, hprecommit, by rw [hconsensus, hstep, ← hhash], ?_⟩
  generalize rt.counted env vote ((c₁.addVote vote).advancePhase vote) = rt₁ at *
  rw [← hconsensus] at hsame
  have hseated : Seated rt₁ := h.seated.congr (hsame.validators.trans hcore.validators)
    (hsame.totalPower.trans hcore.totalPower) hframe.validators
  rw [← hframe.validators]
  refine hcollected.verify hseated ?_ ?_ hbhash ?_
  · rw [hsame.proposal]
    exact hcore.proposal.trans hbproposal
  · rw [hsame.height]
    exact hbheight.trans hcore.height.symm
  · rw [hconsensus, hstep, ← hhash]
    exact hquorum

/-- What follows a counted vote leaves the machine and the precommits alone. -/
theorem afterVote_frame (rt : ConsensusRuntime) (env : Env) :
    (rt.afterVote env).1.consensus = rt.consensus ∧
      (rt.afterVote env).1.precommits = rt.precommits ∧
      (rt.afterVote env).1.validators = rt.validators ∧
      (rt.consensus.phase ≠ .finalized → (rt.afterVote env).1.pending = rt.pending) := by
  rcases rt.afterVote_cases env with hcase | ⟨b, -, -, hcase⟩ | ⟨b, hphase, -, hcase⟩ |
    ⟨b, chain, hphase, -, -, -, -, hcase⟩
  · rw [hcase]
    exact ⟨rfl, rfl, rfl, fun _ => rfl⟩
  · rw [hcase]
    exact ⟨rfl, rfl, rfl, fun _ => rfl⟩
  · rw [hcase]
    exact ⟨rfl, rfl, rfl, fun hnot => absurd hphase hnot⟩
  · rw [hcase]
    exact ⟨rfl, rfl, rfl, fun hnot => absurd hphase hnot⟩

theorem Poised.afterVote (h : Poised rt) (env : Env) : Poised (rt.afterVote env).1 := by
  obtain ⟨hconsensus, hprecommits, hvalidators, hpending⟩ := rt.afterVote_frame env
  refine h.congr hconsensus hprecommits hvalidators fun hphase => hpending ?_
  rintro hfinalized
  rw [hfinalized] at hphase
  rcases hphase with hphase | hphase <;> cases hphase

theorem Poised.receiveVote (h : Poised rt) (env : Env) (vote : ConsensusMessage) :
    Poised (rt.receiveVote env vote).1 := by
  rcases rt.receiveVote_cases env vote with ⟨c', e, hcore, hcase⟩ |
    ⟨hcheck, hproposal, c₁, hcore, hcase⟩
  · rw [hcase]
    exact h.sameCore hcore
  · rw [hcase]
    exact (h.counted env hcheck hproposal hcore).afterVote env

theorem poisedReplay (env : Env) : ReplayRule env Poised (fun _ _ => True) (fun _ _ => True) where
  receive _ v h _ := h.receiveVote env v
  keep _ _ _ _ _ _ := trivial
  keepSent _ _ _ _ _ _ := trivial
  reply _ _ _ _ _ _ := ⟨trivial, trivial⟩
  deferred _ _ _ _ := trivial
  store _ _ h _ := h.congr rfl rfl rfl fun _ => rfl
  storeKeep _ _ _ _ := trivial
  storeSent _ _ _ _ := trivial

/-! ## Blocks from peers -/

theorem Poised.applySyncCertificates (h : Poised rt) (env : Env)
    (certificates : List FinalityCertificate) :
    Poised (rt.applySyncCertificates env certificates).1 := by
  obtain ⟨n, hsynced, -⟩ := applySyncLoop_synced env certificates rt 0
  unfold ConsensusRuntime.applySyncCertificates
  generalize applySyncLoop env certificates rt 0 = result at *
  obtain ⟨rt₁, result⟩ := result
  have hpoised : Poised rt₁ :=
    h.congr hsynced.consensus hsynced.precommits hsynced.validators fun _ => hsynced.pending
  cases result with
  | error e => exact hpoised
  | ok total =>
      dsimp only
      split_ifs
      · exact hpoised
      · exact hpoised.openNextHeight env

/-- Certificates extend the chain and the archive and leave the rest alone. -/
theorem applySyncLoop_eq (env : Env) (certificates : List FinalityCertificate)
    (rt : ConsensusRuntime) (applied : ℕ) : ∃ chain finalized,
    (applySyncLoop env certificates rt applied).1 = { rt with chain, finalized } := by
  induction certificates generalizing rt applied with
  | nil => exact ⟨rt.chain, rt.finalized, rfl⟩
  | cons c rest ih =>
      unfold applySyncLoop
      cases hone : rt.applySyncCertificate env c with
      | error e => exact ⟨rt.chain, rt.finalized, rfl⟩
      | ok result =>
          have hwhich := applySyncCertificate_of_acceptable (acceptable_of_applySyncCertificate hone)
          rw [hone] at hwhich
          split_ifs at hwhich
          · cases hwhich
            exact ih _ _
          · cases hwhich
            exact ih { rt with chain := rt.chain.offer c.block, finalized := rt.finalized ++ [c] } _

/-- Blocks without certificates extend the chain and leave the rest alone. -/
theorem applySyncBatch_grown (env : Env) (blocks : List Block) (rt : ConsensusRuntime) (applied : ℕ) :
    ∃ chain, (applySyncBatch env blocks rt applied).1 = { rt with chain } ∧
      rt.chain.tipHeight ≤ chain.tipHeight ∧ (∀ b ∈ rt.chain.blocks, b ∈ chain.blocks) ∧
      (chain = rt.chain ∨ ∃ b',
        blocks.find? (fun x => rt.chain.tipHeight < x.height) = some b' ∧
          b'.height = rt.chain.tipHeight + 1 ∧ b' ∈ chain.blocks) := by
  induction blocks generalizing rt applied with
  | nil => exact ⟨rt.chain, rfl, le_rfl, fun _ => id, .inl rfl⟩
  | cons block rest ih =>
      have hstays : ∃ chain, rt = { rt with chain } ∧ rt.chain.tipHeight ≤ chain.tipHeight ∧
          (∀ b ∈ rt.chain.blocks, b ∈ chain.blocks) ∧
          (chain = rt.chain ∨ ∃ b',
            (block :: rest).find? (fun x => rt.chain.tipHeight < x.height) = some b' ∧
              b'.height = rt.chain.tipHeight + 1 ∧ b' ∈ chain.blocks) :=
        ⟨rt.chain, rfl, le_rfl, fun _ => id, .inl rfl⟩
      unfold applySyncBatch
      dsimp only
      split_ifs with hknown hgap
      · rw [List.find?_cons_of_neg (by simpa using Nat.le_of_lt_succ hknown)]
        exact ih rt applied
      · exact hstays
      · cases rt.validateScheduledBlock env.unixNow block with
        | error e => exact hstays
        | ok u =>
            cases happly : rt.chain.applyBlock block with
            | error e => exact hstays
            | ok extended =>
                obtain ⟨chain, hcase, htip, hblocks, -⟩ := ih { rt with chain := extended } (applied + 1)
                have hgrown := Blockchain.tipHeight_applyBlock happly
                have hnew : block ∈ extended.blocks := by
                  obtain ⟨-, -, -, l, -, rfl⟩ := Blockchain.applyBlock_eq_ok.1 happly
                  exact List.mem_append_right _ (List.mem_singleton_self _)
                refine ⟨chain, hcase, ?_, ?_, .inr ⟨block, ?_, not_not.1 hgap, hblocks block hnew⟩⟩
                · dsimp only at htip
                  omega
                · intro b hb
                  exact hblocks b (Blockchain.mem_blocks_applyBlock happly hb)
                · exact List.find?_cons_of_pos (by simp; omega)

theorem Poised.replaceBootstrapValidators (h : Poised rt) (env : Env)
    {validators : List Validator} (hpower : listedPower validators ≤ u64Max) :
    Poised (rt.replaceBootstrapValidators env validators).1 := by
  rcases rt.replaceBootstrapValidators_cases env validators with hcase | ⟨-, -, c, hnew, hcase⟩
  · rw [hcase]
    exact h
  · rw [hcase]
    exact .entered (seated_new hnew hpower rfl rfl rfl) rfl rfl

theorem Poised.installCertifiedSnapshot (h : Poised rt) (env : Env) (snapshot : StateSnapshot)
    (certificate : SnapshotCertificate) :
    Poised (rt.installCertifiedSnapshot env snapshot certificate).1 := by
  unfold ConsensusRuntime.installCertifiedSnapshot
  cases rt.restoreSnapshot snapshot certificate with
  | error e => exact h
  | ok restored =>
      cases restored with
      | none => exact h
      | some chain =>
          have hpoised : Poised { rt with chain } := h.congr rfl rfl rfl fun _ => rfl
          dsimp only
          rcases rt.consensus.startRound_cases (snapshot.height + 1) 0 with ⟨e, hcase⟩ | ⟨-, hcase⟩
          · rw [hcase]
            exact hpoised
          · rw [hcase]
            exact .entered (h.seated.congr rfl rfl rfl) rfl rfl

/-! ## Runs -/

theorem Poised.run (h : Poised rt) (env : Env) (call : Call) : Poised (rt.run env call).1 := by
  cases call with
  | makeProposal block =>
      rcases rt.makeProposal_cases env block with hcase | ⟨_, _, _, _, _, hcase⟩
      · simp only [ConsensusRuntime.run, hcase]
        exact h
      · simp only [ConsensusRuntime.run, hcase]
        exact h.record _
  | receiveProposal p => exact h.receiveProposal env p
  | receiveVote vote => exact h.receiveVote env vote
  | deferVote vote =>
      obtain ⟨hframe, hstayed⟩ := rt.frame_deferVote vote
      exact h.stayed hframe hstayed
  | replayDeferredVotes => exact ((poisedReplay env).replay h).1
  | receiveRoundChange m =>
      obtain ⟨hframe, hstayed | hjumped⟩ := rt.receiveRoundChange_cases env m
      · exact h.stayed hframe hstayed
      · exact h.jumped hframe hjumped
  | timeoutIfDueWithRoundChange now => exact h.timeout env now
  | applySyncCertificates certificates => exact h.applySyncCertificates env certificates
  | advanceAfterFinalization =>
      rcases rt.advanceAfterFinalization_cases env with hcase | ⟨-, hcase⟩
      · simp only [ConsensusRuntime.run, hcase]
        exact h
      · simp only [ConsensusRuntime.run, hcase]
        exact h.openNextHeight env
  | restartPhaseTimeout now => exact h.congr rfl rfl rfl fun _ => rfl
  | takeEvidence => exact h.sameCore (by constructor <;> rfl)
  | takeFinalized => exact h.congr rfl rfl rfl fun _ => rfl

/-- Powers add up in a machine word, and no round is cut short by the test hook. -/
def Unforced : Operation → Prop
  | .forceTimeoutForTest => False
  | .replaceBootstrapValidators validators => listedPower validators ≤ u64Max
  | _ => True

theorem Poised.perform (h : Poised rt) (env : Env) {op : Operation} (hop : Unforced op) :
    Poised (rt.perform env op) := by
  cases op with
  | call call => exact h.run env call
  | timeoutIfDue now => exact h.timeout env now
  | forceTimeoutForTest => exact hop.elim
  | applySyncBatch blocks =>
      obtain ⟨chain, hcase, -⟩ := applySyncBatch_grown env blocks rt 0
      simp only [ConsensusRuntime.perform, hcase]
      exact h.congr rfl rfl rfl fun _ => rfl
  | importCertificateHistory certificates =>
      obtain ⟨finalized, hcase⟩ := rt.importCertificateHistory_eq certificates
      simp only [ConsensusRuntime.perform, hcase]
      exact h.congr rfl rfl rfl fun _ => rfl
  | installCertifiedSnapshot snapshot certificate =>
      exact h.installCertifiedSnapshot env snapshot certificate
  | replaceBootstrapValidators validators => exact h.replaceBootstrapValidators env hop
  | configure => exact h.congr rfl rfl rfl fun _ => rfl

theorem poised_prepared {validators : List Validator} (hstart : Prepared validators rt)
    (hpower : listedPower validators ≤ u64Max) : Poised rt := by
  obtain ⟨chain, self, timeouts, instant, base, _, _, _, _, _, hbase, rfl⟩ := hstart
  simp only [withSigner, bind_eq_ok, pure_eq_ok] at hbase
  obtain ⟨c, hnew, rfl⟩ := hbase
  exact .entered (seated_new hnew hpower rfl rfl rfl) rfl rfl

/-- In every run without the test hook, the vote that finalizes a block leaves precommits that
make a certificate of it. -/
theorem certificate_verifies_of_reached {validators : List Validator} {rt₀ : ConsensusRuntime}
    (hstart : Prepared validators rt₀) (hpower : listedPower validators ≤ u64Max)
    (hrun : Reached (fun _ _ => Unforced) rt₀ rt) {env : Env} {vote : ConsensusMessage}
    (hbefore : rt.consensus.phase ≠ .finalized)
    (hafter : (rt.receiveVote env vote).1.consensus.phase = .finalized) :
    ∃ b, rt.pending = some b ∧ (rt.receiveVote env vote).1.consensus.finalized = some b.hash ∧
      FinalityCertificate.verify
        { block := b, round := (rt.receiveVote env vote).1.consensus.round
          precommits := (rt.receiveVote env vote).1.precommits } rt.validators = .ok () := by
  have hpoised : Poised rt := by
    clear hbefore hafter
    induction hrun with
    | refl => exact poised_prepared hstart hpower
    | tail _ hstep ih =>
        rcases hstep with ⟨env, op, hop, rfl⟩ | ⟨votes, rfl⟩
        · exact ih.perform env hop
        · exact ih.congr rfl rfl rfl fun _ => rfl
  rcases rt.receiveVote_cases env vote with ⟨c', e, hcore, hcase⟩ |
    ⟨hcheck, hproposal, c₁, hcore, hcase⟩
  · rw [hcase] at hafter
    exact absurd (hcore.phase.symm.trans hafter) hbefore
  · rw [hcase] at hafter ⊢
    obtain ⟨hconsensus, hprecommits, -, -⟩ :=
      (rt.counted env vote ((c₁.addVote vote).advancePhase vote)).afterVote_frame env
    obtain ⟨-, hmachine, -⟩ := frame_counted rt env vote ((c₁.addVote vote).advancePhase vote)
    rw [hconsensus, hmachine] at hafter
    obtain ⟨b, hb, -, hfinalized, hverify⟩ :=
      hpoised.certified env hcheck hproposal hcore hbefore hafter
    rw [hconsensus, hprecommits]
    exact ⟨b, hb, hfinalized, hverify⟩

end

end ConsensusRuntime

namespace Lone

open ConsensusRuntime

attribute [local instance] agreementCrypto

theorem prepared : Prepared validatorSet.validators node :=
  ⟨chain, _, _, _, node, _, _, _, _, _, eq_ok_get started_ok, rfl⟩

theorem powers_fit : listedPower validatorSet.validators ≤ u64Max := by
  have hone : listedPower validatorSet.validators = 1 := rfl
  rw [hone]
  decide

theorem certificate_verifies_of_reached_round : ∃ rt,
    Reached (fun _ _ => Unforced) node rt ∧ rt.consensus.phase = .precommit ∧
      ∃ b, rt.pending = some b ∧ FinalityCertificate.verify
        { block := b, round := (rt.receiveVote env (vote block .precommit)).1.consensus.round
          precommits := (rt.receiveVote env (vote block .precommit)).1.precommits }
        rt.validators = .ok () := by
  obtain ⟨proposed, locked, finished, hproposed, hlocked, hfinished, -, -, -, hafter, hphase⟩ :=
    finishes
  have hrun : Reached (fun _ _ => Unforced) node locked :=
    .trans (reached_call (by trivial) hproposed) (reached_call (by trivial) hlocked)
  rw [← hfinished] at hafter
  have hbefore : locked.consensus.phase ≠ .finalized := by
    rw [hphase]
    exact ConsensusPhase.noConfusion
  obtain ⟨b, hb, -, hverify⟩ :=
    certificate_verifies_of_reached prepared powers_fit hrun hbefore hafter
  exact ⟨locked, hrun, hphase, b, hb, hverify⟩

end Lone

end IeumChain
