import IeumChain.NodeMoves
import IeumChain.Quorums

/-!
# Votes in store

What a node keeps of the votes it received, and why it may rely on them: every stored
vote of an honest validator was cast by it. Each call keeps this.
-/
namespace IeumChain

open ByteCodec Outcome MachineWords FiniteMap LockedVoting

/-! ## What honest validators have signed -/

/-- The fields of a vote fit their widths in the signed bytes. -/
def ConsensusMessage.InRange (m : ConsensusMessage) : Prop := m.height < 2 ^ 64 ∧ m.round < 2 ^ 32

/-- Votes of one validator with the same bytes have the same content. -/
theorem content_eq_of_bytesToSign {m : ConsensusMessage} (hm : m.InRange) {height round : ℕ}
    {voteType : VoteType} {x : String} (hheight : height < 2 ^ 64) (hround : round < 2 ^ 32)
    (h : ConsensusMessage.bytesToSign height round m.validatorId voteType x = m.unsignedBytes) :
    voteType = m.voteType ∧ height = m.height ∧ round = m.round ∧ x = m.blockHash := by
  simp only [ConsensusMessage.unsignedBytes, ConsensusMessage.bytesToSign, List.append_assoc,
    List.append_cancel_left_eq] at h
  obtain ⟨h₁, h⟩ := beBytes_append_inj (by simpa using hheight) (by simpa using hm.1) h
  obtain ⟨h₂, h⟩ := beBytes_append_inj (by simpa using hround) (by simpa using hm.2) h
  simp only [List.cons_append, List.nil_append, List.cons.injEq, List.append_cancel_left_eq] at h
  refine ⟨?_, h₁, h₂, pushText_inj h.2⟩
  have htag := h.1
  revert htag
  cases voteType <;> cases m.voteType <;> decide

/-- The leading texts keep votes apart from everything else a validator signs. -/
theorem exists_vote_of_bytes {payload : SignedPayload} {m : ConsensusMessage}
    (h : payload.bytes m.validatorId = m.unsignedBytes) :
    ∃ height round voteType x, payload = .vote height round voteType x := by
  cases payload with
  | vote height round voteType x => exact ⟨height, round, voteType, x, rfl⟩
  | proposal height round x validRound prevotes =>
      simp only [SignedPayload.bytes, SignedProposal.bytesToSign, ConsensusMessage.unsignedBytes,
        ConsensusMessage.bytesToSign, List.append_assoc] at h
      exact absurd (take_eq_of_append_eq (n := 6) (by decide) (by decide) h) (by decide)
  | roundChange chainId genesisCommitment height round =>
      simp only [SignedPayload.bytes, SignedRoundChange.bytesToSign,
        ConsensusMessage.unsignedBytes, ConsensusMessage.bytesToSign, List.append_assoc] at h
      exact absurd (take_eq_of_append_eq (n := 6) (by decide) (by decide) h) (by decide)

section
variable (S : ValidatorSet)

/-- Everything in the votes of the current round comes from members, the honest ones among
whom have cast it. -/
def VotesBacked (log : String → Vote String → Prop) (c : BftConsensus) : Prop :=
  ∀ voteType x, ∀ id ∈ getD c.votes (voteType, x) ∅,
    id ∈ S.members ∧ (S.Honest id → log id ⟨voteType.kind, c.height, c.round, x⟩)

variable {S} {log log' : String → Vote String → Prop}

theorem decided_mono {height : ℕ} {x : String} (h : S.committee.Decided log height x)
    (hle : ∀ id w, log id w → log' id w) : S.committee.Decided log' height x := by
  obtain ⟨round, hsupported⟩ := h
  exact ⟨round, hsupported.mono hle⟩

/-- A quorum in the code is a quorum of the committee whose honest members cast the vote. -/
theorem VotesBacked.supported {c : BftConsensus} (h : VotesBacked S log c) (hcounts : S.Counts c)
    {voteType : VoteType} {x : String} (hquorum : c.hasQuorum voteType x = true) :
    S.committee.Supported log ⟨voteType.kind, c.height, c.round, x⟩ :=
  ⟨_, hcounts.hasQuorum (fun id hid => (h voteType x id hid).1) hquorum,
    fun id hid hhonest => (h voteType x id hid).2 hhonest⟩

theorem VotesBacked.sameCore {c c' : BftConsensus} (h : VotesBacked S log c)
    (hcore : c.SameCore c') : VotesBacked S log c' := by
  intro voteType x id hid
  rw [hcore.votes] at hid
  rw [hcore.height, hcore.round]
  exact h voteType x id hid

theorem ValidatorSet.Counts.sameCore {c c' : BftConsensus} (h : S.Counts c)
    (hcore : c.SameCore c') : S.Counts c' :=
  ⟨hcore.validators.trans h.validators, hcore.totalPower.trans h.totalPower⟩

theorem ValidatorSet.Counts.addVote {c : BftConsensus} (h : S.Counts c) (m : ConsensusMessage) :
    S.Counts (c.addVote m) := ⟨h.validators, h.totalPower⟩

end

section
variable [Crypto] (S : ValidatorSet)

/-- A verified vote of an honest validator was cast by it. -/
def Genuine (log : String → Vote String → Prop) (m : ConsensusMessage) : Prop :=
  m.InRange ∧ (m.verify = .ok () → S.Honest m.validatorId → log m.validatorId m.content)

/-- What the node of `owner` stores is backed by votes that honest validators have cast. -/
structure Backed (log : String → Vote String → Prop) (owner : String) (rt : ConsensusRuntime) :
    Prop where
  validator : rt.validator = owner
  validators : rt.validators = S.validators
  counts : S.Counts rt.consensus
  votes : VotesBacked S log rt.consensus
  decided : ∀ x, rt.consensus.finalized = some x → S.committee.Decided log rt.consensus.height x
  deferred : ∀ v ∈ rt.deferredVotes, Genuine S log v
  precommits : ∀ v ∈ rt.precommits, Genuine S log v
  certificates : ∀ c ∈ rt.finalized, S.committee.Decided log c.block.height c.block.hash
  range : ∀ height round voteType x, .vote height round voteType x ∈ rt.signed →
    height < 2 ^ 64 ∧ round < 2 ^ 32

variable {S} {log log' : String → Vote String → Prop} {owner : String}

theorem Genuine.mono {m : ConsensusMessage} (h : Genuine S log m)
    (hle : ∀ id w, log id w → log' id w) : Genuine S log' m :=
  ⟨h.1, fun hverify hhonest => hle _ _ (h.2 hverify hhonest)⟩

theorem Backed.mono {rt : ConsensusRuntime} (h : Backed S log owner rt)
    (hle : ∀ id w, log id w → log' id w) : Backed S log' owner rt where
  validator := h.validator
  validators := h.validators
  counts := h.counts
  votes voteType x id hid :=
    ⟨(h.votes voteType x id hid).1, fun hhonest => hle _ _ ((h.votes voteType x id hid).2 hhonest)⟩
  decided x hx := decided_mono (h.decided x hx) hle
  deferred v hv := (h.deferred v hv).mono hle
  precommits v hv := (h.precommits v hv).mono hle
  certificates c hc := decided_mono (h.certificates c hc) hle
  range := h.range

theorem supported_of_attested {votes : List ConsensusMessage} {height round : ℕ}
    {voteType : VoteType} {x : String} (h : S.Attested votes height round voteType x)
    (hvotes : ∀ v ∈ votes, Genuine S log v) :
    S.committee.Supported log ⟨voteType.kind, height, round, x⟩ := by
  obtain ⟨Q, hQ, hmembers⟩ := h
  refine ⟨Q, hQ, fun id hid hhonest => ?_⟩
  obtain ⟨v, hv, rfl, hverify, rfl, rfl, rfl, rfl⟩ := hmembers id hid
  exact (hvotes v hv).2 hverify hhonest

/-- A checked genuine vote may be added. -/
theorem VotesBacked.addVote {c c₁ : BftConsensus} (h : VotesBacked S log c) (hcounts : S.Counts c)
    (hcore : c.SameCore c₁) {vote : ConsensusMessage} (hvote : Genuine S log vote)
    (hcheck : c.checkVote vote = .ok ()) : VotesBacked S log (c₁.addVote vote) := by
  intro voteType x id hid
  obtain ⟨hheight, hround, hmember, hverify, -⟩ := BftConsensus.checkVote_eq_ok hcheck
  have hplace : (c₁.addVote vote).height = c.height ∧ (c₁.addVote vote).round = c.round :=
    ⟨hcore.height, hcore.round⟩
  rw [hplace.1, hplace.2]
  rcases BftConsensus.mem_votes_addVote hid with hid | ⟨rfl, rfl, rfl⟩
  · rw [hcore.votes] at hid
    exact h voteType x id hid
  · refine ⟨S.mem_members_of_lookup ?_, fun hhonest => ?_⟩
    · rw [← hcounts.validators]
      exact AList.lookup_isSome.2 hmember
    · rw [← hheight, ← hround]
      exact hvote.2 hverify hhonest

/-! ## What the calls store -/

section
variable {rt rt' : ConsensusRuntime} {new : List ConsensusMessage}

/-- Storing genuine votes around a backed machine. -/
theorem Backed.frame (h : Backed S log owner rt) (hframe : rt.Frame new rt')
    (hnew : ∀ v ∈ new, Genuine S log v) (hcounts : S.Counts rt'.consensus)
    (hvotes : VotesBacked S log rt'.consensus)
    (hdecided : ∀ x, rt'.consensus.finalized = some x →
      S.committee.Decided log rt'.consensus.height x) : Backed S log owner rt' where
  validator := hframe.validator.trans h.validator
  validators := hframe.validators.trans h.validators
  counts := hcounts
  votes := hvotes
  decided := hdecided
  deferred v hv := (hframe.deferredVotes v hv).elim (h.deferred v) (hnew v)
  precommits v hv := (hframe.precommits v hv).elim (h.precommits v) (hnew v)
  certificates := by
    rw [hframe.finalized]
    exact h.certificates
  range := by
    rw [hframe.signed]
    exact h.range

theorem Backed.sameCore (h : Backed S log owner rt) (hframe : rt.Frame new rt')
    (hnew : ∀ v ∈ new, Genuine S log v) (hcore : rt.consensus.SameCore rt'.consensus) :
    Backed S log owner rt' := by
  refine h.frame hframe hnew (h.counts.sameCore hcore) (h.votes.sameCore hcore) ?_
  rw [hcore.finalized, hcore.height]
  exact h.decided

theorem Backed.withConsensus (h : Backed S log owner rt) {c : BftConsensus}
    (hcore : rt.consensus.SameCore c) : Backed S log owner { rt with consensus := c } :=
  h.sameCore ⟨rfl, rfl, rfl, rfl, rfl, fun _ => .inl, fun _ => .inl⟩ (List.forall_mem_nil _) hcore

theorem Backed.enterRound (h : Backed S log owner rt) (hframe : rt.Frame new rt')
    (hnew : ∀ v ∈ new, Genuine S log v) {c : BftConsensus} (hcounts : S.Counts c)
    {height round : ℕ} (hconsensus : rt'.consensus = c.enterRound height round) :
    Backed S log owner rt' := by
  refine h.frame hframe hnew ?_ ?_ ?_
  · rw [hconsensus]
    exact ⟨hcounts.validators, hcounts.totalPower⟩
  · rw [hconsensus]
    intro voteType x id hid
    simp [BftConsensus.enterRound, getD] at hid
  · rw [hconsensus]
    simp [BftConsensus.enterRound]

theorem Backed.jumped (h : Backed S log owner rt) (hframe : rt.Frame new rt')
    (hnew : ∀ v ∈ new, Genuine S log v) (hjump : rt.Jumped rt') : Backed S log owner rt' := by
  obtain ⟨c, target, hcore, -, hconsensus, -, -⟩ := hjump
  exact h.enterRound hframe hnew (h.counts.sameCore hcore) hconsensus

/-- A request to the signer that fits the widths. -/
theorem Backed.record (h : Backed S log owner rt) {payload : SignedPayload}
    (hrange : ∀ height round voteType x, payload = .vote height round voteType x →
      height < 2 ^ 64 ∧ round < 2 ^ 32) : Backed S log owner (rt.record payload) where
  validator := h.validator
  validators := h.validators
  counts := h.counts
  votes := h.votes
  decided := h.decided
  deferred := h.deferred
  precommits := h.precommits
  certificates := h.certificates
  range height round voteType x hmem := by
    rcases List.mem_append.1 hmem with hmem | hmem
    · exact h.range height round voteType x hmem
    · exact hrange _ _ _ _ (List.mem_singleton.1 hmem).symm

theorem Backed.openNextHeight (h : Backed S log owner rt) (env : Env) :
    Backed S log owner (rt.openNextHeight env).1 := by
  obtain ⟨hframe, hcase | ⟨-, hconsensus, -, -⟩⟩ := rt.openNextHeight_cases env
  · rw [hcase]
    exact h
  · exact h.enterRound hframe (List.forall_mem_nil _) h.counts hconsensus

theorem Backed.receiveProposal (h : Backed S log owner rt) (env : Env) {p : SignedProposal}
    (hheight : p.height < 2 ^ 64) (hround : p.round < 2 ^ 32) :
    Backed S log owner (rt.receiveProposal env p).1 := by
  rcases rt.receiveProposal_cases env p with ⟨c', e, hcore, hcase⟩ | ⟨-, -, -, hcase⟩
  · rw [hcase]
    exact h.withConsensus hcore
  · rw [hcase]
    have hcore := rt.consensus.sameCore_noteValidRound p
    have hnoted : Backed S log owner { rt with consensus := rt.consensus.noteValidRound p } :=
      h.withConsensus hcore
    refine Backed.record ?_ ?_
    · exact ⟨h.validator, h.validators, ⟨hnoted.counts.validators, hnoted.counts.totalPower⟩, hnoted.votes, hnoted.decided, h.deferred, h.precommits,
        h.certificates, h.range⟩
    · rintro _ _ _ _ ⟨⟩
      exact ⟨hheight, hround⟩

/-- The machine after one more genuine vote. -/
theorem backed_counted (h : Backed S log owner rt) (env : Env) {vote : ConsensusMessage}
    (hvote : Genuine S log vote) (hcheck : rt.consensus.checkVote vote = .ok ())
    {c₁ : BftConsensus} (hcore : rt.consensus.SameCore c₁) :
    Backed S log owner (rt.counted env vote ((c₁.addVote vote).advancePhase vote)) := by
  obtain ⟨hframe, hconsensus, -⟩ :=
    ConsensusRuntime.frame_counted rt env vote ((c₁.addVote vote).advancePhase vote)
  have hvotes : VotesBacked S log (c₁.addVote vote) := h.votes.addVote h.counts hcore hvote hcheck
  have hcounts : S.Counts (c₁.addVote vote) := (h.counts.sameCore hcore).addVote vote
  have hdecided : ∀ x, c₁.finalized = some x → S.committee.Decided log c₁.height x := by
    rw [hcore.finalized, hcore.height]
    exact h.decided
  have hnew : ∀ v ∈ [vote], Genuine S log v := by simpa using hvote
  generalize rt.counted env vote ((c₁.addVote vote).advancePhase vote) = rt₁ at *
  rcases (c₁.addVote vote).advancePhase_cases vote with hsame | ⟨-, -, -, hlock⟩ |
    ⟨htype, -, hquorum, hfinal⟩
  · rw [hsame] at hconsensus
    refine h.frame hframe hnew ?_ ?_ ?_ <;> rw [hconsensus]
    exacts [hcounts, hvotes, hdecided]
  · rw [hlock] at hconsensus
    refine h.frame hframe hnew ?_ ?_ ?_ <;> rw [hconsensus]
    exacts [⟨hcounts.validators, hcounts.totalPower⟩, hvotes, hdecided]
  · rw [hfinal] at hconsensus
    refine h.frame hframe hnew ?_ ?_ ?_ <;> rw [hconsensus]
    · exact ⟨hcounts.validators, hcounts.totalPower⟩
    · exact hvotes
    · rintro x ⟨⟩
      exact ⟨_, hvotes.supported hcounts hquorum⟩

theorem Backed.afterVote (h : Backed S log owner rt) (hcoherent : rt.Coherent) (env : Env)
    (hheight : rt.consensus.height < 2 ^ 64) (hround : rt.consensus.round < 2 ^ 32) :
    Backed S log owner (rt.afterVote env).1 := by
  rcases rt.afterVote_cases env with hcase | ⟨b, -, hpending, hcase⟩ | ⟨b, -, -, hcase⟩ |
    ⟨b, chain, -, -, -, hverify, -, hcase⟩
  · rw [hcase]
    exact h
  · rw [hcase]
    refine h.record ?_
    rintro _ _ _ _ ⟨⟩
    rw [(hcoherent.pendingMatches b hpending).2]
    exact ⟨hheight, hround⟩
  · rw [hcase]
    exact ⟨h.validator, h.validators, h.counts, h.votes, h.decided, h.deferred, h.precommits,
      h.certificates, h.range⟩
  · rw [hcase]
    refine ⟨h.validator, h.validators, h.counts, h.votes, h.decided, h.deferred, h.precommits, ?_,
      h.range⟩
    intro c hc
    rcases List.mem_append.1 hc with hc | hc
    · exact h.certificates c hc
    · rw [List.mem_singleton] at hc
      subst hc
      rw [h.validators] at hverify
      exact ⟨_, supported_of_attested (ValidatorSet.attested_certificate hverify) h.precommits⟩

/-- The quorum that locks a node is a quorum of the committee. -/
theorem polka_of_hasQuorum (h : Backed S log owner rt) {vote : ConsensusMessage}
    (hvote : Genuine S log vote) {c₁ : BftConsensus} (hcore : rt.consensus.SameCore c₁)
    (hcheck : rt.consensus.checkVote vote = .ok ())
    (hquorum : (c₁.addVote vote).hasQuorum .prevote vote.blockHash = true) :
    S.committee.Polka log rt.consensus.height rt.consensus.round vote.blockHash := by
  have hsupported := (h.votes.addVote h.counts hcore hvote hcheck).supported
    ((h.counts.sameCore hcore).addVote vote) hquorum
  rw [← hcore.height, ← hcore.round]
  exact hsupported

theorem Backed.receiveVote (h : Backed S log owner rt) (hcoherent : rt.Coherent) (env : Env)
    {vote : ConsensusMessage} (hvote : Genuine S log vote) :
    Backed S log owner (rt.receiveVote env vote).1 := by
  rcases rt.receiveVote_cases env vote with ⟨c', e, hcore, hcase⟩ |
    ⟨hcheck, hproposal, c₁, hcore, hcase⟩
  · rw [hcase]
    exact h.withConsensus hcore
  · rw [hcase]
    obtain ⟨hcounted, -⟩ := ConsensusRuntime.moves_counted env hcoherent hcheck hproposal hcore
      fun hquorum _ => polka_of_hasQuorum h hvote hcore hcheck hquorum
    obtain ⟨-, hconsensus, -⟩ :=
      ConsensusRuntime.frame_counted rt env vote ((c₁.addVote vote).advancePhase vote)
    obtain ⟨hheight, hround, -⟩ := BftConsensus.checkVote_eq_ok hcheck
    have hplace : ((c₁.addVote vote).advancePhase vote).height = vote.height ∧
        ((c₁.addVote vote).advancePhase vote).round = vote.round := by
      rw [hheight, hround, ← hcore.height, ← hcore.round]
      have hsame := (c₁.addVote vote).sameRound_advancePhase vote
      exact ⟨hsame.height, hsame.round⟩
    refine (backed_counted h env hvote hcheck hcore).afterVote hcounted env ?_ ?_
    · rw [hconsensus, hplace.1]
      exact hvote.1.1
    · rw [hconsensus, hplace.2]
      exact hvote.1.2

theorem Backed.applySyncCertificates (h : Backed S log owner rt) (env : Env)
    {certificates : List FinalityCertificate}
    (hvotes : ∀ c ∈ certificates, ∀ v ∈ c.precommits, Genuine S log v) :
    Backed S log owner (rt.applySyncCertificates env certificates).1 := by
  obtain ⟨rt₁, n, hsynced, hcases⟩ := rt.applySyncCertificates_cases env certificates
  have h₁ : Backed S log owner rt₁ := by
    refine ⟨hsynced.validator.trans h.validator, hsynced.validators.trans h.validators, ?_, ?_, ?_, ?_, ?_, ?_, ?_⟩
    · rw [hsynced.consensus]
      exact h.counts
    · rw [hsynced.consensus]
      exact h.votes
    · rw [hsynced.consensus]
      exact h.decided
    · rw [hsynced.deferredVotes]
      exact h.deferred
    · rw [hsynced.precommits]
      exact h.precommits
    · intro c hc
      rcases hsynced.finalized c hc with hc | ⟨hmem, hverify⟩
      · exact h.certificates c hc
      · rw [h.validators] at hverify
        exact ⟨_, supported_of_attested (ValidatorSet.attested_certificate hverify) (hvotes c hmem)⟩
    · rw [hsynced.signed]
      exact h.range
  rcases hcases with ⟨hcase, -⟩ | ⟨-, hcase⟩
  · rw [hcase]
    exact h₁
  · rw [hcase]
    exact h₁.openNextHeight env

end

end

end IeumChain
