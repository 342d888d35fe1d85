import IeumChain.ConsensusRuntime

/-!
# What the voting machine can do

One lemma for each method of the voting machine, stated on the fields that matter for
safety: the round, the proposal, the lock, the counted votes and the finalized block.
Nothing later looks into the methods again.
-/
namespace IeumChain

open ByteCodec Outcome MachineWords FiniteMap VoteTally

namespace BftConsensus

/-- Equality on everything except the valid value, the filed votes and the evidence. -/
structure SameCore (c c' : BftConsensus) : Prop where
  validators : c'.validators = c.validators
  totalPower : c'.totalPower = c.totalPower
  height : c'.height = c.height
  round : c'.round = c.round
  phase : c'.phase = c.phase
  proposal : c'.proposal = c.proposal
  votes : c'.votes = c.votes
  lockedValue : c'.lockedValue = c.lockedValue
  lockedRound : c'.lockedRound = c.lockedRound
  finalized : c'.finalized = c.finalized

theorem SameCore.refl (c : BftConsensus) : SameCore c c := by constructor <;> rfl

theorem SameCore.lockedPair {c c' : BftConsensus} (h : SameCore c c') :
    c'.lockedPair = c.lockedPair := by
  simp only [BftConsensus.lockedPair, h.lockedValue, h.lockedRound]

theorem SameCore.trans {a b c : BftConsensus} (h : SameCore a b) (h' : SameCore b c) :
    SameCore a c := by
  constructor
  all_goals first
    | rw [h'.validators, h.validators] | rw [h'.totalPower, h.totalPower]
    | rw [h'.height, h.height] | rw [h'.round, h.round] | rw [h'.phase, h.phase]
    | rw [h'.proposal, h.proposal] | rw [h'.votes, h.votes]
    | rw [h'.lockedValue, h.lockedValue] | rw [h'.lockedRound, h.lockedRound]
    | rw [h'.finalized, h.finalized]

theorem sameCore_fileVote (c : BftConsensus) (m : ConsensusMessage) :
    SameCore c (c.fileVote m) := by
  constructor <;> rfl

theorem sameCore_foldl_fileVote (votes : List ConsensusMessage) (c : BftConsensus) :
    SameCore c (votes.foldl fileVote c) := by
  induction votes generalizing c with
  | nil => exact SameCore.refl c
  | cons m votes ih => exact (sameCore_fileVote c m).trans (ih (c.fileVote m))

/-- A start that does not go back is never refused. -/
theorem startRound_of_le {c : BftConsensus} {height round : ℕ}
    (h : c.height < height ∨ c.height = height ∧ c.round ≤ round) :
    c.startRound height round = (c.enterRound height round, .ok ()) := by
  rw [startRound, if_neg (by omega)]

/-- A refused start leaves the machine alone; an accepted one enters the round. -/
theorem startRound_cases (c : BftConsensus) (height round : ℕ) :
    (∃ e, c.startRound height round = (c, .error e)) ∨
      (c.height < height ∨ c.height = height ∧ c.round ≤ round) ∧
        c.startRound height round = (c.enterRound height round, .ok ()) := by
  by_cases h : c.height < height ∨ c.height = height ∧ c.round ≤ round
  · exact .inr ⟨h, startRound_of_le h⟩
  · left
    rw [startRound, if_pos (by omega)]
    exact ⟨_, rfl⟩

/-- A new machine enters its first round without proposal and lock. -/
theorem enterRound_new {validators : List Validator} {c : BftConsensus}
    (h : new validators = .ok c) (height : ℕ) :
    (c.enterRound height 0).phase = .propose ∧ (c.enterRound height 0).proposal = none ∧
      (c.enterRound height 0).lockedValue = none ∧ (c.enterRound height 0).lockedRound = none ∧
      (c.enterRound height 0).height = height ∧ (c.enterRound height 0).round = 0 := by
  simp only [new, check_bind_eq_ok] at h
  simp only [bind_eq_ok, pure_eq_ok] at h
  obtain ⟨-, map, -, rfl⟩ := h
  simp [enterRound]

/-- The valid value a proposal leaves behind. -/
def noteValidRound (c : BftConsensus) (p : SignedProposal) : BftConsensus :=
  match p.validRound with
  | some validRound => { c with validValue := some p.block.hash, validRound := some validRound }
  | none => c

theorem sameCore_noteValidRound (c : BftConsensus) (p : SignedProposal) :
    SameCore c (c.noteValidRound p) := by
  unfold noteValidRound
  split <;> constructor <;> rfl

/-- The votes counted for a block after one more vote. -/
theorem mem_votes_addVote {c : BftConsensus} {m : ConsensusMessage} {voteType : VoteType} {blockHash id : String}
    (h : id ∈ getD (c.addVote m).votes (voteType, blockHash) ∅) :
    id ∈ getD c.votes (voteType, blockHash) ∅ ∨
      id = m.validatorId ∧ voteType = m.voteType ∧ blockHash = m.blockHash := by
  by_cases hkey : (voteType, blockHash) = (m.voteType, m.blockHash)
  · obtain ⟨rfl, rfl⟩ := Prod.mk.inj hkey
    simp only [addVote, getD_insert_self, Finset.mem_insert] at h
    rcases h with rfl | h
    · exact .inr ⟨rfl, rfl, rfl⟩
    · exact .inl h
  · rw [addVote, getD_insert_ne _ hkey] at h
    exact .inl h

/-- The three outcomes of a counted vote: nothing more, a new lock, or the end. -/
theorem advancePhase_cases (c : BftConsensus) (m : ConsensusMessage) :
    c.advancePhase m = c ∨
      (m.voteType = .prevote ∧ c.phase = .prevote ∧ c.hasQuorum .prevote m.blockHash = true ∧
        c.advancePhase m = { c with
          validValue := some m.blockHash, validRound := some c.round
          lockedValue := some m.blockHash, lockedRound := some c.round, phase := .precommit }) ∨
      (m.voteType = .precommit ∧ c.phase ≠ .finalized ∧
        c.hasQuorum .precommit m.blockHash = true ∧
        c.advancePhase m = { c with phase := .finalized, finalized := some m.blockHash }) := by
  by_cases h : c.hasQuorum m.voteType m.blockHash = true ∧ c.phase ≠ .finalized
  · cases htype : m.voteType with
    | prevote =>
        rw [htype] at h
        by_cases hprevote : c.phase = .prevote
        · refine .inr (.inl ⟨rfl, hprevote, h.1, ?_⟩)
          simp only [advancePhase, htype, hprevote, h.1]
          rfl
        · left
          simp only [advancePhase, htype, hprevote, if_false, ite_self]
    | precommit =>
        rw [htype] at h
        refine .inr (.inr ⟨rfl, h.2, h.1, ?_⟩)
        simp only [advancePhase, htype]
        rw [if_pos h]
  · left
    rw [advancePhase, if_neg h]

/-- Counting a vote changes neither the round nor what is counted for it. -/
structure SameRound (c c' : BftConsensus) : Prop where
  validators : c'.validators = c.validators
  totalPower : c'.totalPower = c.totalPower
  height : c'.height = c.height
  round : c'.round = c.round
  proposal : c'.proposal = c.proposal
  votes : c'.votes = c.votes

theorem sameRound_advancePhase (c : BftConsensus) (m : ConsensusMessage) :
    SameRound c (c.advancePhase m) := by
  rcases c.advancePhase_cases m with h | ⟨-, -, -, h⟩ | ⟨-, -, -, h⟩
  · rw [h]
    exact ⟨rfl, rfl, rfl, rfl, rfl, rfl⟩
  · rw [h]
    exact ⟨rfl, rfl, rfl, rfl, rfl, rfl⟩
  · rw [h]
    exact ⟨rfl, rfl, rfl, rfl, rfl, rfl⟩

section
variable [Crypto] {c : BftConsensus}

theorem sameCore_recordEvidence (c : BftConsensus) (m : ConsensusMessage) :
    SameCore c (c.recordEvidence m) := by
  unfold recordEvidence
  split
  · exact SameCore.refl c
  · dsimp only
    split_ifs
    · constructor <;> rfl
    · exact SameCore.refl c

/-- Adopting a valid value never touches the round, the lock or the counted votes. -/
theorem sameCore_adoptValidValue (c : BftConsensus) (blockHash : String) (validRound : ℕ)
    (prevotes : List ConsensusMessage) :
    SameCore c (c.adoptValidValue blockHash validRound prevotes).1 := by
  unfold adoptValidValue
  split
  · exact SameCore.refl c
  · split_ifs
    · have hvalid : SameCore c
          { c with validValue := some blockHash, validRound := some validRound } := by
        constructor <;> rfl
      exact hvalid.trans (sameCore_foldl_fileVote ..)
    · exact SameCore.refl c

/-- A proposal is either refused, or taken up in the propose phase after all checks. -/
theorem handleProposal_cases (c : BftConsensus) (p : SignedProposal) :
    (∃ c' e, c.handleProposal p = (c', .error e) ∧ SameCore c c') ∨
      (c.checkProposal p = .ok () ∧ c.phase = .propose ∧ p.block.hash ≠ "" ∧
        c.handleProposal p = ({ c.noteValidRound p with
          proposal := some p.block.hash, phase := .prevote }, .ok ())) := by
  cases hcheck : c.checkProposal p with
  | error e =>
      refine .inl ⟨c, e, ?_, SameCore.refl c⟩
      unfold handleProposal
      rw [hcheck]
  | ok u =>
      have hpassed : c.handleProposal p =
          (c.noteValidRound p).propose p.proposerId p.block.hash := by
        unfold handleProposal noteValidRound
        cases p.validRound <;> simp only [hcheck]
      rw [hpassed]
      have hcore := sameCore_noteValidRound c p
      cases hpropose : (c.noteValidRound p).checkPropose p.proposerId p.block.hash with
      | error e =>
          refine .inl ⟨c.noteValidRound p, e, ?_, hcore⟩
          simp only [propose, hpropose]
      | ok u =>
          have hphase : c.phase = .propose ∧ p.block.hash ≠ "" := by
            simp only [checkPropose, check_bind_eq_ok, reject_eq_ok, not_not, hcore.phase]
              at hpropose
            exact ⟨hpropose.1, hpropose.2.2⟩
          refine .inr ⟨rfl, hphase.1, hphase.2, ?_⟩
          simp only [propose, hpropose]

/-- A vote is either refused, or counted for the current proposal. -/
theorem handle_cases (c : BftConsensus) (m : ConsensusMessage) :
    (∃ c' e, c.handle m = (c', .error e) ∧ SameCore c c') ∨
      (c.checkVote m = .ok () ∧ c.proposal = some m.blockHash ∧
        ∃ c₁, SameCore c c₁ ∧ c.handle m = ((c₁.addVote m).advancePhase m, .ok ())) := by
  have hcount : ∀ c₁ : BftConsensus, SameCore c c₁ →
      (∃ c' e, c₁.countVote m = (c', .error e) ∧ SameCore c c') ∨
        (c.proposal = some m.blockHash ∧
          c₁.countVote m = ((c₁.addVote m).advancePhase m, .ok ())) := by
    intro c₁ hcore
    unfold countVote
    split_ifs with hproposal
    · exact .inl ⟨c₁, _, rfl, hcore⟩
    · refine .inr ⟨?_, rfl⟩
      rw [← hcore.proposal]
      exact not_not.1 hproposal
  unfold handle
  cases hcheck : c.checkVote m with
  | error e => exact .inl ⟨c, e, rfl, SameCore.refl c⟩
  | ok u =>
      dsimp only
      split
      case h_1 =>
        rcases hcount _ (sameCore_fileVote c m) with h | ⟨hproposal, h⟩
        · exact .inl h
        · exact .inr ⟨rfl, hproposal, _, sameCore_fileVote c m, h⟩
      case h_2 =>
        split_ifs
        · exact .inl ⟨_, _, rfl, sameCore_recordEvidence c m⟩
        · rcases hcount _ (SameCore.refl c) with h | ⟨hproposal, h⟩
          · exact .inl h
          · exact .inr ⟨rfl, hproposal, _, SameCore.refl c, h⟩

theorem checkProposal_eq_ok {p : SignedProposal} (h : c.checkProposal p = .ok ()) :
    p.height = c.height ∧ p.round = c.round ∧ p.block.height = c.height ∧ p.verify = .ok () ∧
      (∀ validRound, p.validRound = some validRound →
        c.verifyValidRoundCertificate p validRound = .ok ()) ∧ c.checkLock p = .ok () := by
  simp only [checkProposal, check_bind_eq_ok, reject_eq_ok, not_or, not_not] at h
  obtain ⟨⟨hheight, hround⟩, -, hverify, hrest⟩ := h
  have hblock : p.block.height = c.height := by
    simp only [SignedProposal.verify, check_bind_eq_ok, reject_eq_ok, not_not] at hverify
    rw [← hverify.1, hheight]
  cases hvalid : p.validRound with
  | none =>
      rw [hvalid] at hrest
      simp only [check_bind_eq_ok] at hrest
      exact ⟨hheight, hround, hblock, hverify, by simp, hrest.2⟩
  | some validRound =>
      rw [hvalid] at hrest
      simp only [check_bind_eq_ok] at hrest
      refine ⟨hheight, hround, hblock, hverify, ?_, hrest.2⟩
      rintro _ ⟨⟩
      exact hrest.1

/-- A proposal that is taken up against a lock proves a quorum from the lock's round on. -/
theorem checkProposal_lock {p : SignedProposal} (h : c.checkProposal p = .ok ()) {y : String}
    {l : ℕ} (hlocked : c.lockedPair = some (y, l)) (hne : y ≠ p.block.hash) :
    ∃ validRound, l ≤ validRound ∧ validRound < c.round ∧
      c.verifyValidRoundCertificate p validRound = .ok () := by
  obtain ⟨-, hround, -, -, hvalid, hlock⟩ := checkProposal_eq_ok h
  obtain ⟨hvalue, hlockedRound⟩ : c.lockedValue = some y ∧ c.lockedRound = some l := by
    unfold lockedPair at hlocked
    split at hlocked
    · cases hlocked
      exact ⟨‹_›, ‹_›⟩
    · cases hlocked
  simp only [checkLock, hvalue, hlockedRound, reject_eq_ok, not_and] at hlock
  have hallowed := hlock hne
  cases hsome : p.validRound with
  | none => simp [hsome] at hallowed
  | some validRound =>
      have hcertificate := hvalid validRound hsome
      simp only [hsome, decide_eq_false_iff_not, not_not] at hallowed
      refine ⟨validRound, hallowed, ?_, hcertificate⟩
      simp only [verifyValidRoundCertificate, check_bind_eq_ok, reject_eq_ok] at hcertificate
      omega

theorem checkVote_eq_ok {m : ConsensusMessage} (h : c.checkVote m = .ok ()) :
    m.height = c.height ∧ m.round = c.round ∧ m.validatorId ∈ c.validators ∧
      m.verify = .ok () ∧ acceptsVote c.phase m.voteType = true := by
  simp only [checkVote, check_bind_eq_ok, reject_eq_ok, not_not, not_or] at h
  exact ⟨h.1.1, h.1.2, h.2.1, h.2.2.1, h.2.2.2⟩

end

/-! ## Quorums and exact sums -/

theorem exceedsTwoThirds_iff {power total : ℕ} (hpower : power < 2 ^ 62) (htotal : total < 2 ^ 62) :
    exceedsTwoThirds power total = true ↔ 2 * total < 3 * power := by
  have h64 : u64Max = 2 ^ 64 - 1 := rfl
  rw [exceedsTwoThirds, decide_eq_true_eq, saturatingMul_of_le (by omega),
    saturatingMul_of_le (by omega)]
  omega

end BftConsensus

end IeumChain
