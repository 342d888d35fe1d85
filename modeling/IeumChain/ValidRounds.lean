import IeumChain.Agreement
import IeumChain.VoteFiling

/-!
# The round of the valid value

A quorum of prevotes, a proposal that proves an earlier quorum, and a quorum reported
with a round change all set the round of the valid value. Only the last of them looks
whether the round is later than the known one. As long as the other two never come with
an earlier round, the round of the valid value does not go back within a height and is
never behind the round of the lock.
-/
namespace IeumChain

open Outcome MachineWords FiniteMap

/-- The second round is known whenever the first is, and is not earlier. -/
def NotBefore (r r' : Option ℕ) : Prop := ∀ n, r = some n → ∃ n', r' = some n' ∧ n ≤ n'

theorem NotBefore.refl (r : Option ℕ) : NotBefore r r := fun n h => ⟨n, h, le_rfl⟩

theorem NotBefore.trans {a b c : Option ℕ} (h : NotBefore a b) (h' : NotBefore b c) :
    NotBefore a c := by
  intro n hn
  obtain ⟨n', hn', hle⟩ := h n hn
  obtain ⟨n'', hn'', hle'⟩ := h' n' hn'
  exact ⟨n'', hn'', hle.trans hle'⟩

theorem notBefore_none (r : Option ℕ) : NotBefore none r := by
  intro n hn
  cases hn

namespace BftConsensus

/-- The calls on a voting machine. -/
inductive Input
  | startRound (height round : ℕ)
  | propose (proposer blockHash : String)
  | handleProposal (proposal : SignedProposal)
  | handle (vote : ConsensusMessage)
  | adoptValidValue (blockHash : String) (validRound : ℕ) (prevotes : List ConsensusMessage)
  | takeEvidence
  | onTimeout

section
variable [Crypto]

/-- The machine after a call, whether it succeeded or failed. -/
def after (c : BftConsensus) : Input → BftConsensus
  | .startRound height round => (c.startRound height round).1
  | .propose proposer blockHash => (c.propose proposer blockHash).1
  | .handleProposal p => (c.handleProposal p).1
  | .handle vote => (c.handle vote).1
  | .adoptValidValue blockHash validRound prevotes =>
      (c.adoptValidValue blockHash validRound prevotes).1
  | .takeEvidence => c.takeEvidence.1
  | .onTimeout => c.onTimeout.1

/-- Any sequence of calls each of which satisfies a condition in the state it meets. -/
def Run (allowed : BftConsensus → Input → Prop) : BftConsensus → BftConsensus → Prop :=
  Relation.ReflTransGen fun c c' => ∃ input, allowed c input ∧ c.after input = c'

/-- The vote is in order and completes a quorum of prevotes in the prevote phase. -/
structure Locks (c : BftConsensus) (m : ConsensusMessage) : Prop where
  checked : c.checkVote m = .ok ()
  filed : ∀ x, c.voteHistory.lookup m.key = some x → x = m.blockHash
  proposed : c.proposal = some m.blockHash
  prevote : m.voteType = .prevote
  phase : c.phase = .prevote
  quorum : (c.addVote m).hasQuorum .prevote m.blockHash = true

/-- No proposal that passes its checks names an earlier valid round than the known one, and no
quorum of prevotes is completed while a later valid round is known. -/
def KeepsValidRound (c : BftConsensus) : Input → Prop
  | .handleProposal p =>
      c.checkProposal p = .ok () → ∀ r, p.validRound = some r → NotBefore c.validRound (some r)
  | .handle m => c.Locks m → NotBefore c.validRound (some c.round)
  | _ => True

end

/-! ## One call -/

/-- Within a height the valid round does not go back, and the lock follows it. -/
structure Raised (c c' : BftConsensus) : Prop where
  height : c'.height = c.height
  valid : NotBefore c.validRound c'.validRound
  locked : c'.lockedRound = c.lockedRound ∨ c'.lockedRound = c'.validRound

theorem Raised.same {c c' : BftConsensus} (hheight : c'.height = c.height)
    (hvalid : c'.validRound = c.validRound) (hlocked : c'.lockedRound = c.lockedRound) :
    Raised c c' := by
  refine ⟨hheight, ?_, .inl hlocked⟩
  rw [hvalid]
  exact .refl _

/-- The machine has opened a new height without a lock. -/
def Opened (c c' : BftConsensus) : Prop := c.height < c'.height ∧ c'.lockedRound = none

theorem startRound_rounds (c : BftConsensus) (height round : ℕ) :
    Opened c (c.startRound height round).1 ∨ Raised c (c.startRound height round).1 := by
  unfold startRound
  split_ifs with hback
  · exact .inr (.same rfl rfl rfl)
  · by_cases hfresh : c.height < height
    · exact .inl ⟨hfresh, by simp [enterRound, hfresh]⟩
    · have hheight : height = c.height := by omega
      refine .inr (.same hheight ?_ ?_) <;> simp [enterRound, hfresh]

theorem propose_rounds (c : BftConsensus) (proposer blockHash : String) :
    Raised c (c.propose proposer blockHash).1 := by
  unfold propose
  split
  · exact .same rfl rfl rfl
  · exact .same rfl rfl rfl

theorem validRound_foldl_fileVote (votes : List ConsensusMessage) (c : BftConsensus) :
    (votes.foldl fileVote c).validRound = c.validRound := by
  induction votes generalizing c with
  | nil => rfl
  | cons m rest ih => exact ih (c.fileVote m)

section
variable [Crypto] {c c' : BftConsensus}

theorem handleProposal_rounds {p : SignedProposal} (h : c.KeepsValidRound (.handleProposal p)) :
    Raised c (c.handleProposal p).1 := by
  unfold handleProposal
  cases hcheck : c.checkProposal p with
  | error e => exact .same rfl rfl rfl
  | ok u =>
      dsimp only
      cases hvalid : p.validRound with
      | none => exact propose_rounds _ _ _
      | some r =>
          have hstep := propose_rounds
            { c with validValue := some p.block.hash, validRound := some r } p.proposerId p.block.hash
          refine ⟨hstep.height, (h hcheck r hvalid).trans hstep.valid, ?_⟩
          exact hstep.locked

/-- A vote changes the two rounds only by locking. -/
theorem handle_rounds (c : BftConsensus) (m : ConsensusMessage) :
    (c.handle m).1.height = c.height ∧
      ((c.handle m).1.validRound = c.validRound ∧ (c.handle m).1.lockedRound = c.lockedRound ∨
        c.Locks m ∧ (c.handle m).1.validRound = some c.round ∧
          (c.handle m).1.lockedRound = some c.round) := by
  have hcount : ∀ c₁ : BftConsensus, SameCore c c₁ → c₁.validRound = c.validRound →
      c.checkVote m = .ok () → (∀ x, c.voteHistory.lookup m.key = some x → x = m.blockHash) →
      (c₁.countVote m).1.height = c.height ∧
        ((c₁.countVote m).1.validRound = c.validRound ∧
            (c₁.countVote m).1.lockedRound = c.lockedRound ∨
          c.Locks m ∧ (c₁.countVote m).1.validRound = some c.round ∧
            (c₁.countVote m).1.lockedRound = some c.round) := by
    intro c₁ hcore hvalid hcheck hfiled
    unfold countVote
    split_ifs with hproposal
    · exact ⟨hcore.height, .inl ⟨hvalid, hcore.lockedRound⟩⟩
    · rw [hcore.proposal, not_not] at hproposal
      have hpower : (c₁.addVote m).hasQuorum .prevote m.blockHash =
          (c.addVote m).hasQuorum .prevote m.blockHash := by
        simp only [hasQuorum, votePower, addVote, hcore.votes, hcore.validators, hcore.totalPower]
      dsimp only
      rcases (c₁.addVote m).advancePhase_cases m with hcase | ⟨htype, hphase, hquorum, hcase⟩ |
        ⟨-, -, -, hcase⟩
      · rw [hcase]
        exact ⟨hcore.height, .inl ⟨hvalid, hcore.lockedRound⟩⟩
      · rw [hcase]
        have hround : (c₁.addVote m).round = c.round := hcore.round
        refine ⟨hcore.height, .inr ⟨⟨hcheck, hfiled, hproposal, htype, ?_, hpower ▸ hquorum⟩, ?_, ?_⟩⟩
        · exact hcore.phase.symm.trans hphase
        · dsimp only
          rw [hround]
        · dsimp only
          rw [hround]
      · rw [hcase]
        exact ⟨hcore.height, .inl ⟨hvalid, hcore.lockedRound⟩⟩
  unfold handle
  cases hcheck : c.checkVote m with
  | error e => exact ⟨rfl, .inl ⟨rfl, rfl⟩⟩
  | ok u =>
      dsimp only
      cases hhistory : c.voteHistory.lookup m.key with
      | none =>
          refine hcount _ (sameCore_fileVote c m) rfl hcheck ?_
          rw [hhistory]
          exact fun x hx => by cases hx
      | some previous =>
          dsimp only
          split_ifs with hdouble
          · have hcore := sameCore_recordEvidence c m
            refine ⟨hcore.height, .inl ⟨?_, hcore.lockedRound⟩⟩
            unfold recordEvidence
            split
            · rfl
            · dsimp only
              split_ifs <;> rfl
          · refine hcount c (.refl c) rfl hcheck ?_
            rw [hhistory]
            rintro x ⟨⟩
            exact not_not.1 hdouble

theorem adoptValidValue_rounds (c : BftConsensus) (blockHash : String) (validRound : ℕ)
    (prevotes : List ConsensusMessage) :
    Raised c (c.adoptValidValue blockHash validRound prevotes).1 := by
  have hcore := c.sameCore_adoptValidValue blockHash validRound prevotes
  refine ⟨hcore.height, ?_, .inl hcore.lockedRound⟩
  unfold adoptValidValue
  split
  · exact .refl _
  · split_ifs with hlater
    · rw [validRound_foldl_fileVote]
      intro known hknown
      rw [hknown] at hlater
      exact ⟨validRound, rfl, (of_decide_eq_true hlater).le⟩
    · exact .refl _

theorem after_rounds {input : Input} (h : c.KeepsValidRound input) :
    Opened c (c.after input) ∨ Raised c (c.after input) := by
  cases input with
  | startRound height round => exact startRound_rounds c height round
  | propose proposer blockHash => exact .inr (propose_rounds c proposer blockHash)
  | handleProposal p => exact .inr (handleProposal_rounds h)
  | handle m =>
      obtain ⟨hheight, ⟨hvalid, hlocked⟩ | ⟨hlocks, hvalid, hlocked⟩⟩ := c.handle_rounds m
      · exact .inr (.same hheight hvalid hlocked)
      · refine .inr ⟨hheight, ?_, .inr ?_⟩
        · show NotBefore _ (c.handle m).1.validRound
          rw [hvalid]
          exact h hlocks
        · exact hlocked.trans hvalid.symm
  | adoptValidValue blockHash validRound prevotes =>
      exact .inr (c.adoptValidValue_rounds blockHash validRound prevotes)
  | takeEvidence => exact .inr (.same rfl rfl rfl)
  | onTimeout =>
      show Opened c c.onTimeout.1 ∨ Raised c c.onTimeout.1
      unfold onTimeout
      split
      · exact .inr (.same rfl rfl rfl)
      · exact startRound_rounds c _ _

/-! ## Runs -/

theorem dominated_after {input : Input} (h : NotBefore c.lockedRound c.validRound)
    (hkeeps : c.KeepsValidRound input) :
    NotBefore (c.after input).lockedRound (c.after input).validRound := by
  rcases after_rounds hkeeps with ⟨-, hnone⟩ | ⟨-, hvalid, hlocked | hlocked⟩
  · rw [hnone]
    exact notBefore_none _
  · rw [hlocked]
    exact h.trans hvalid
  · rw [hlocked]
    exact .refl _

theorem height_le_of_run (h : Run KeepsValidRound c c') : c.height ≤ c'.height := by
  induction h with
  | refl => exact le_rfl
  | tail _ hstep ih =>
      obtain ⟨input, hkeeps, rfl⟩ := hstep
      rcases after_rounds hkeeps with ⟨hlt, -⟩ | ⟨hheight, -, -⟩
      · exact ih.trans hlt.le
      · exact ih.trans hheight.ge

/-- In every run whose calls keep to the condition, the round of the valid value does not go back
within a height and is never behind the round of the lock. -/
theorem validRound_kept_of_run {validators : List Validator} {c₀ : BftConsensus}
    (hnew : BftConsensus.new validators = .ok c₀) (hrun : Run KeepsValidRound c₀ c)
    (hrun' : Run KeepsValidRound c c') :
    (∀ l, c.lockedRound = some l → ∃ v, c.validRound = some v ∧ l ≤ v) ∧
      (c'.height = c.height →
        ∀ v, c.validRound = some v → ∃ v', c'.validRound = some v' ∧ v ≤ v') := by
  refine ⟨?_, ?_⟩
  · suffices hdominated : NotBefore c.lockedRound c.validRound from hdominated
    clear hrun'
    induction hrun with
    | refl =>
        simp only [BftConsensus.new, check_bind_eq_ok] at hnew
        simp only [bind_eq_ok, pure_eq_ok] at hnew
        obtain ⟨-, powers, -, rfl⟩ := hnew
        exact notBefore_none _
    | tail _ hstep ih =>
        obtain ⟨input, hkeeps, rfl⟩ := hstep
        exact dominated_after ih hkeeps
  · intro hheight
    suffices hraised : NotBefore c.validRound c'.validRound from hraised
    clear hrun hnew
    induction hrun' with
    | refl => exact .refl _
    | tail hbefore hstep ih =>
        obtain ⟨input, hkeeps, rfl⟩ := hstep
        have hle := height_le_of_run hbefore
        rcases after_rounds hkeeps with ⟨hlt, -⟩ | ⟨hsame, hvalid, -⟩
        · omega
        · exact (ih (hsame.symm.trans hheight)).trans hvalid

end

end BftConsensus

namespace Lone

open BftConsensus

attribute [local instance] agreementCrypto

theorem machine_ok : (BftConsensus.new validatorSet.validators).toOption.isSome = true := by
  decide

def machine : BftConsensus := (BftConsensus.new validatorSet.validators).toOption.get machine_ok

def prevoteIn (round : ℕ) : ConsensusMessage :=
  { height := 1, round, validatorId := self, voteType := .prevote, blockHash := block.hash
    signature := StandIn.sign 1 (ConsensusMessage.bytesToSign 1 round self .prevote block.hash) }

/-- A proposal in round two that goes back to the quorum of round zero. -/
def oldProposal : SignedProposal :=
  { height := 1, round := 2, proposerId := self, validRound := some 0
    validRoundPrevotes := [prevoteIn 0], block
    signature := StandIn.sign 1
      (SignedProposal.bytesToSign 1 2 self block.hash (some 0) [prevoteIn 0]) }

/-- A proposal with the quorum of round zero replaces the valid round one. -/
theorem validRound_goes_back : ∃ c c',
    Run (fun _ _ => True) machine c ∧ Run (fun _ _ => True) c c' ∧ c'.height = c.height ∧
      c.validRound = some 1 ∧ c'.validRound = some 0 := by
  obtain ⟨adopted, proposed, hadopted, hproposed, hheight, hvalid, hvalid'⟩ :
      ∃ adopted proposed,
        (machine.after (.startRound 1 2)).after (.adoptValidValue block.hash 1 [prevoteIn 1]) =
          adopted ∧
        adopted.after (.handleProposal oldProposal) = proposed ∧
        proposed.height = adopted.height ∧ adopted.validRound = some 1 ∧
        proposed.validRound = some 0 :=
    ⟨_, _, rfl, rfl, by decide +kernel⟩
  refine ⟨adopted, proposed, ?_, .single ⟨_, trivial, hproposed⟩, hheight, hvalid, hvalid'⟩
  exact .tail (.single ⟨_, trivial, rfl⟩) ⟨_, trivial, hadopted⟩

/-- The first lock of the lone machine. -/
theorem validRound_kept_of_run_lock : ∃ c,
    Run KeepsValidRound machine c ∧ c.lockedRound = some 0 ∧
      ∃ v, c.validRound = some v ∧ 0 ≤ v := by
  obtain ⟨proposed, locked, hproposed, hlocked, hnone, hlock⟩ : ∃ proposed locked,
      (machine.after (.startRound 1 0)).after (.handleProposal (proposal block)) = proposed ∧
        proposed.after (.handle (vote block .prevote)) = locked ∧ proposed.validRound = none ∧
        locked.lockedRound = some 0 :=
    ⟨_, _, rfl, rfl, by decide +kernel⟩
  have hopened : Run KeepsValidRound machine (machine.after (.startRound 1 0)) :=
    .single ⟨.startRound 1 0, trivial, rfl⟩
  have hrun : Run KeepsValidRound machine locked := by
    refine .tail (.tail hopened ⟨.handleProposal (proposal block), ?_, hproposed⟩)
      ⟨.handle (vote block .prevote), ?_, hlocked⟩
    · rintro - r ⟨⟩
    · intro _
      rw [hnone]
      exact notBefore_none _
  exact ⟨locked, hrun, hlock,
    (validRound_kept_of_run (eq_ok_get machine_ok) hrun .refl).1 0 hlock⟩

end Lone

end IeumChain
