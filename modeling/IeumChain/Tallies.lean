import IeumChain.DeferredVotes
import IeumChain.MachineCalls

/-!
# A round in progress

Once a proposal is taken up, the phase of the node follows from who is counted for the
block: without a quorum of prevotes it prevotes, with one it precommits, and with a
quorum of precommits, its own among them, it has finalized. A vote for the block enters
the count in whatever order it comes, unless it is a precommit before the quorum of
prevotes; then it waits.
-/
namespace IeumChain

open Outcome MachineWords FiniteMap

namespace BftConsensus

/-- Who is counted for a block in one step of the round. -/
def tally (c : BftConsensus) (voteType : VoteType) (x : String) : Finset String :=
  getD c.votes (voteType, x) ∅

/-- More than two thirds of the power. -/
def Enough (c : BftConsensus) (ids : Finset String) : Prop :=
  exceedsTwoThirds ((∑ id ∈ ids, getD c.validators id 0) % 2 ^ 64) c.totalPower = true

section
variable {c c' : BftConsensus} {s t : Finset String} {x : String} {m : ConsensusMessage}

/-- With powers that fit a machine word a larger set has more power. -/
theorem Enough.mono (hfits : total c.validators ≤ u64Max) (h : c.Enough s) (hsub : s ⊆ t) :
    c.Enough t := by
  have hword : ∀ ids : Finset String,
      (∑ id ∈ ids, getD c.validators id 0) % 2 ^ 64 = ∑ id ∈ ids, getD c.validators id 0 := by
    intro ids
    have htop := sum_getD_le_total c.validators ids
    have hmax : u64Max < 2 ^ 64 := by decide
    exact Nat.mod_eq_of_lt (by omega)
  unfold Enough at h ⊢
  rw [hword] at h ⊢
  exact exceedsTwoThirds_mono (Finset.sum_le_sum_of_subset hsub) h

theorem not_enough_empty : ¬c.Enough ∅ := by
  intro h
  rw [Enough, Finset.sum_empty, exceedsTwoThirds, decide_eq_true_eq] at h
  unfold saturatingMul at h
  omega

theorem Enough.congr (hvalidators : c'.validators = c.validators)
    (htotal : c'.totalPower = c.totalPower) : c'.Enough s ↔ c.Enough s := by
  unfold Enough
  rw [hvalidators, htotal]

theorem tally_addVote_self (c : BftConsensus) (m : ConsensusMessage) :
    (c.addVote m).tally m.voteType m.blockHash =
      insert m.validatorId (c.tally m.voteType m.blockHash) :=
  getD_insert_self ..

theorem tally_addVote_ne (c : BftConsensus) {voteType : VoteType} (h : voteType ≠ m.voteType) :
    (c.addVote m).tally voteType x = c.tally voteType x :=
  getD_insert_ne _ (fun heq => h (Prod.mk.inj heq).1) _ _

section
variable [Crypto]

/-- A vote for a block in the current round, signed by a validator. -/
structure Backs (c : BftConsensus) (x : String) (v : ConsensusMessage) : Prop where
  height : v.height = c.height
  round : v.round = c.round
  block : v.blockHash = x
  verify : v.verify = .ok ()
  member : v.validatorId ∈ c.validators

theorem Backs.congr (h : c.Backs x m) (hheight : c'.height = c.height) (hround : c'.round = c.round)
    (hvalidators : c'.validators = c.validators) : c'.Backs x m := by
  refine ⟨?_, ?_, h.block, h.verify, ?_⟩
  · rw [hheight]
    exact h.height
  · rw [hround]
    exact h.round
  · rw [hvalidators]
    exact h.member

theorem Backs.checkVote (h : c.Backs x m) (haccepts : acceptsVote c.phase m.voteType = true) :
    c.checkVote m = .ok () := by
  simp only [BftConsensus.checkVote, check_bind_eq_ok, reject_eq_ok, not_or, not_not]
  exact ⟨⟨h.height, h.round⟩, h.member, h.verify, haccepts⟩

/-- What is on file after a vote was on file before, or is that vote. -/
theorem voteHistory_handle {k : ℕ × ℕ × VoteType × String} {y : String}
    (h : (c.handle m).1.voteHistory.lookup k = some y) :
    c.voteHistory.lookup k = some y ∨ k = m.key ∧ y = m.blockHash := by
  have hcount : ∀ c₁ : BftConsensus, (c₁.countVote m).1.voteHistory = c₁.voteHistory := by
    intro c₁
    unfold countVote
    split_ifs
    · rfl
    · rcases (c₁.addVote m).advancePhase_cases m with hcase | ⟨-, -, -, hcase⟩ | ⟨-, -, -, hcase⟩
      · rw [hcase]
        rfl
      · rw [hcase]
        rfl
      · rw [hcase]
        rfl
  have hrecord : (c.recordEvidence m).voteHistory = c.voteHistory := by
    unfold recordEvidence
    split
    · rfl
    · dsimp only
      split_ifs <;> rfl
  unfold handle at h
  cases hcheck : c.checkVote m with
  | error e =>
      rw [hcheck] at h
      exact .inl h
  | ok u =>
      rw [hcheck] at h
      dsimp only at h
      cases hfiled : c.voteHistory.lookup m.key with
      | none =>
          rw [hfiled] at h
          dsimp only at h
          rw [hcount] at h
          by_cases hkey : k = m.key
          · subst hkey
            rw [fileVote, AList.lookup_insert] at h
            exact .inr ⟨rfl, (Option.some.inj h).symm⟩
          · rw [fileVote, AList.lookup_insert_ne hkey] at h
            exact .inl h
      | some previous =>
          rw [hfiled] at h
          dsimp only at h
          split_ifs at h
          · rw [hrecord] at h
            exact .inl h
          · rw [hcount] at h
            exact .inl h

/-- A vote for the proposal is counted if the phase accepts it and its validator has no other
vote on file. -/
theorem handle_backs (h : c.Backs x m) (hproposal : c.proposal = some x)
    (haccepts : acceptsVote c.phase m.voteType = true)
    (hclean : ∀ y, c.voteHistory.lookup m.key = some y → y = x) :
    ∃ c₁, SameCore c c₁ ∧ c.handle m = ((c₁.addVote m).advancePhase m, .ok ()) := by
  have hcount : ∀ c₁ : BftConsensus, SameCore c c₁ →
      c₁.countVote m = ((c₁.addVote m).advancePhase m, .ok ()) := by
    intro c₁ hcore
    unfold countVote
    rw [if_neg (by rw [hcore.proposal, hproposal, h.block]; exact not_not.2 rfl)]
  unfold handle
  rw [h.checkVote haccepts]
  dsimp only
  cases hfiled : c.voteHistory.lookup m.key with
  | none => exact ⟨c.fileVote m, sameCore_fileVote c m, hcount _ (sameCore_fileVote c m)⟩
  | some previous =>
      dsimp only
      rw [if_neg (by rw [hclean previous hfiled, h.block]; exact not_not.2 rfl)]
      exact ⟨c, .refl c, hcount c (.refl c)⟩

/-- Only votes for the proposal are counted. -/
theorem backs_of_handle (h : (c.handle m).2 = .ok ()) (hproposal : c.proposal = some x) :
    c.Backs x m := by
  rcases c.handle_cases m with ⟨c', e, hcase, -⟩ | ⟨hcheck, hvote, -⟩
  · rw [hcase] at h
    cases h
  · obtain ⟨hheight, hround, hmember, hverify, -⟩ := checkVote_eq_ok hcheck
    exact ⟨hheight, hround, Option.some.inj (hvote.symm.trans hproposal), hverify, hmember⟩

end

/-! ## The phase after a vote -/

theorem advancePhase_few (h : ¬c.Enough (c.tally m.voteType m.blockHash)) : c.advancePhase m = c :=
  if_neg fun hquorum => h hquorum.1

theorem advancePhase_finalized (h : c.phase = .finalized) : c.advancePhase m = c :=
  if_neg fun hquorum => hquorum.2 h

theorem advancePhase_locked (hvote : m.voteType = .prevote) (hphase : c.phase ≠ .prevote) :
    c.advancePhase m = c := by
  rcases c.advancePhase_cases m with h | ⟨-, hprevote, -, -⟩ | ⟨hprecommit, -, -, -⟩
  · exact h
  · exact absurd hprevote hphase
  · rw [hvote] at hprecommit
    cases hprecommit

theorem advancePhase_locks (hvote : m.voteType = .prevote) (hphase : c.phase = .prevote)
    (h : c.Enough (c.tally .prevote m.blockHash)) :
    c.advancePhase m = { c with
      validValue := some m.blockHash, validRound := some c.round
      lockedValue := some m.blockHash, lockedRound := some c.round, phase := .precommit } := by
  rw [← hvote] at h
  rw [advancePhase, if_pos ⟨h, by rw [hphase]; exact ConsensusPhase.noConfusion⟩, hvote]
  exact if_pos hphase

theorem advancePhase_finalizes (hvote : m.voteType = .precommit) (hphase : c.phase ≠ .finalized)
    (h : c.Enough (c.tally .precommit m.blockHash)) :
    c.advancePhase m = { c with phase := .finalized, finalized := some m.blockHash } := by
  rw [← hvote] at h
  rw [advancePhase, if_pos ⟨h, hphase⟩, hvote]

/-- Where a counted vote leads: nowhere as long as its step has no quorum or had one before, to
the precommits, or to the end. -/
inductive Advance (x : String) (m : ConsensusMessage) (c c' : BftConsensus) : Prop
  | stays (phase : c'.phase = c.phase) (finalized : c'.finalized = c.finalized)
      (prevotes : c.phase = .prevote → ¬c.Enough (c'.tally .prevote x))
      (precommits : c.phase = .precommit → m.voteType = .precommit →
        ¬c.Enough (c'.tally .precommit x))
  | locks (before : c.phase = .prevote) (phase : c'.phase = .precommit)
      (finalized : c'.finalized = c.finalized) (vote : m.voteType = .prevote)
      (quorum : c.Enough (c'.tally .prevote x))
  | finalizes (before : c.phase = .precommit) (phase : c'.phase = .finalized)
      (finalized : c'.finalized = some x) (vote : m.voteType = .precommit)
      (quorum : c.Enough (c'.tally .precommit x))

/-- The vote enters the count, and the phase follows. -/
structure Tallied (x : String) (m : ConsensusMessage) (c c' : BftConsensus) : Prop where
  tally : ∀ t, c'.tally t x =
    if t = m.voteType then insert m.validatorId (c.tally t x) else c.tally t x
  enough : ∀ s, c'.Enough s ↔ c.Enough s
  advance : Advance x m c c'

theorem Tallied.subset (h : Tallied x m c c') (voteType : VoteType) :
    c.tally voteType x ⊆ c'.tally voteType x := by
  rw [h.tally]
  split_ifs
  · exact Finset.subset_insert _ _
  · exact subset_rfl

theorem tallied_advancePhase {c₁ : BftConsensus} (hcore : SameCore c c₁) (hblock : m.blockHash = x)
    (haccepts : acceptsVote c.phase m.voteType = true) :
    Tallied x m c ((c₁.addVote m).advancePhase m) := by
  have hsame := (c₁.addVote m).sameRound_advancePhase m
  have hphase : (c₁.addVote m).phase = c.phase := hcore.phase
  have hending : (c₁.addVote m).finalized = c.finalized := hcore.finalized
  have hbefore : ∀ t, c₁.tally t x = c.tally t x := by
    intro t
    unfold tally
    rw [hcore.votes]
  have hnow : ∀ t, ((c₁.addVote m).advancePhase m).tally t x = (c₁.addVote m).tally t x := by
    intro t
    unfold tally
    rw [hsame.votes]
  have henough : ∀ s, (c₁.addVote m).Enough s ↔ c.Enough s := fun s =>
    Enough.congr hcore.validators hcore.totalPower
  refine ⟨fun t => ?_, fun s => ?_, ?_⟩
  · rw [hnow]
    split_ifs with ht
    · subst ht hblock
      rw [tally_addVote_self, hbefore]
    · rw [tally_addVote_ne _ ht, hbefore]
  · exact (Enough.congr hsame.validators hsame.totalPower).trans (henough s)
  · subst hblock
    have hkept : (c₁.addVote m).advancePhase m = c₁.addVote m →
        (c.phase = .prevote → ¬c.Enough ((c₁.addVote m).tally .prevote m.blockHash)) →
        (c.phase = .precommit → m.voteType = .precommit →
          ¬c.Enough ((c₁.addVote m).tally .precommit m.blockHash)) →
        Advance m.blockHash m c ((c₁.addVote m).advancePhase m) := by
      intro hcase hprevotes hprecommits
      rw [hcase]
      exact .stays hphase hending hprevotes hprecommits
    -- the phase decides which votes can come and what they can lead to
    cases hc : c.phase with
    | waiting =>
        rw [hc] at haccepts
        cases haccepts
    | propose =>
        rw [hc] at haccepts
        cases haccepts
    | prevote =>
        have hvote : m.voteType = .prevote := by
          cases hvote : m.voteType with
          | prevote => rfl
          | precommit =>
              rw [hc, hvote] at haccepts
              cases haccepts
        by_cases hquorum : c.Enough ((c₁.addVote m).tally .prevote m.blockHash)
        · have hcase := advancePhase_locks hvote (hphase.trans hc) ((henough _).2 hquorum)
          refine .locks hc ?_ ?_ hvote (by rw [hnow]; exact hquorum)
          · rw [hcase]
          · rw [hcase]
            exact hending
        · refine hkept (advancePhase_few ?_) (fun _ => hquorum) fun hprecommit => ?_
          · rw [hvote, henough]
            exact hquorum
          · rw [hc] at hprecommit
            cases hprecommit
    | precommit =>
        cases hvote : m.voteType with
        | prevote =>
            refine hkept (advancePhase_locked hvote ?_) (fun hprevote => ?_) fun _ hprecommit => ?_
            · rw [hphase, hc]
              exact ConsensusPhase.noConfusion
            · rw [hc] at hprevote
              cases hprevote
            · rw [hvote] at hprecommit
              cases hprecommit
        | precommit =>
            by_cases hquorum : c.Enough ((c₁.addVote m).tally .precommit m.blockHash)
            · have hcase := advancePhase_finalizes hvote (by rw [hphase, hc]; exact
                ConsensusPhase.noConfusion) ((henough _).2 hquorum)
              refine .finalizes hc ?_ ?_ hvote (by rw [hnow]; exact hquorum)
              · rw [hcase]
              · rw [hcase]
            · refine hkept (advancePhase_few ?_) (fun hprevote => ?_) fun _ _ => hquorum
              · rw [hvote, henough]
                exact hquorum
              · rw [hc] at hprevote
                cases hprevote
    | finalized =>
        refine hkept (advancePhase_finalized (hphase.trans hc)) (fun hprevote => ?_)
          fun hprecommit => ?_
        · rw [hc] at hprevote
          cases hprevote
        · rw [hc] at hprecommit
          cases hprecommit

end

/-! ## Before the proposal -/

section
variable [Crypto] {c : BftConsensus}

/-- Before the proposal no vote is counted. -/
def Blank (c : BftConsensus) : Prop :=
  c.phase = .propose ∨ c.phase = .waiting → ∀ t x, c.tally t x = ∅

omit [Crypto] in
theorem Blank.enterRound (c : BftConsensus) (height round : ℕ) : (c.enterRound height round).Blank :=
  fun _ _ _ => rfl

omit [Crypto] in
theorem Blank.startRound (h : c.Blank) (height round : ℕ) : (c.startRound height round).1.Blank := by
  unfold BftConsensus.startRound
  split_ifs
  · exact h
  · exact Blank.enterRound c height round

omit [Crypto] in
theorem Blank.sameCore {c' : BftConsensus} (h : c.Blank) (hcore : SameCore c c') : c'.Blank := by
  intro hphase t x
  rw [hcore.phase] at hphase
  unfold tally
  rw [hcore.votes]
  exact h hphase t x

omit [Crypto] in
theorem blank_of_phase (hpropose : c.phase ≠ .propose) (hwaiting : c.phase ≠ .waiting) : c.Blank :=
  fun hphase => by rcases hphase with hphase | hphase <;> contradiction

omit [Crypto] in
theorem Blank.propose (h : c.Blank) (proposer blockHash : String) :
    (c.propose proposer blockHash).1.Blank := by
  unfold BftConsensus.propose
  cases c.checkPropose proposer blockHash with
  | error e => exact h
  | ok u => exact blank_of_phase ConsensusPhase.noConfusion ConsensusPhase.noConfusion

theorem Blank.after (h : c.Blank) (input : Input) : (c.after input).Blank := by
  cases input with
  | startRound height round => exact h.startRound height round
  | propose proposer blockHash => exact h.propose proposer blockHash
  | handleProposal p =>
      unfold BftConsensus.after
      rcases c.handleProposal_cases p with ⟨c', e, hcase, hcore⟩ | ⟨-, -, -, hcase⟩
      · simp only [hcase]
        exact h.sameCore hcore
      · simp only [hcase]
        exact blank_of_phase ConsensusPhase.noConfusion ConsensusPhase.noConfusion
  | handle m =>
      unfold BftConsensus.after
      rcases c.handle_cases m with ⟨c', e, hcase, hcore⟩ | ⟨hcheck, hproposal, c₁, hcore, hcase⟩
      · simp only [hcase]
        exact h.sameCore hcore
      · obtain ⟨-, -, -, -, haccepts⟩ := checkVote_eq_ok hcheck
        have hadvance := (tallied_advancePhase hcore rfl haccepts).advance
        simp only [hcase]
        cases hadvance with
        | stays hphase =>
            refine blank_of_phase ?_ ?_
            · rw [hphase]
              rintro hpropose
              rw [hpropose] at haccepts
              cases haccepts
            · rw [hphase]
              rintro hwaiting
              rw [hwaiting] at haccepts
              cases haccepts
        | locks _ hphase =>
            refine blank_of_phase ?_ ?_ <;> rw [hphase] <;> exact ConsensusPhase.noConfusion
        | finalizes _ hphase =>
            refine blank_of_phase ?_ ?_ <;> rw [hphase] <;> exact ConsensusPhase.noConfusion
  | adoptValidValue blockHash validRound prevotes =>
      exact h.sameCore (c.sameCore_adoptValidValue blockHash validRound prevotes)
  | takeEvidence => exact h
  | onTimeout =>
      unfold BftConsensus.after BftConsensus.onTimeout
      cases checkedAdd u32Max c.round 1 with
      | none => exact h
      | some next => exact h.startRound _ _

omit [Crypto] in
theorem blank_new {validators : List Validator} (hnew : BftConsensus.new validators = .ok c) :
    c.Blank := by
  simp only [BftConsensus.new, check_bind_eq_ok] at hnew
  simp only [bind_eq_ok, pure_eq_ok] at hnew
  obtain ⟨-, powers, -, rfl⟩ := hnew
  exact fun _ _ _ => rfl

end

end BftConsensus

namespace ConsensusRuntime

section
variable [Crypto] {rt rt' : ConsensusRuntime} {env : Env}

/-- What a working signer makes of a vote. -/
theorem signVote_signed (hsigner : rt.SignerWorks env) (height round : ℕ) (voteType : VoteType)
    (x : String) : ∃ vote : ConsensusMessage, vote.verify = .ok () ∧
      (vote.height = height ∧ vote.round = round ∧ vote.voteType = voteType ∧
        vote.blockHash = x ∧ vote.validatorId = rt.validator) ∧
      rt.signVote env height round voteType x =
        (rt.record (.vote height round voteType x), .ok vote) := by
  obtain ⟨signature, hsign, hverify⟩ := hsigner (.vote height round voteType x)
  refine ⟨⟨height, round, rt.validator, voteType, x, signature⟩, hverify, ⟨rfl, rfl, rfl, rfl, rfl⟩, ?_⟩
  have hmessage : ConsensusMessage.verify ⟨height, round, rt.validator, voteType, x, signature⟩ =
      .ok () := hverify
  unfold signVote sign
  rw [hsign]
  dsimp only
  rw [hmessage]
  rfl

/-! ## What follows a counted vote -/

theorem afterVote_prevote (h : rt.consensus.phase = .prevote) : rt.afterVote env = (rt, .ok none) := by
  simp [afterVote, h]

theorem afterVote_precommit {b : Block} (h : rt.consensus.phase = .precommit)
    (hpending : rt.pending = some b) (hsigner : rt.SignerWorks env) :
    ∃ vote : ConsensusMessage, vote.verify = .ok () ∧
      (vote.height = b.height ∧ vote.round = rt.consensus.round ∧ vote.voteType = .precommit ∧
        vote.blockHash = b.hash ∧ vote.validatorId = rt.validator) ∧
      rt.afterVote env =
        (rt.record (.vote b.height rt.consensus.round .precommit b.hash), .ok (some vote)) := by
  obtain ⟨vote, hverify, hfields, hsigned⟩ :=
    signVote_signed hsigner b.height rt.consensus.round .precommit b.hash
  refine ⟨vote, hverify, hfields, ?_⟩
  unfold afterVote
  rw [if_pos h, hpending]
  dsimp only
  rw [hsigned]
  rfl

theorem afterVote_idle (h : rt.consensus.phase = .finalized) (hpending : rt.pending = none) :
    rt.afterVote env = (rt, .ok none) := by
  simp [afterVote, finalizePending, h, hpending]

/-- The node after its candidate was applied. -/
def concluded (rt : ConsensusRuntime) (b : Block) (next : Blockchain) : ConsensusRuntime :=
  { rt with
    pending := none, chain := next, validBlock := none, validRoundPrevotes := []
    finalized := rt.finalized ++ [rt.ownCertificate b]
    pendingFinalized := rt.pendingFinalized ++ [rt.ownCertificate b] }

theorem afterVote_finalizes {b : Block} {next : Blockchain} (h : rt.consensus.phase = .finalized)
    (hpending : rt.pending = some b) (hfinalized : rt.consensus.finalized = some b.hash)
    (hverify : (rt.ownCertificate b).verify rt.validators = .ok ())
    (happly : rt.chain.applyBlock b = .ok next) :
    rt.afterVote env = (rt.concluded b next, .ok none) := by
  unfold concluded
  unfold ownCertificate at hverify ⊢
  unfold afterVote finalizePending
  rw [if_neg (by rw [h]; exact ConsensusPhase.noConfusion), if_pos h, hpending]
  dsimp only
  rw [if_neg (not_not.2 hfinalized), hverify]
  dsimp only
  rw [happly]

/-! ## A round in progress -/

/-- The candidate waits for its quorums. -/
structure Undecided (start : ConsensusRuntime) (b : Block) (rt : ConsensusRuntime) : Prop where
  pending : rt.pending = some b
  chain : rt.chain = start.chain
  finalized : rt.consensus.finalized = start.consensus.finalized

/-- The candidate is on the chain. -/
structure Decided (b : Block) (next : Blockchain) (rt : ConsensusRuntime) : Prop where
  pending : rt.pending = none
  chain : rt.chain = next
  finalized : rt.consensus.finalized = some b.hash

/-- The phase fits the count. -/
inductive Stage (start : ConsensusRuntime) (b : Block) (next : Blockchain) (rt : ConsensusRuntime) :
    Prop
  | prevote (phase : rt.consensus.phase = .prevote)
      (early : rt.consensus.tally .precommit b.hash = ∅) (undecided : Undecided start b rt)
  | precommit (phase : rt.consensus.phase = .precommit)
      (locked : rt.consensus.Enough (rt.consensus.tally .prevote b.hash))
      (few : ¬rt.consensus.Enough (rt.consensus.tally .precommit b.hash))
      (undecided : Undecided start b rt)
  | finalized (phase : rt.consensus.phase = .finalized)
      (locked : rt.consensus.Enough (rt.consensus.tally .prevote b.hash))
      (certified : rt.consensus.Enough (rt.consensus.tally .precommit b.hash))
      (decided : Decided b next rt)

/-- The node is in the round it started in, on the block, and only voters for the block are
counted for it, none of whom has another vote on file. -/
structure Grounded (start : ConsensusRuntime) (b : Block) (voter : VoteType → String → Prop)
    (rt : ConsensusRuntime) : Prop where
  poised : Poised rt
  validator : rt.validator = start.validator
  height : rt.consensus.height = start.consensus.height
  round : rt.consensus.round = start.consensus.round
  validators : rt.consensus.validators = start.consensus.validators
  totalPower : rt.consensus.totalPower = start.consensus.totalPower
  proposal : rt.consensus.proposal = some b.hash
  filed : ∀ t id, voter t id → ∀ y, rt.consensus.voteHistory.lookup
    (start.consensus.height, start.consensus.round, t, id) = some y → y = b.hash
  within : ∀ t id, id ∈ rt.consensus.tally t b.hash → voter t id

/-- A round in progress. -/
structure Voting (start : ConsensusRuntime) (b : Block) (next : Blockchain)
    (voter : VoteType → String → Prop) (rt : ConsensusRuntime) : Prop where
  ground : Grounded start b voter rt
  stage : Stage start b next rt

section
variable {start : ConsensusRuntime} {b : Block} {next : Blockchain}
  {voter : VoteType → String → Prop} {v : ConsensusMessage}

theorem Grounded.congr (h : Grounded start b voter rt) (hconsensus : rt'.consensus = rt.consensus)
    (hvalidator : rt'.validator = rt.validator) (hpoised : Poised rt') :
    Grounded start b voter rt' := by
  refine ⟨hpoised, hvalidator.trans h.validator, ?_, ?_, ?_, ?_, ?_, ?_, ?_⟩
  all_goals rw [hconsensus]
  · exact h.height
  · exact h.round
  · exact h.validators
  · exact h.totalPower
  · exact h.proposal
  · exact h.filed
  · exact h.within

theorem Grounded.backs (h : Grounded start b voter rt) {x : String}
    (hbacks : start.consensus.Backs x v) : rt.consensus.Backs x v :=
  hbacks.congr h.height h.round h.validators

theorem Grounded.fits (h : Grounded start b voter rt) : total rt.consensus.validators ≤ u64Max := by
  rw [h.poised.seated.total]
  exact h.poised.seated.fits

/-- The machine right after the vote. -/
theorem Grounded.counted (h : Grounded start b voter rt) (env : Env)
    (hbacks : start.consensus.Backs b.hash v) (hvoter : voter v.voteType v.validatorId)
    (hcheck : rt.consensus.checkVote v = .ok ()) {c₁ : BftConsensus}
    (hcore : rt.consensus.SameCore c₁)
    (hhandle : rt.consensus.handle v = ((c₁.addVote v).advancePhase v, .ok ())) :
    Grounded start b voter (rt.counted env v ((c₁.addVote v).advancePhase v)) := by
  have hproposal : rt.consensus.proposal = some v.blockHash := by rw [hbacks.block]; exact h.proposal
  have hpoised := h.poised.counted env hcheck hproposal hcore
  have hsame := (c₁.addVote v).sameRound_advancePhase v
  obtain ⟨hframe, hconsensus, -⟩ := frame_counted rt env v ((c₁.addVote v).advancePhase v)
  refine ⟨hpoised, hframe.validator.trans h.validator, ?_, ?_, ?_, ?_, ?_, ?_, ?_⟩
  all_goals rw [hconsensus]
  · exact (hsame.height.trans hcore.height).trans h.height
  · exact (hsame.round.trans hcore.round).trans h.round
  · exact (hsame.validators.trans hcore.validators).trans h.validators
  · exact (hsame.totalPower.trans hcore.totalPower).trans h.totalPower
  · exact (hsame.proposal.trans hcore.proposal).trans h.proposal
  · intro t id hid y hy
    have hlookup : (rt.consensus.handle v).1.voteHistory.lookup
        (start.consensus.height, start.consensus.round, t, id) = some y := by
      rw [hhandle]
      exact hy
    rcases BftConsensus.voteHistory_handle hlookup with hold | ⟨-, rfl⟩
    · exact h.filed t id hid y hold
    · exact hbacks.block
  · intro t id hid
    rw [BftConsensus.tally, hsame.votes] at hid
    rcases BftConsensus.mem_votes_addVote hid with hid | ⟨rfl, rfl, -⟩
    · rw [hcore.votes] at hid
      exact h.within t id hid
    · exact hvoter

/-- The vote is counted, nothing else is, and the queue stays as it is. -/
structure Counts (b : Block) (v : ConsensusMessage) (rt rt' : ConsensusRuntime) : Prop where
  self : rt'.consensus.tally v.voteType b.hash =
    insert v.validatorId (rt.consensus.tally v.voteType b.hash)
  other : ∀ t, t ≠ v.voteType → rt'.consensus.tally t b.hash = rt.consensus.tally t b.hash
  deferredVotes : rt'.deferredVotes = rt.deferredVotes
  onward : rt.consensus.phase ≠ .prevote → rt'.consensus.phase ≠ .prevote
  step : rt.consensus.phase = .prevote → rt'.consensus.phase ≠ .finalized
  open_ : v.voteType = .prevote → rt'.consensus.phase = .prevote →
    ¬rt'.consensus.Enough (rt'.consensus.tally .prevote b.hash)

/-- The answer to a counted vote is the node's own precommit while it precommits. -/
structure Answers (start : ConsensusRuntime) (b : Block) (rt : ConsensusRuntime)
    (reply : Option ConsensusMessage) : Prop where
  precommit : rt.consensus.phase = .precommit → reply.isSome = true
  own : ∀ m, reply = some m → rt.consensus.phase = .precommit ∧ m.voteType = .precommit ∧
    m.validatorId = start.validator ∧ start.consensus.Backs b.hash m

omit [Crypto] in
theorem Stage.congr (h : Stage start b next rt) (hcore : rt.consensus.SameCore rt'.consensus)
    (hpending : rt'.pending = rt.pending) (hchain : rt'.chain = rt.chain) :
    Stage start b next rt' := by
  have htally : ∀ t, rt'.consensus.tally t b.hash = rt.consensus.tally t b.hash := by
    intro t
    unfold BftConsensus.tally
    rw [hcore.votes]
  have henough : ∀ s, rt'.consensus.Enough s ↔ rt.consensus.Enough s := fun s =>
    BftConsensus.Enough.congr hcore.validators hcore.totalPower
  cases h with
  | prevote hphase hearly hundecided =>
      exact .prevote (hcore.phase.trans hphase) ((htally _).trans hearly)
        ⟨hpending.trans hundecided.pending, hchain.trans hundecided.chain,
          hcore.finalized.trans hundecided.finalized⟩
  | precommit hphase hlocked hfew hundecided =>
      refine .precommit (hcore.phase.trans hphase) ?_ ?_
        ⟨hpending.trans hundecided.pending, hchain.trans hundecided.chain,
          hcore.finalized.trans hundecided.finalized⟩
      · rw [htally, henough]
        exact hlocked
      · rw [htally, henough]
        exact hfew
  | finalized hphase hlocked hcertified hdecided =>
      refine .finalized (hcore.phase.trans hphase) ?_ ?_
        ⟨hpending.trans hdecided.pending, hchain.trans hdecided.chain,
          hcore.finalized.trans hdecided.finalized⟩
      · rw [htally, henough]
        exact hlocked
      · rw [htally, henough]
        exact hcertified

theorem Voting.record (h : Voting start b next voter rt) (payload : SignedPayload) :
    Voting start b next voter (rt.record payload) :=
  ⟨h.ground.congr rfl rfl (h.ground.poised.congr rfl rfl rfl fun _ => rfl),
    h.stage.congr (.refl _) rfl rfl⟩

/-- What follows a vote that does not end the round. -/
theorem Voting.afterVote (h : Voting start b next voter rt)
    (hself : start.validator ∈ start.consensus.validators) (hsigner : start.SignerWorks env) :
    ∃ rt' reply, rt.afterVote env = (rt', .ok reply) ∧ Voting start b next voter rt' ∧
      rt'.consensus = rt.consensus ∧ rt'.deferredVotes = rt.deferredVotes ∧
      Answers start b rt' reply := by
  have hworks : rt.SignerWorks env := by
    unfold SignerWorks
    rw [h.ground.validator]
    exact hsigner
  cases h.stage with
  | prevote hphase hearly hundecided =>
      refine ⟨rt, none, afterVote_prevote hphase, h, rfl, rfl, fun hprecommit => ?_, nofun⟩
      rw [hphase] at hprecommit
      cases hprecommit
  | precommit hphase hlocked hfew hundecided =>
      obtain ⟨vote, hverify, ⟨hheight, hround, htype, hblock, hid⟩, hafter⟩ :=
        afterVote_precommit hphase hundecided.pending hworks
      obtain ⟨b', hb', -, hbheight, -⟩ := h.ground.poised.candidate (.inr hphase)
      rw [hundecided.pending, Option.some.injEq] at hb'
      subst hb'
      refine ⟨_, some vote, hafter, h.record _, rfl, rfl, fun _ => rfl, ?_⟩
      rintro m ⟨⟩
      have hmine := hid.trans h.ground.validator
      refine ⟨hphase, htype, hmine, ⟨?_, ?_, hblock, hverify, ?_⟩⟩
      · exact (hheight.trans hbheight).trans h.ground.height
      · exact hround.trans h.ground.round
      · rw [hmine]
        exact hself
  | finalized hphase hlocked hcertified hdecided =>
      refine ⟨rt, none, afterVote_idle hphase hdecided.pending, h, rfl, rfl, fun hprecommit => ?_,
        nofun⟩
      rw [hphase] at hprecommit
      cases hprecommit

omit [Crypto] in
theorem counts_of_tallied (h : BftConsensus.Tallied b.hash v rt.consensus rt'.consensus)
    (hdeferred : rt'.deferredVotes = rt.deferredVotes) : Counts b v rt rt' := by
  refine ⟨?_, fun t ht => ?_, hdeferred, fun hbefore => ?_, fun hbefore => ?_, fun _ hphase => ?_⟩
  · rw [h.tally, if_pos rfl]
  · rw [h.tally, if_neg ht]
  · cases h.advance with
    | stays hphase => rwa [hphase]
    | locks hprevote => exact absurd hprevote hbefore
    | finalizes _ hphase =>
        rw [hphase]
        exact ConsensusPhase.noConfusion
  · cases h.advance with
    | stays hphase =>
        rw [hphase, hbefore]
        exact ConsensusPhase.noConfusion
    | locks _ hphase =>
        rw [hphase]
        exact ConsensusPhase.noConfusion
    | finalizes hprecommit =>
        rw [hbefore] at hprecommit
        cases hprecommit
  · rw [h.enough]
    cases h.advance with
    | stays hsame _ hprevotes => exact hprevotes (hsame.symm.trans hphase)
    | locks _ hlater =>
        rw [hphase] at hlater
        cases hlater
    | finalizes _ hlater =>
        rw [hphase] at hlater
        cases hlater

omit [Crypto] in
theorem Stage.of_precommit (h : Stage start b next rt) (hphase : rt.consensus.phase = .precommit) :
    Undecided start b rt ∧ rt.consensus.Enough (rt.consensus.tally .prevote b.hash) := by
  cases h with
  | prevote hother =>
      rw [hphase] at hother
      cases hother
  | precommit _ hlocked _ hundecided => exact ⟨hundecided, hlocked⟩
  | finalized hother =>
      rw [hphase] at hother
      cases hother

omit [Crypto] in
/-- The phase still fits the count after a vote that does not end the round. -/
theorem Stage.counted (h : Stage start b next rt)
    (hfits : total rt.consensus.validators ≤ u64Max)
    (htallied : BftConsensus.Tallied b.hash v rt.consensus rt'.consensus)
    (haccepts : BftConsensus.acceptsVote rt.consensus.phase v.voteType = true)
    (hpending : rt'.pending = rt.pending) (hchain : rt'.chain = rt.chain)
    (hopen : rt.consensus.phase = .precommit → rt'.consensus.phase ≠ .finalized) :
    Stage start b next rt' := by
  have hmore : ∀ t, rt.consensus.Enough (rt.consensus.tally t b.hash) →
      rt'.consensus.Enough (rt'.consensus.tally t b.hash) := fun t henough =>
    (htallied.enough _).2 (henough.mono hfits (htallied.subset t))
  cases h with
  | prevote hphase hearly hundecided =>
      have hvote : v.voteType = .prevote := by
        cases hvote : v.voteType with
        | prevote => rfl
        | precommit =>
            rw [hphase, hvote] at haccepts
            cases haccepts
      have hnone : rt'.consensus.tally .precommit b.hash = ∅ := by
        rw [htallied.tally, hvote, if_neg (by decide)]
        exact hearly
      have hundecided' : rt'.consensus.finalized = rt.consensus.finalized → Undecided start b rt' :=
        fun hsame => ⟨hpending.trans hundecided.pending, hchain.trans hundecided.chain,
          hsame.trans hundecided.finalized⟩
      cases htallied.advance with
      | stays hsame hfinalized => exact .prevote (hsame.trans hphase) hnone (hundecided' hfinalized)
      | locks _ hlocked hfinalized _ hquorum =>
          refine .precommit hlocked ((htallied.enough _).2 hquorum) ?_ (hundecided' hfinalized)
          rw [hnone]
          exact BftConsensus.not_enough_empty
      | finalizes hbefore =>
          rw [hphase] at hbefore
          cases hbefore
  | precommit hphase hlocked hfew hundecided =>
      cases htallied.advance with
      | stays hsame hfinalized _ hprecommits =>
          refine .precommit (hsame.trans hphase) (hmore _ hlocked) ?_
            ⟨hpending.trans hundecided.pending, hchain.trans hundecided.chain,
              hfinalized.trans hundecided.finalized⟩
          rw [htallied.enough]
          cases hvote : v.voteType with
          | prevote =>
              rw [htallied.tally, hvote, if_neg (by decide)]
              exact hfew
          | precommit => exact hprecommits hphase hvote
      | locks hbefore =>
          rw [hphase] at hbefore
          cases hbefore
      | finalizes _ hended => exact absurd hended (hopen hphase)
  | finalized hphase hlocked hcertified hdecided =>
      cases htallied.advance with
      | stays hsame hfinalized =>
          exact .finalized (hsame.trans hphase) (hmore _ hlocked) (hmore _ hcertified)
            ⟨hpending.trans hdecided.pending, hchain.trans hdecided.chain,
              hfinalized.trans hdecided.finalized⟩
      | locks hbefore =>
          rw [hphase] at hbefore
          cases hbefore
      | finalizes hbefore =>
          rw [hphase] at hbefore
          cases hbefore

/-- A vote that the phase accepts is counted. -/
theorem Voting.receive (h : Voting start b next voter rt)
    (hself : start.validator ∈ start.consensus.validators) (hsigner : start.SignerWorks env)
    (happly : start.chain.applyBlock b = .ok next) (hbacks : start.consensus.Backs b.hash v)
    (hvoter : voter v.voteType v.validatorId)
    (haccepts : BftConsensus.acceptsVote rt.consensus.phase v.voteType = true) :
    ∃ rt' reply, rt.receiveVote env v = (rt', .ok reply) ∧ Voting start b next voter rt' ∧
      Counts b v rt rt' ∧ Answers start b rt' reply := by
  obtain ⟨hground, hstage⟩ := h
  have hmine := hground.backs hbacks
  have hcheck := hmine.checkVote haccepts
  have hclean : ∀ y, rt.consensus.voteHistory.lookup v.key = some y → y = b.hash := by
    intro y hy
    refine hground.filed _ _ hvoter y ?_
    rw [← hbacks.height, ← hbacks.round]
    exact hy
  obtain ⟨c₁, hcore, hhandle⟩ :=
    BftConsensus.handle_backs hmine hground.proposal haccepts hclean
  have hground₁ := hground.counted env hbacks hvoter hcheck hcore hhandle
  have hreceive : rt.receiveVote env v =
      (rt.counted env v ((c₁.addVote v).advancePhase v)).afterVote env := by
    unfold receiveVote
    rw [hhandle]
    rfl
  obtain ⟨hframe, hconsensus, hpending⟩ := frame_counted rt env v ((c₁.addVote v).advancePhase v)
  have hdeferred := deferredVotes_receiveVote rt env v
  have hcertified := @Poised.certified _ rt hground.poised env v hcheck
    (by rw [hbacks.block]; exact hground.proposal) c₁ hcore
  have htallied := BftConsensus.tallied_advancePhase hcore hbacks.block haccepts
  rw [hreceive] at hdeferred ⊢
  rw [← hconsensus] at htallied
  generalize rt.counted env v ((c₁.addVote v).advancePhase v) = rt₁ at *
  by_cases hends : rt.consensus.phase = .precommit ∧ rt₁.consensus.phase = .finalized
  · obtain ⟨hbefore, hended⟩ := hends
    obtain ⟨b', hb', -, hfinalized, hverify⟩ := hcertified (by rw [hbefore]; exact
      ConsensusPhase.noConfusion) (by rw [← hconsensus]; exact hended)
    obtain ⟨hundecided, hlocked⟩ := hstage.of_precommit hbefore
    rw [hundecided.pending, Option.some.injEq] at hb'
    subst hb'
    have hafter := @afterVote_finalizes _ rt₁ env b next hended (hpending.trans hundecided.pending)
      hfinalized (by rw [hframe.validators]; exact hverify)
      (by rw [hframe.chain, hundecided.chain]; exact happly)
    rw [hafter] at hdeferred ⊢
    have hquorum : rt₁.consensus.Enough (rt₁.consensus.tally .precommit b.hash) := by
      rw [htallied.enough]
      cases htallied.advance with
      | stays hsame =>
          rw [hsame, hbefore] at hended
          cases hended
      | locks hprevote =>
          rw [hbefore] at hprevote
          cases hprevote
      | finalizes _ _ _ _ hquorum => exact hquorum
    have hpoised : Poised (rt₁.concluded b next) :=
      hground₁.poised.congr rfl rfl rfl fun hphase => by
        rw [hended] at hphase
        rcases hphase with hphase | hphase <;> cases hphase
    have hlocked₁ : rt₁.consensus.Enough (rt₁.consensus.tally .prevote b.hash) :=
      (htallied.enough _).2 (hlocked.mono hground.fits (htallied.subset _))
    refine ⟨_, none, rfl, ⟨hground₁.congr rfl rfl hpoised, .finalized hended hlocked₁ hquorum
      ⟨rfl, rfl, hfinalized⟩⟩, counts_of_tallied htallied hdeferred, fun hprecommit => ?_, nofun⟩
    have hphase : rt₁.consensus.phase = .precommit := hprecommit
    rw [hended] at hphase
    cases hphase
  · have hstage₁ := hstage.counted hground.fits htallied haccepts hpending hframe.chain
      fun hbefore hafter => hends ⟨hbefore, hafter⟩
    obtain ⟨rt', reply, hafter, hvoting, hsame, hqueue, hanswers⟩ :=
      (Voting.mk hground₁ hstage₁).afterVote hself hsigner
    rw [hafter] at hdeferred ⊢
    refine ⟨rt', reply, rfl, hvoting, counts_of_tallied ?_ hdeferred, hanswers⟩
    rw [hsame]
    exact htallied

theorem Voting.premature (h : Voting start b next voter rt)
    (hbacks : start.consensus.Backs b.hash v)
    (hrefused : BftConsensus.acceptsVote rt.consensus.phase v.voteType = false) :
    rt.receiveVote env v = (rt, .error BftConsensus.stageMismatch) := by
  have hmine := h.ground.backs hbacks
  exact receiveVote_premature (BftConsensus.checkVote_premature hmine.height hmine.round
    hmine.member hmine.verify hrefused)

/-- The vote is for the block if its validator is one of the voters, and only voters vote for
it. -/
structure Loyal (start : ConsensusRuntime) (b : Block) (voter : VoteType → String → Prop)
    (v : ConsensusMessage) : Prop where
  block : v.height = start.consensus.height → v.round = start.consensus.round →
    voter v.voteType v.validatorId → v.blockHash = b.hash
  voter : start.consensus.Backs b.hash v → voter v.voteType v.validatorId

/-- The same round, with the same votes counted. -/
structure Unmoved (rt rt' : ConsensusRuntime) : Prop where
  phase : rt'.consensus.phase = rt.consensus.phase
  votes : rt'.consensus.votes = rt.consensus.votes
  deferredVotes : rt'.deferredVotes = rt.deferredVotes

/-- Any other vote is turned away and only leaves its trace on file. -/
theorem Voting.other (h : Voting start b next voter rt) (env : Env)
    (hloyal : Loyal start b voter v) (hother : ¬start.consensus.Backs b.hash v) :
    ∃ rt' e, rt.receiveVote env v = (rt', .error e) ∧ Voting start b next voter rt' ∧
      Unmoved rt rt' := by
  obtain ⟨hground, hstage⟩ := h
  have hrefused : (rt.consensus.handle v).2 ≠ .ok () := by
    intro hok
    have hbacks := BftConsensus.backs_of_handle hok hground.proposal
    exact hother (hbacks.congr hground.height.symm hground.round.symm hground.validators.symm)
  rcases rt.consensus.handle_cases v with ⟨c', e, hhandle, hcore⟩ | ⟨-, -, c₁, -, hhandle⟩
  · refine ⟨{ rt with consensus := c' }, e, ?_, ⟨⟨hground.poised.sameCore hcore,
      hground.validator, ?_, ?_, ?_, ?_, ?_, ?_, ?_⟩, ?_⟩, ⟨hcore.phase, hcore.votes, rfl⟩⟩
    · unfold receiveVote
      rw [hhandle]
    · exact hcore.height.trans hground.height
    · exact hcore.round.trans hground.round
    · exact hcore.validators.trans hground.validators
    · exact hcore.totalPower.trans hground.totalPower
    · exact hcore.proposal.trans hground.proposal
    · intro t id hid y hy
      have hlookup : (rt.consensus.handle v).1.voteHistory.lookup
          (start.consensus.height, start.consensus.round, t, id) = some y := by
        rw [hhandle]
        exact hy
      rcases BftConsensus.voteHistory_handle hlookup with hold | ⟨hkey, rfl⟩
      · exact hground.filed t id hid y hold
      · obtain ⟨hheight, hround, rfl, rfl⟩ : start.consensus.height = v.height ∧
            start.consensus.round = v.round ∧ t = v.voteType ∧ id = v.validatorId := by
          simpa [ConsensusMessage.key] using hkey
        exact hloyal.block hheight.symm hround.symm hid
    · intro t id hid
      have hcounted : id ∈ c'.tally t b.hash := hid
      rw [BftConsensus.tally, hcore.votes] at hcounted
      exact hground.within t id hcounted
    · exact hstage.congr hcore rfl rfl
  · rw [hhandle] at hrefused
    exact absurd rfl hrefused

end

end

end ConsensusRuntime

end IeumChain
