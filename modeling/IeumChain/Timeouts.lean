import IeumChain.Heights
import IeumChain.Outflow
import IeumChain.VoteFiling

/-!
# Timeouts

When a node times out it sends itself the round change it is about to publish, with
the valid value it knows and the prevotes it has on file for it. The node accepts its
own message as long as its valid value is of a round it has reached, and the file holds
either no prevote or a quorum of prevotes for it.
-/
namespace IeumChain

open ByteCodec Outcome MachineWords FiniteMap

namespace ConsensusRuntime

/-- The calls between which a node may time out. -/
def WithinHeight : Call → Prop
  | .receiveProposal _ => True
  | .receiveVote _ => True
  | .deferVote _ => True
  | .replayDeferredVotes => True
  | .receiveRoundChange _ => True
  | .timeoutIfDueWithRoundChange _ => True
  | _ => False

theorem le_of_calledRound {rt : ConsensusRuntime} {height round target : ℕ}
    (h : rt.calledRound height round = some target) : round ≤ target := by
  unfold calledRound at h
  dsimp only at h
  split_ifs at h
  · rw [checkedAdd_eq_some] at h
    omega
  · cases h
    exact le_rfl

theorem reportedValidValue_eq_some {rt : ConsensusRuntime} {v : RoundChangeValidValue}
    (h : rt.reportedValidValue = some v) :
    rt.validBlock = some v.block ∧ rt.consensus.validPair = some (v.block.hash, v.validRound) ∧
      v.prevotes = rt.consensus.prevoteCertificate v.block.hash v.validRound ∧ v.prevotes ≠ [] := by
  unfold reportedValidValue at h
  split at h
  · rename_i block hash vr hblock hpair
    dsimp only at h
    split_ifs at h with hhash hprevotes
    cases h
    refine ⟨hblock, ?_, ?_, hprevotes⟩
    · rw [hpair, hhash]
    · rw [hhash]
  · cases h

theorem leaveTimedOutRound_ok (rt : ConsensusRuntime) (now : ℕ) {m : SignedRoundChange}
    (hround : m.round < u32Max) : ∃ left, (rt.leaveTimedOutRound now m).2 = .ok left := by
  unfold ConsensusRuntime.leaveTimedOutRound
  by_cases hsame : rt.consensus.round = m.round
  · rw [if_pos hsame]
    have hnext : checkedAdd u32Max rt.consensus.round 1 = some (rt.consensus.round + 1) :=
      checkedAdd_eq_some.2 ⟨rfl, by omega⟩
    unfold BftConsensus.onTimeout
    rw [hnext]
    dsimp only
    rw [BftConsensus.startRound_of_le (.inr ⟨rfl, Nat.le_succ _⟩)]
    exact ⟨_, rfl⟩
  · rw [if_neg hsame]
    exact ⟨_, rfl⟩

/-- Counting keeps the valid block, unless the candidate has just been locked. -/
theorem validBlock_counted (rt : ConsensusRuntime) (env : Env) (vote : ConsensusMessage)
    (c : BftConsensus) :
    (rt.counted env vote c).validBlock =
      if rt.consensus.phase = .prevote ∧ c.phase = .precommit then rt.pending
      else rt.validBlock := by
  obtain ⟨-, hconsensus, hpending⟩ := frame_collectPrecommit { rt with consensus := c } vote
  have hvalid : ({ rt with consensus := c }.collectPrecommit vote).validBlock = rt.validBlock := by
    unfold collectPrecommit
    split_ifs <;> rfl
  unfold counted
  generalize { rt with consensus := c }.collectPrecommit vote = collected at *
  unfold afterPhaseChange resetDeadline
  dsimp only at hconsensus hpending
  rw [hconsensus]
  by_cases hsame : rt.consensus.phase = c.phase
  · rw [if_pos hsame, if_neg]
    · exact hvalid
    · rw [hsame]
      rintro ⟨hprevote, hprecommit⟩
      cases hprevote.symm.trans hprecommit
  · rw [if_neg hsame]
    by_cases hlocked : rt.consensus.phase = .prevote ∧ c.phase = .precommit
    · rw [if_pos hlocked, if_pos hlocked]
      exact hpending
    · rw [if_neg hlocked, if_neg hlocked]
      exact hvalid

section
variable [Crypto]

/-- A node that was started and configured. -/
def Prepared (validators : List Validator) (rt : ConsensusRuntime) : Prop :=
  ∃ chain self timeouts instant base eventSchedule validatorInterestPolicy holderRewardPolicy
      upgradeSchedule validatorPeerIds,
    withSigner chain validators self timeouts instant = .ok base ∧
      rt = { base with
        eventSchedule, validatorInterestPolicy, holderRewardPolicy, upgradeSchedule
        validatorPeerIds }

/-- Calls under a clock that never goes back. -/
inductive TimedRun (allowed : Env → ConsensusRuntime → Call → Prop) :
    ℕ → ConsensusRuntime → ℕ → ConsensusRuntime → Prop
  | refl (t : ℕ) (rt : ConsensusRuntime) : TimedRun allowed t rt t rt
  | tail {t t' t'' : ℕ} {rt rt' : ConsensusRuntime} {env : Env} {call : Call}
      (h : TimedRun allowed t rt t' rt') (hclock : env.unixNow = some t'') (hle : t' ≤ t'')
      (hwithin : WithinHeight call) (hallowed : allowed env rt' call) :
      TimedRun allowed t rt t'' (rt'.run env call).1

/-- The signer signs, and its signatures are those of the node's address. -/
def SignerWorks (rt : ConsensusRuntime) (env : Env) : Prop :=
  ∀ payload : SignedPayload, ∃ signature,
    env.sign (payload.bytes rt.validator) = .ok signature ∧
      verifySignature rt.validator (payload.bytes rt.validator) signature = .ok ()

/-- A valid value that the node takes over from a round change is of a round that the node has
reached or now reaches and contradicts no prevote on file for the current round; one that it
already has is on file with no prevote or with a quorum. -/
def TakesProvable (rt : ConsensusRuntime) (env : Env) (m : SignedRoundChange) : Prop :=
  ∀ v, m.validValue = some v → rt.checkRoundChange m = .ok () →
    rt.checkRoundChangeValue env m v = .ok () →
    rt.consensus.checkValidValue v.block.hash v.validRound v.prevotes = .ok () →
    if rt.consensus.validRound.all (· < v.validRound) then
      (v.validRound ≤ rt.consensus.round ∨ rt.MovedBy env m) ∧
        (v.validRound = rt.consensus.round → ∀ vote ∈ v.prevotes, ∀ filed,
          rt.consensus.voteMessages.lookup vote.key = some filed → filed.blockHash = v.block.hash)
    else rt.consensus.validPair = some (v.block.hash, v.validRound) →
      rt.consensus.OnFile v.block.hash v.validRound

/-- No message leaves the node with a valid value that it cannot prove. -/
def StaysProvable (env : Env) (rt : ConsensusRuntime) : Call → Prop
  | .receiveProposal p =>
      rt.checkProposedBlock env p.block = .ok () → rt.consensus.checkProposal p = .ok () →
        ∀ vr, p.validRound = some vr → rt.validBlock.map (·.hash) = some p.block.hash →
          rt.consensus.OnFile p.block.hash vr
  | .receiveRoundChange m => rt.TakesProvable env m
  | _ => True

/-! ## The invariant -/

/-- The block belongs on top of the chain, now and later. -/
structure Fitting (t : ℕ) (rt : ConsensusRuntime) (b : Block) : Prop where
  height : b.height = rt.consensus.height
  previousHash : b.previousHash = rt.chain.tipHash
  valid : rt.validateScheduledBlock (some t) b = .ok ()

/-- The valid value can be proved, and the blocks in store fit the chain. -/
structure Replayable (t : ℕ) (rt : ConsensusRuntime) : Prop where
  provable : rt.consensus.Provable (rt.validBlock.map (·.hash))
  validFits : ∀ b, rt.validBlock = some b → Fitting t rt b
  pendingFits : ∀ b, rt.pending = some b → Fitting t rt b

variable {t t' : ℕ} {rt rt' : ConsensusRuntime}

/-- The clock only excludes blocks from the future. -/
theorem validateScheduledBlock_later {b : Block}
    (h : rt.validateScheduledBlock (some t) b = .ok ()) (hle : t ≤ t') :
    rt.validateScheduledBlock (some t') b = .ok () := by
  rw [validateScheduledBlock_eq_ok] at h ⊢
  obtain ⟨htip, now, hnow, hdrift, hrest⟩ := h
  cases hnow
  refine ⟨htip, t', rfl, hdrift.trans ?_, hrest⟩
  exact min_le_min_right _ (Nat.add_le_add_right hle _)

theorem Fitting.later {b : Block} (h : Fitting t rt b) (hle : t ≤ t') : Fitting t' rt b :=
  ⟨h.height, h.previousHash, validateScheduledBlock_later h.valid hle⟩

theorem Replayable.later (h : Replayable t rt) (hle : t ≤ t') : Replayable t' rt :=
  ⟨h.provable, fun b hb => (h.validFits b hb).later hle, fun b hb => (h.pendingFits b hb).later hle⟩

/-- Chain, rules and height are as before. -/
structure SameGround (rt rt' : ConsensusRuntime) : Prop where
  height : rt'.consensus.height = rt.consensus.height
  chain : rt'.chain = rt.chain
  verdict : ∀ now b, rt'.validateScheduledBlock now b = rt.validateScheduledBlock now b

theorem SameGround.fitting (h : SameGround rt rt') {b : Block} (hb : Fitting t rt b) :
    Fitting t rt' b := by
  refine ⟨hb.height.trans h.height.symm, ?_, ?_⟩
  · rw [h.chain]
    exact hb.previousHash
  · rw [h.verdict]
    exact hb.valid

/-- The machine changes; the blocks in store stay or go. -/
theorem Replayable.onGround (h : Replayable t rt) (hground : SameGround rt rt')
    (hprovable : rt'.consensus.Provable (rt'.validBlock.map (·.hash)))
    (hvalid : ∀ b, rt'.validBlock = some b → rt.validBlock = some b ∨ rt.pending = some b)
    (hpending : ∀ b, rt'.pending = some b → rt.pending = some b) : Replayable t rt' where
  provable := hprovable
  validFits b hb := hground.fitting ((hvalid b hb).elim (h.validFits b) (h.pendingFits b))
  pendingFits b hb := hground.fitting (h.pendingFits b (hpending b hb))

theorem Replayable.record (h : Replayable t rt) (payload : SignedPayload) :
    Replayable t (rt.record payload) :=
  h.onGround ⟨rfl, rfl, fun _ _ => rfl⟩ h.provable (fun _ => .inl) fun _ => id

theorem Replayable.receiveProposal (h : Replayable t rt) {env : Env} (hclock : env.unixNow = some t)
    {p : SignedProposal} (hstays : StaysProvable env rt (.receiveProposal p)) :
    Replayable t (rt.receiveProposal env p).1 := by
  have hstate : ∀ c', rt.consensus.height = c'.height →
      c'.Provable (rt.validBlock.map (·.hash)) → Replayable t { rt with consensus := c' } :=
    fun c' hheight hprovable => h.onGround ⟨hheight.symm, rfl, fun _ _ => rfl⟩ hprovable
      (fun _ => .inl) fun _ => id
  unfold ConsensusRuntime.receiveProposal
  cases hblock : rt.checkProposedBlock env p.block with
  | error e => exact h
  | ok u =>
      have hprovable := h.provable.handleProposal (hstays hblock)
      have hcases := rt.consensus.handleProposal_cases p
      dsimp only
      generalize rt.consensus.handleProposal p = handled at hprovable hcases
      obtain ⟨c', result⟩ := handled
      rcases hcases with ⟨c, e, heq, hcore⟩ | ⟨hcheck, -, -, heq⟩
      · cases heq
        exact hstate c' hcore.height.symm hprovable
      · cases heq
        have hheight : (rt.accepted p).height = rt.consensus.height :=
          (rt.consensus.sameCore_noteValidRound p).height
        obtain ⟨-, -, hblockHeight, -⟩ := BftConsensus.checkProposal_eq_ok hcheck
        simp only [checkProposedBlock, check_bind_eq_ok, reject_eq_ok, not_or, not_not] at hblock
        obtain ⟨⟨hprevious, -⟩, hvalid⟩ := hblock
        rw [hclock] at hvalid
        have hground : SameGround rt ({ rt with
            consensus := rt.accepted p, pending := some p.block }.resetDeadline env) :=
          ⟨hheight, rfl, fun _ _ => rfl⟩
        dsimp only
        rw [signVote_fst]
        suffices hready : Replayable t ({ rt with
            consensus := rt.accepted p, pending := some p.block }.resetDeadline env) from
          hready.record _
        refine ⟨hprovable, fun b hb => hground.fitting (h.validFits b hb), ?_⟩
        rintro b ⟨⟩
        exact ⟨hblockHeight.trans hheight.symm, hprevious, hvalid⟩

theorem verdict_counted (rt : ConsensusRuntime) (env : Env) (vote : ConsensusMessage)
    (c : BftConsensus) (now : Option ℕ) (b : Block) :
    (rt.counted env vote c).validateScheduledBlock now b = rt.validateScheduledBlock now b := by
  unfold counted collectPrecommit afterPhaseChange resetDeadline
  split_ifs <;> rfl

theorem Replayable.counted (h : Replayable t rt) (env : Env) (vote : ConsensusMessage)
    {c : BftConsensus} (hheight : c.height = rt.consensus.height)
    (hafter : BftConsensus.AfterVote rt.consensus (rt.validBlock.map (·.hash)) c) :
    Replayable t (rt.counted env vote c) := by
  obtain ⟨hframe, hconsensus, hpending⟩ := frame_counted rt env vote c
  have hvalid := rt.validBlock_counted env vote c
  have hground : SameGround rt (rt.counted env vote c) :=
    ⟨by rw [hconsensus, hheight], hframe.chain, rt.verdict_counted env vote c⟩
  refine h.onGround hground ?_ ?_ (by rw [hpending]; exact fun _ => id)
  · rw [hconsensus, hvalid]
    rcases hafter with ⟨hprovable, hlock⟩ | hprovable
    · rw [if_neg hlock]
      exact hprovable
    · exact hprovable _
  · intro b hb
    rw [hvalid] at hb
    split_ifs at hb
    · exact .inr hb
    · exact .inl hb

theorem Replayable.afterVote (h : Replayable t rt) (env : Env) :
    Replayable t (rt.afterVote env).1 := by
  rcases rt.afterVote_cases env with hcase | ⟨b, -, -, hcase⟩ | ⟨b, -, -, hcase⟩ |
    ⟨b, chain, -, -, -, -, -, hcase⟩
  · rw [hcase]
    exact h
  · rw [hcase]
    exact h.record _
  · rw [hcase]
    exact h.onGround ⟨rfl, rfl, fun _ _ => rfl⟩ h.provable (fun _ => .inl) (by simp)
  · rw [hcase]
    exact ⟨h.provable.forget, by simp, by simp⟩

theorem Replayable.receiveVote (h : Replayable t rt) (env : Env) (vote : ConsensusMessage) :
    Replayable t (rt.receiveVote env vote).1 := by
  have hafter := h.provable.handle vote
  have hheight : (rt.consensus.handle vote).1.height = rt.consensus.height := by
    rcases rt.consensus.handle_cases vote with ⟨c', e, heq, hcore⟩ | ⟨-, -, c₁, hcore, heq⟩
    · rw [heq]
      exact hcore.height
    · rw [heq, ← hcore.height]
      exact ((c₁.addVote vote).sameRound_advancePhase vote).height
  unfold ConsensusRuntime.receiveVote
  generalize rt.consensus.handle vote = handled at *
  obtain ⟨c', result⟩ := handled
  cases result with
  | error e =>
      exact h.onGround ⟨hheight, rfl, fun _ _ => rfl⟩ (hafter.elim (·.1) fun h => h _)
        (fun _ => .inl) fun _ => id
  | ok u => exact (h.counted env vote hheight hafter).afterVote env

/-! ## Round changes -/

/-- The valid value is on file with its quorum, in a round that is now called for. -/
structure Overtaken (t target : ℕ) (rt : ConsensusRuntime) : Prop where
  filed : rt.consensus.Filed
  power : total rt.consensus.validators ≤ u64Max
  value : ∃ x vr, rt.consensus.validPair = some (x, vr) ∧ vr ≤ target ∧
    rt.consensus.FiledQuorum x vr
  validFits : ∀ b, rt.validBlock = some b → Fitting t rt b

theorem checkRoundChangeValue_eq_ok {env : Env} {m : SignedRoundChange} {v : RoundChangeValidValue}
    (h : rt.checkRoundChangeValue env m v = .ok ()) :
    v.validRound ≤ m.round ∧ v.block.height = m.height ∧ v.block.previousHash = rt.chain.tipHash ∧
      rt.validateScheduledBlock env.unixNow v.block = .ok () := by
  simp only [checkRoundChangeValue, check_bind_eq_ok, reject_eq_ok, not_lt, not_or, not_not] at h
  exact ⟨h.1, h.2.1.1, h.2.1.2, h.2.2⟩

theorem height_of_checkRoundChange {m : SignedRoundChange} (h : rt.checkRoundChange m = .ok ()) :
    m.height = rt.consensus.height := by
  simp only [checkRoundChange, check_bind_eq_ok, reject_eq_ok, not_not] at h
  exact h.2.2.1

/-- The node after it has taken over a valid value from a round change. -/
def adopting (rt : ConsensusRuntime) (v : RoundChangeValidValue) : ConsensusRuntime :=
  { rt with
    consensus := (rt.consensus.adoptValidValue v.block.hash v.validRound v.prevotes).1
    validBlock := some v.block, validRoundPrevotes := v.prevotes }

/-- A newer value is taken over; one that is known already only brings its block along. -/
theorem adoptRoundChangeValue_eq {env : Env} {m : SignedRoundChange} {v : RoundChangeValidValue}
    (hv : m.validValue = some v) (hvalue : rt.checkRoundChangeValue env m v = .ok ())
    (hquorum : rt.consensus.checkValidValue v.block.hash v.validRound v.prevotes = .ok ())
    (hpair : (rt.consensus.adoptValidValue v.block.hash v.validRound v.prevotes).1.validPair =
      some (v.block.hash, v.validRound)) :
    rt.adoptRoundChangeValue env m = (rt.adopting v, .ok ()) := by
  have hok : (rt.consensus.adoptValidValue v.block.hash v.validRound v.prevotes).2 = .ok () := by
    unfold BftConsensus.adoptValidValue
    rw [hquorum]
    dsimp only
    split_ifs <;> rfl
  unfold ConsensusRuntime.adoptRoundChangeValue adopting
  rw [hv]
  dsimp only
  rw [hvalue]
  generalize rt.consensus.adoptValidValue v.block.hash v.validRound v.prevotes = adopted at *
  obtain ⟨c', result⟩ := adopted
  cases hok
  dsimp only at hpair ⊢
  rw [if_pos hpair]

theorem adopting_fits {env : Env} (hclock : env.unixNow = some t) {m : SignedRoundChange}
    {v : RoundChangeValidValue} (hcheck : rt.checkRoundChange m = .ok ())
    (hvalue : rt.checkRoundChangeValue env m v = .ok ()) :
    SameGround rt (rt.adopting v) ∧
      ∀ b, (rt.adopting v).validBlock = some b → Fitting t (rt.adopting v) b := by
  have hheight := (rt.consensus.sameCore_adoptValidValue v.block.hash v.validRound
    v.prevotes).height
  obtain ⟨-, hblock, hprevious, hvalid⟩ := checkRoundChangeValue_eq_ok hvalue
  rw [hclock] at hvalid
  refine ⟨⟨hheight, rfl, fun _ _ => rfl⟩, ?_⟩
  rintro b ⟨⟩
  exact ⟨(hblock.trans (height_of_checkRoundChange hcheck)).trans hheight.symm, hprevious, hvalid⟩

/-- A newer value is on file with its quorum afterwards. -/
theorem Replayable.adopting_newer (h : Replayable t rt) {v : RoundChangeValidValue}
    (hquorum : rt.consensus.checkValidValue v.block.hash v.validRound v.prevotes = .ok ())
    (hnewer : rt.consensus.validRound.all (· < v.validRound) = true)
    (hkeep : v.validRound = rt.consensus.round → ∀ vote ∈ v.prevotes, ∀ filed,
      rt.consensus.voteMessages.lookup vote.key = some filed → filed.blockHash = v.block.hash) :
    (rt.adopting v).consensus.Filed ∧ total (rt.adopting v).consensus.validators ≤ u64Max ∧
      (rt.adopting v).consensus.validPair = some (v.block.hash, v.validRound) ∧
      (rt.adopting v).consensus.FiledQuorum v.block.hash v.validRound := by
  obtain ⟨hfiled, hfiledQuorum, hpair⟩ := h.provable.adoptValidValue hquorum hnewer hkeep rfl
  have hcore := rt.consensus.sameCore_adoptValidValue v.block.hash v.validRound v.prevotes
  refine ⟨hfiled, ?_, hpair, hfiledQuorum⟩
  unfold adopting
  rw [hcore.validators]
  exact h.provable.power

theorem Replayable.adoptRoundChangeValue (h : Replayable t rt) {env : Env}
    (hclock : env.unixNow = some t) {m : SignedRoundChange}
    (hcheck : rt.checkRoundChange m = .ok ()) (htakes : rt.TakesProvable env m) :
    Replayable t (rt.adoptRoundChangeValue env m).1 ∨
      rt.MovedBy env m ∧ (rt.adoptRoundChangeValue env m).2 = .ok () ∧
        Overtaken t m.round (rt.adoptRoundChangeValue env m).1 := by
  cases hv : m.validValue with
  | none =>
      unfold ConsensusRuntime.adoptRoundChangeValue
      rw [hv]
      exact .inl h
  | some v =>
      cases hvalue : rt.checkRoundChangeValue env m v with
      | error e =>
          unfold ConsensusRuntime.adoptRoundChangeValue
          rw [hv]
          dsimp only
          rw [hvalue]
          exact .inl h
      | ok u =>
          cases hquorum : rt.consensus.checkValidValue v.block.hash v.validRound v.prevotes with
          | error e =>
              unfold ConsensusRuntime.adoptRoundChangeValue BftConsensus.adoptValidValue
              rw [hv]
              dsimp only
              rw [hvalue, hquorum]
              exact .inl h
          | ok u =>
              have htakes' := htakes v hv hcheck hvalue hquorum
              obtain ⟨hground, hfits⟩ := adopting_fits hclock hcheck hvalue
              have hpending : ∀ b, (rt.adopting v).pending = some b → Fitting t (rt.adopting v) b :=
                fun b hb => hground.fitting (h.pendingFits b hb)
              have hcore := rt.consensus.sameCore_adoptValidValue v.block.hash v.validRound
                v.prevotes
              split_ifs at htakes' with hnewer
              · obtain ⟨hfiled, hpower, hpair, hfiledQuorum⟩ :=
                  h.adopting_newer hquorum hnewer htakes'.2
                rw [adoptRoundChangeValue_eq hv hvalue hquorum hpair]
                rcases htakes'.1 with hreached | hmoved
                · left
                  refine ⟨BftConsensus.provable_of_quorum hfiled hpower hpair ?_ hfiledQuorum,
                    hfits, hpending⟩
                  exact hreached.trans_eq hcore.round.symm
                · exact .inr ⟨hmoved, rfl, hfiled, hpower,
                    ⟨_, _, hpair, (checkRoundChangeValue_eq_ok hvalue).1, hfiledQuorum⟩, hfits⟩
              · have hsame : (rt.consensus.adoptValidValue v.block.hash v.validRound v.prevotes).1 =
                    rt.consensus := by
                  unfold BftConsensus.adoptValidValue
                  rw [hquorum]
                  dsimp only
                  rw [if_neg hnewer]
                by_cases hpair : rt.consensus.validPair = some (v.block.hash, v.validRound)
                · rw [adoptRoundChangeValue_eq hv hvalue hquorum (by rw [hsame, hpair])]
                  refine .inl ⟨?_, hfits, hpending⟩
                  unfold adopting
                  rw [hsame]
                  refine ⟨h.provable.filed, h.provable.power, h.provable.reached, ?_⟩
                  intro x vr hx _
                  cases hpair.symm.trans hx
                  refine ((htakes' hpair).cases h.provable.filed).imp ?_ fun h => h
                  exact fun hnil => h.provable.filed.prevoteCertificate_eq_nil.1 hnil
                · unfold ConsensusRuntime.adoptRoundChangeValue BftConsensus.adoptValidValue
                  rw [hv]
                  dsimp only
                  rw [hvalue, hquorum]
                  dsimp only
                  rw [if_neg hnewer]
                  dsimp only
                  rw [if_neg hpair]
                  exact .inl h

/-- Filing a round change changes nothing that a timeout reads. -/
theorem filed_ground (rt : ConsensusRuntime) (m : SignedRoundChange) :
    SameGround rt (rt.recordRoundChange m).pruneRoundChanges ∧
      (rt.recordRoundChange m).pruneRoundChanges.consensus = rt.consensus ∧
      (rt.recordRoundChange m).pruneRoundChanges.validBlock = rt.validBlock ∧
      (rt.recordRoundChange m).pruneRoundChanges.pending = rt.pending := by
  unfold pruneRoundChanges
  split_ifs
  · split
    · exact ⟨⟨rfl, rfl, fun _ _ => rfl⟩, rfl, rfl, rfl⟩
    · exact ⟨⟨rfl, rfl, fun _ _ => rfl⟩, rfl, rfl, rfl⟩
  · exact ⟨⟨rfl, rfl, fun _ _ => rfl⟩, rfl, rfl, rfl⟩

/-- A later round of the height keeps the valid block and drops the candidate. -/
theorem jumpToRound_ground (rt : ConsensusRuntime) (env : Env) {target : ℕ}
    (hlt : rt.consensus.round < target) :
    SameGround rt (rt.jumpToRound env rt.consensus.height target).1 ∧
      (rt.jumpToRound env rt.consensus.height target).1.consensus =
        rt.consensus.enterRound rt.consensus.height target ∧
      (rt.jumpToRound env rt.consensus.height target).1.validBlock = rt.validBlock ∧
      (rt.jumpToRound env rt.consensus.height target).1.pending = none ∧
      (rt.jumpToRound env rt.consensus.height target).2 = .ok true := by
  unfold jumpToRound
  rw [BftConsensus.startRound_of_le (.inr ⟨rfl, hlt.le⟩)]
  exact ⟨⟨rfl, rfl, fun _ _ => rfl⟩, rfl, rfl, rfl, rfl⟩

theorem Replayable.jumpToRound (h : Replayable t rt) (env : Env) {target : ℕ}
    (hlt : rt.consensus.round < target) :
    Replayable t (rt.jumpToRound env rt.consensus.height target).1 := by
  obtain ⟨hground, hconsensus, hvalid, hpending, -⟩ := rt.jumpToRound_ground env hlt
  refine h.onGround hground ?_ (by rw [hvalid]; exact fun _ => .inl) (by simp [hpending])
  rw [hconsensus, hvalid]
  exact h.provable.enterRound hlt

theorem Overtaken.onGround {round : ℕ} (h : Overtaken t round rt) (hground : SameGround rt rt')
    (hconsensus : rt'.consensus = rt.consensus) (hvalid : rt'.validBlock = rt.validBlock) :
    Overtaken t round rt' where
  filed := hconsensus ▸ h.filed
  power := hconsensus ▸ h.power
  value := hconsensus ▸ h.value
  validFits b hb := hground.fitting (h.validFits b (hvalid ▸ hb))

theorem Overtaken.jumpToRound {round : ℕ} (h : Overtaken t round rt) (env : Env) {target : ℕ}
    (hlt : rt.consensus.round < target) (hle : round ≤ target) :
    Replayable t (rt.jumpToRound env rt.consensus.height target).1 := by
  obtain ⟨hground, hconsensus, hvalid, hpending, -⟩ := rt.jumpToRound_ground env hlt
  obtain ⟨x, vr, hpair, hvr, hquorum⟩ := h.value
  refine ⟨?_, fun b hb => hground.fitting (h.validFits b (hvalid ▸ hb)), by simp [hpending]⟩
  have hkept : (rt.consensus.enterRound rt.consensus.height target).validPair = some (x, vr) := by
    rw [← hpair]
    simp [BftConsensus.enterRound, BftConsensus.validPair]
  rw [hconsensus]
  exact BftConsensus.provable_of_quorum (h.filed.congr rfl rfl rfl rfl (.inl rfl)) h.power hkept
    (hvr.trans hle) (hquorum.mono rfl rfl fun _ hid => hid)

theorem Replayable.receiveRoundChange (h : Replayable t rt) {env : Env}
    (hclock : env.unixNow = some t) {m : SignedRoundChange} (htakes : rt.TakesProvable env m) :
    Replayable t (rt.receiveRoundChange env m).1 := by
  cases hcheck : rt.checkRoundChange m with
  | error e =>
      unfold ConsensusRuntime.receiveRoundChange
      rw [hcheck]
      exact h
  | ok u =>
      have hadopted := h.adoptRoundChangeValue hclock hcheck htakes
      obtain ⟨-, hstayed⟩ := rt.adoptRoundChangeValue_frame env m
      cases hadopt : rt.adoptRoundChangeValue env m with
      | mk rt₁ result =>
          rw [hadopt] at hadopted hstayed
          cases result with
          | error e =>
              unfold ConsensusRuntime.receiveRoundChange
              rw [hcheck, hadopt]
              exact hadopted.resolve_right fun ⟨_, herror, _⟩ => by cases herror
          | ok u =>
              have hheight := height_of_checkRoundChange hcheck
              obtain ⟨hground, hconsensus, hvalid, hpending⟩ := filed_ground rt₁ m
              have hready : Replayable t rt₁ →
                  Replayable t (rt₁.recordRoundChange m).pruneRoundChanges := by
                intro hrt₁
                refine hrt₁.onGround hground ?_ (by rw [hvalid]; exact fun _ => .inl)
                  (by rw [hpending]; exact fun _ => id)
                rw [hconsensus, hvalid]
                exact hrt₁.provable
              have hround : (rt₁.recordRoundChange m).pruneRoundChanges.consensus.round =
                  rt.consensus.round := by rw [hconsensus, hstayed.core.round]
              have hsame : m.height =
                  (rt₁.recordRoundChange m).pruneRoundChanges.consensus.height := by
                rw [hconsensus, hstayed.core.height, hheight]
              rcases receiveRoundChange_adopted hcheck hadopt with
                ⟨target, hcalled, hlt, hcase⟩ | ⟨hstill, hcase, -⟩
              · rw [hcase, hsame]
                rw [← hround] at hlt
                rcases hadopted with hrt₁ | ⟨-, -, hovertaken⟩
                · exact (hready hrt₁).jumpToRound env hlt
                · exact (hovertaken.onGround hground hconsensus hvalid).jumpToRound env hlt
                    (le_of_calledRound hcalled)
              · rw [hcase]
                exact hready (hadopted.resolve_right fun ⟨hmoved, _⟩ => hstill hmoved.2.2)

/-! ## The node's own round change -/

/-- The round change a node sends when it times out. -/
def ownRoundChange (rt : ConsensusRuntime) (signature : String) : SignedRoundChange :=
  { chainId := rt.chain.chainId, genesisCommitment := rt.chain.genesisCommitment
    height := rt.consensus.height, round := rt.consensus.round, validatorId := rt.validator
    validValue := rt.reportedValidValue, signature }

/-- Its own valid value is not news to the node. -/
theorem Replayable.takesProvable_own (h : Replayable t rt) (env : Env) (signature : String) :
    rt.TakesProvable env (rt.ownRoundChange signature) := by
  intro v hv _ _ _
  obtain ⟨hblock, hpair, -, -⟩ := reportedValidValue_eq_some hv
  have hround : rt.consensus.validRound = some v.validRound := by
    unfold BftConsensus.validPair at hpair
    split at hpair
    · cases hpair
      assumption
    · cases hpair
  rw [if_neg (by simp [hround])]
  intro _
  exact h.provable.onFile hpair (by rw [hblock]; rfl)

/-- The node accepts its own round change. -/
theorem Replayable.receiveRoundChange_own (h : Replayable t rt) {env : Env}
    (hclock : env.unixNow = some t) (hregistered : rt.isValidator rt.validator = true)
    (hround : rt.consensus.round < u32Max) {signature : String}
    (hverify : (rt.ownRoundChange signature).verify = .ok ()) :
    ∃ moved, (rt.receiveRoundChange env (rt.ownRoundChange signature)).2 = .ok moved := by
  have hcheck : rt.checkRoundChange (rt.ownRoundChange signature) = .ok () := by
    have hrange : ¬saturatingAdd u32Max rt.consensus.round maxFutureRoundDistance <
        rt.consensus.round := by
      unfold saturatingAdd
      omega
    simp only [checkRoundChange, check_bind_eq_ok, reject_eq_ok]
    exact ⟨hverify, by simp [ownRoundChange], by simp [ownRoundChange],
      by simpa [ownRoundChange] using hregistered, hrange⟩
  have hadopt : (rt.adoptRoundChangeValue env (rt.ownRoundChange signature)).2 = .ok () := by
    refine adoptRoundChangeValue_ok fun v hv => ?_
    obtain ⟨hblock, hpair, hprevotes, hne⟩ := reportedValidValue_eq_some hv
    have hfits := h.validFits _ hblock
    constructor
    · simp only [checkRoundChangeValue, check_bind_eq_ok, reject_eq_ok, not_lt, not_or, not_not]
      refine ⟨h.provable.validRound_le hpair, ⟨hfits.height, hfits.previousHash⟩, ?_⟩
      rw [hclock]
      exact hfits.valid
    · rw [hprevotes] at hne ⊢
      exact (h.provable.onFile hpair (by rw [hblock]; rfl)).resolve_left hne
  cases hadopted : rt.adoptRoundChangeValue env (rt.ownRoundChange signature) with
  | mk rt₁ result =>
      rw [hadopted] at hadopt
      cases hadopt
      obtain ⟨-, hstayed⟩ := rt.adoptRoundChangeValue_frame env (rt.ownRoundChange signature)
      rw [hadopted] at hstayed
      obtain ⟨-, hconsensus, -, -⟩ := filed_ground rt₁ (rt.ownRoundChange signature)
      rcases receiveRoundChange_adopted hcheck hadopted with
        ⟨target, -, hlt, hcase⟩ | ⟨-, -, hok⟩
      · have hsame : (rt.ownRoundChange signature).height =
            (rt₁.recordRoundChange (rt.ownRoundChange signature)).pruneRoundChanges.consensus.height := by
          rw [hconsensus, hstayed.core.height]
          rfl
        rw [hcase, hsame]
        refine ⟨true, (jumpToRound_ground _ env ?_).2.2.2.2⟩
        rw [hconsensus, hstayed.core.round]
        exact hlt
      · exact hok hround

/-- The node after its signer was asked for a round change. -/
def recordRoundChangeRequest (rt : ConsensusRuntime) : ConsensusRuntime :=
  rt.record (.roundChange rt.chain.chainId rt.chain.genesisCommitment rt.consensus.height
    rt.consensus.round)

/-- The steps of a timeout that is due. -/
theorem timeout_due {env : Env} {now : ℕ} (hdue : ¬(now < rt.deadline ∨ rt.consensus.phase = .finalized)) :
    rt.timeoutIfDueWithRoundChange env now =
      match env.sign (SignedPayload.bytes rt.validator (.roundChange rt.chain.chainId
          rt.chain.genesisCommitment rt.consensus.height rt.consensus.round)) with
      | .error e => (rt.recordRoundChangeRequest, .error e)
      | .ok signature =>
          match (rt.recordRoundChangeRequest.ownRoundChange signature).verify with
          | .error e => (rt.recordRoundChangeRequest, .error e)
          | .ok () =>
              match rt.recordRoundChangeRequest.receiveRoundChange env
                  (rt.recordRoundChangeRequest.ownRoundChange signature) with
              | (rt', .error e) => (rt', .error e)
              | (rt', .ok _) =>
                  rt'.leaveTimedOutRound now (rt.recordRoundChangeRequest.ownRoundChange signature) := by
  unfold timeoutIfDueWithRoundChange
  rw [if_neg hdue]
  unfold sign
  dsimp only
  cases env.sign _ with
  | error e => rfl
  | ok signature => rfl

theorem Replayable.leaveTimedOutRound (h : Replayable t rt) (now : ℕ) (m : SignedRoundChange) :
    Replayable t (rt.leaveTimedOutRound now m).1 := by
  have hleft : ∀ c deadline, c.height = rt.consensus.height →
      c.Provable (rt.validBlock.map (·.hash)) →
      Replayable t { ({ rt with consensus := c }.clearRound) with deadline } :=
    fun c deadline hheight hprovable => h.onGround ⟨hheight, rfl, fun _ _ => rfl⟩ hprovable
      (fun _ => .inl) (by simp [clearRound])
  unfold ConsensusRuntime.leaveTimedOutRound
  by_cases hround : rt.consensus.round = m.round
  · rw [if_pos hround]
    unfold BftConsensus.onTimeout
    cases hnext : checkedAdd u32Max rt.consensus.round 1 with
    | none => exact h
    | some next =>
        obtain ⟨rfl, -⟩ := checkedAdd_eq_some.1 hnext
        dsimp only
        rw [BftConsensus.startRound_of_le (.inr ⟨rfl, Nat.le_succ _⟩)]
        exact hleft _ _ rfl (h.provable.enterRound (Nat.lt_succ_self _))
  · rw [if_neg hround]
    exact hleft _ _ rfl h.provable

theorem Replayable.timeout (h : Replayable t rt) {env : Env} (hclock : env.unixNow = some t)
    (now : ℕ) : Replayable t (rt.timeoutIfDueWithRoundChange env now).1 := by
  by_cases hdue : now < rt.deadline ∨ rt.consensus.phase = .finalized
  · unfold timeoutIfDueWithRoundChange
    rw [if_pos hdue]
    exact h
  · have hrequest : Replayable t rt.recordRoundChangeRequest := h.record _
    rw [timeout_due hdue]
    cases env.sign _ with
    | error e => exact hrequest
    | ok signature =>
        dsimp only
        cases (rt.recordRoundChangeRequest.ownRoundChange signature).verify with
        | error e => exact hrequest
        | ok u =>
            have hreceived := hrequest.receiveRoundChange hclock
              (hrequest.takesProvable_own env signature)
            dsimp only
            generalize rt.recordRoundChangeRequest.receiveRoundChange env _ = received at hreceived
            obtain ⟨rt', result⟩ := received
            cases result with
            | error e => exact hreceived
            | ok moved => exact hreceived.leaveTimedOutRound now _

theorem Replayable.timeout_ok (h : Replayable t rt) {env : Env} (hclock : env.unixNow = some t)
    (hregistered : rt.isValidator rt.validator = true) (hsigner : rt.SignerWorks env)
    (hround : rt.consensus.round < u32Max) (now : ℕ) :
    ∃ result, (rt.timeoutIfDueWithRoundChange env now).2 = .ok result := by
  by_cases hdue : now < rt.deadline ∨ rt.consensus.phase = .finalized
  · unfold timeoutIfDueWithRoundChange
    rw [if_pos hdue]
    exact ⟨_, rfl⟩
  · have hrequest : Replayable t rt.recordRoundChangeRequest := h.record _
    obtain ⟨signature, hsign, hverify⟩ := hsigner (.roundChange rt.chain.chainId
      rt.chain.genesisCommitment rt.consensus.height rt.consensus.round)
    have hown : (rt.recordRoundChangeRequest.ownRoundChange signature).verify = .ok () := hverify
    obtain ⟨moved, hmoved⟩ := hrequest.receiveRoundChange_own hclock hregistered hround hown
    rw [timeout_due hdue, hsign]
    dsimp only
    rw [hown]
    generalize rt.recordRoundChangeRequest.receiveRoundChange env _ = received at hmoved
    obtain ⟨rt', result⟩ := received
    cases hmoved
    exact leaveTimedOutRound_ok rt' now hround

/-- A valid value of a round that the node has not reached makes it refuse its own message. -/
theorem timeout_error_of_future {env : Env} {now vr : ℕ} {b : Block}
    (hdue : ¬(now < rt.deadline ∨ rt.consensus.phase = .finalized))
    (hblock : rt.validBlock = some b) (hpair : rt.consensus.validPair = some (b.hash, vr))
    (hproof : rt.consensus.prevoteCertificate b.hash vr ≠ []) (hfuture : rt.consensus.round < vr) :
    ∃ e, (rt.timeoutIfDueWithRoundChange env now).2 = .error e := by
  have hreported : rt.reportedValidValue =
      some ⟨b, vr, rt.consensus.prevoteCertificate b.hash vr⟩ := by
    simp only [reportedValidValue, hblock, hpair, hproof, if_true, if_false]
  have hrefused : ∀ signature, ∃ e, rt.recordRoundChangeRequest.checkRoundChangeValue env
      (rt.recordRoundChangeRequest.ownRoundChange signature)
      ⟨b, vr, rt.consensus.prevoteCertificate b.hash vr⟩ = .error e := by
    intro signature
    have hlate : (rt.recordRoundChangeRequest.ownRoundChange signature).round < vr := hfuture
    exact ⟨_, by rw [checkRoundChangeValue, reject, if_pos hlate]; rfl⟩
  rw [timeout_due hdue]
  cases env.sign _ with
  | error e => exact ⟨e, rfl⟩
  | ok signature =>
      dsimp only
      cases (rt.recordRoundChangeRequest.ownRoundChange signature).verify with
      | error e => exact ⟨e, rfl⟩
      | ok u =>
          dsimp only
          unfold ConsensusRuntime.receiveRoundChange
          cases rt.recordRoundChangeRequest.checkRoundChange
              (rt.recordRoundChangeRequest.ownRoundChange signature) with
          | error e => exact ⟨e, rfl⟩
          | ok u =>
              obtain ⟨e, he⟩ := hrefused signature
              have hvalue : (rt.recordRoundChangeRequest.ownRoundChange signature).validValue =
                  some ⟨b, vr, rt.consensus.prevoteCertificate b.hash vr⟩ := hreported
              unfold ConsensusRuntime.adoptRoundChangeValue
              rw [hvalue]
              dsimp only
              rw [he]
              exact ⟨e, rfl⟩

/-! ## Runs -/

theorem replayableReplay (t : ℕ) (env : Env) :
    ReplayRule env (Replayable t) (fun _ _ => True) (fun _ _ => True) where
  receive _ v h _ := h.receiveVote env v
  keep _ _ _ _ _ _ := trivial
  keepSent _ _ _ _ _ _ := trivial
  reply _ _ _ _ _ _ := ⟨trivial, trivial⟩
  deferred _ _ _ _ := trivial
  store _ _ h _ := h.onGround ⟨rfl, rfl, fun _ _ => rfl⟩ h.provable (fun _ => .inl) fun _ => id
  storeKeep _ _ _ _ := trivial
  storeSent _ _ _ _ := trivial

theorem Replayable.run (h : Replayable t rt) {env : Env} (hclock : env.unixNow = some t)
    {call : Call} (hwithin : WithinHeight call) (hstays : StaysProvable env rt call) :
    Replayable t (rt.run env call).1 := by
  cases call with
  | receiveProposal p => exact h.receiveProposal hclock hstays
  | receiveVote vote => exact h.receiveVote env vote
  | deferVote vote =>
      simp only [ConsensusRuntime.run, deferVote]
      split_ifs
      · exact h
      · exact h.onGround ⟨rfl, rfl, fun _ _ => rfl⟩ h.provable (fun _ => .inl) fun _ => id
      · exact h.onGround ⟨rfl, rfl, fun _ _ => rfl⟩ h.provable (fun _ => .inl) fun _ => id
  | replayDeferredVotes => exact ((replayableReplay t env).replay h).1
  | receiveRoundChange m => exact h.receiveRoundChange hclock hstays
  | timeoutIfDueWithRoundChange now => exact h.timeout hclock now
  | _ => exact hwithin.elim

/-- A fresh machine has nothing to prove. -/
theorem replayable_prepared {validators : List Validator} (hstart : Prepared validators rt)
    (hpower : listedPower validators ≤ u64Max) (t : ℕ) : Replayable t rt := by
  obtain ⟨chain, self, timeouts, instant, base, _, _, _, _, _, hbase, rfl⟩ := hstart
  simp only [withSigner, bind_eq_ok, pure_eq_ok] at hbase
  obtain ⟨c, hnew, rfl⟩ := hbase
  simp only [BftConsensus.new, check_bind_eq_ok] at hnew
  simp only [bind_eq_ok, pure_eq_ok] at hnew
  obtain ⟨-, powers, hpowers, rfl⟩ := hnew
  have htotal : total powers ≤ u64Max := by
    have hsum := (BftConsensus.newLoop_spec hpowers).2.2.2.2.2
    have hempty : total (∅ : HashMap String ℕ) = 0 := rfl
    omega
  refine ⟨⟨⟨?_, ?_, ?_⟩, htotal, ?_, ?_⟩, by simp, by simp⟩
  · intro k m hm
    simp [BftConsensus.enterRound] at hm
  · intro k
    simp [BftConsensus.enterRound]
  · intro voteType x id hid
    simp [BftConsensus.enterRound, getD] at hid
  · intro x vr hx
    simp [BftConsensus.enterRound, BftConsensus.validPair] at hx
  · intro x vr hx
    simp [BftConsensus.enterRound, BftConsensus.validPair] at hx

theorem Replayable.timedRun {t₀ : ℕ} {rt₀ : ConsensusRuntime} (h : Replayable t₀ rt₀)
    (hrun : TimedRun StaysProvable t₀ rt₀ t rt) : Replayable t rt := by
  induction hrun with
  | refl => exact h
  | tail _ hclock hle hwithin hallowed ih => exact ((ih h).later hle).run hclock hwithin hallowed

/-- In every run of a registered validator whose messages leave it with a valid value it can
prove, a timeout succeeds in every state reached. -/
theorem timeout_ok_of_run {validators : List Validator} {rt₀ : ConsensusRuntime} {t₀ : ℕ}
    (hstart : Prepared validators rt₀) (hpower : listedPower validators ≤ u64Max)
    (hrun : TimedRun StaysProvable t₀ rt₀ t rt) {env : Env} (hclock : env.unixNow = some t')
    (hle : t ≤ t') (hregistered : rt.isValidator rt.validator = true)
    (hsigner : rt.SignerWorks env) (hround : rt.consensus.round < u32Max) (now : ℕ) :
    ∃ result, (rt.timeoutIfDueWithRoundChange env now).2 = .ok result := by
  have h := (replayable_prepared hstart hpower t₀).timedRun hrun
  exact (h.later hle).timeout_ok hclock hregistered hsigner hround now

end

end ConsensusRuntime

namespace Quartet

open ConsensusRuntime

local instance timeoutsCrypto : Crypto := StandIn.crypto StandIn.digest

def env : Env :=
  { unixNow := some 10, instant := 0, sign := fun bytes => .ok (StandIn.sign 1 bytes) }

def emptyBlock : Block := Block.new 1 chain.tipHash 5 (StandIn.address 1) []

def prevoteOf (round n : ℕ) : ConsensusMessage :=
  { height := 1, round, validatorId := StandIn.address n, voteType := .prevote
    blockHash := emptyBlock.hash
    signature := StandIn.sign n
      (ConsensusMessage.bytesToSign 1 round (StandIn.address n) .prevote emptyBlock.hash) }

def lockedValue (round : ℕ) : RoundChangeValidValue :=
  { block := emptyBlock, validRound := round, prevotes := [2, 3, 4].map (prevoteOf round) }

/-- The second validator gives up a round in which three of the four prevoted. -/
def gaveUp (round : ℕ) : SignedRoundChange :=
  { chainId := chain.chainId, genesisCommitment := chain.genesisCommitment, height := 1, round
    validatorId := StandIn.address 2, validValue := some (lockedValue round)
    signature := StandIn.sign 2 (SignedRoundChange.bytesToSign chain.chainId
      chain.genesisCommitment 1 round (StandIn.address 2)) }

section
variable {rt : ConsensusRuntime}

theorem prepared (h : started = .ok rt) : Prepared members rt :=
  ⟨chain, _, _, _, rt, _, _, _, _, _, h, rfl⟩

theorem validator_started (h : started = .ok rt) : rt.validator = StandIn.address 1 := by
  simp only [started, withSigner, bind_eq_ok, pure_eq_ok] at h
  obtain ⟨c, -, rfl⟩ := h
  rfl

theorem signerWorks (h : started = .ok rt) : rt.SignerWorks env := by
  intro payload
  rw [validator_started h]
  exact ⟨_, rfl, StandIn.verifySignature_sign _ 1 _⟩

/-- What is known of the machine of the fresh node. -/
theorem fresh_spec (h : started = .ok rt) :
    (rt.consensus.height = 1 ∧ rt.consensus.round = 0 ∧ rt.consensus.phase = .propose) ∧
      (rt.consensus.validRound = none ∧ rt.consensus.voteMessages = ∅) ∧ rt.deadline = 1 ∧
      rt.consensus.totalPower = 4 ∧
      ∀ n ∈ [1, 2, 3, 4], rt.consensus.validators.lookup (StandIn.address n) = some 1 := by
  simp only [started, withSigner, bind_eq_ok, pure_eq_ok] at h
  obtain ⟨c, hnew, rfl⟩ := h
  simp only [BftConsensus.new, check_bind_eq_ok] at hnew
  simp only [bind_eq_ok, pure_eq_ok] at hnew
  obtain ⟨-, powers, hpowers, rfl⟩ := hnew
  obtain ⟨-, -, -, hlookup, -, htotal⟩ := BftConsensus.newLoop_spec hpowers
  refine ⟨⟨rfl, rfl, rfl⟩, ⟨rfl, rfl⟩, rfl, ?_, fun n hn => ?_⟩
  · have hsum : (values powers).sum = 4 := htotal
    simp only [BftConsensus.enterRound, wrappingSum, hsum]
    rfl
  · exact hlookup ⟨StandIn.address n, 1⟩ (List.mem_map_of_mem hn)

theorem checkValidValue_locked (h : started = .ok rt) (round : ℕ) :
    rt.consensus.checkValidValue emptyBlock.hash round (lockedValue round).prevotes = .ok () := by
  obtain ⟨⟨hheight, -, -⟩, -, -, htotal, hlookup⟩ := fresh_spec h
  have hvotes : ∀ m ∈ (lockedValue round).prevotes, ∃ n ∈ [2, 3, 4], m = prevoteOf round n := by
    intro m hm
    obtain ⟨n, hn, rfl⟩ := List.mem_map.1 hm
    exact ⟨n, hn, rfl⟩
  have hpower : ∀ n ∈ [2, 3, 4], rt.consensus.validators.lookup (StandIn.address n) = some 1 :=
    fun n hn => hlookup n (List.mem_cons_of_mem _ hn)
  have hids : (lockedValue round).prevotes.map (·.validatorId) = [2, 3, 4].map StandIn.address := rfl
  have hnodup : ((lockedValue round).prevotes.map (·.validatorId)).Nodup := by
    rw [hids]
    exact nodup_addresses.of_cons
  have hlength : (lockedValue round).prevotes.length ≤ rt.consensus.validators.keys.length := by
    rw [← List.length_map (f := (·.validatorId))]
    refine (hnodup.subperm ?_).length_le
    intro id hid
    obtain ⟨m, hm, rfl⟩ := List.mem_map.1 hid
    obtain ⟨n, hn, rfl⟩ := hvotes m hm
    exact AList.mem_keys.1 (AList.lookup_isSome.1 (by simp [prevoteOf, hpower n hn]))
  have hsum : ((lockedValue round).prevotes.map
      fun m => getD rt.consensus.validators m.validatorId 0).sum = 3 := by
    simp [lockedValue, prevoteOf, getD, hpower]
  have hcount := fun mismatch unknown duplicate overflow => @VoteTally.count_complete _
    (rt.consensus.prevoteRule rt.consensus.height round emptyBlock.hash mismatch unknown duplicate
      overflow) (lockedValue round).prevotes (fun m hm => by
        obtain ⟨n, hn, rfl⟩ := hvotes m hm
        refine ⟨?_, StandIn.verifySignature_sign _ n _, ?_⟩
        · simp [BftConsensus.prevoteRule, votesFor, prevoteOf, hheight]
        · simp [BftConsensus.prevoteRule, prevoteOf, hpower n hn]) hnodup
      (hsum.trans_le (by decide : 3 ≤ u64Max))
  simp only [BftConsensus.checkValidValue, check_bind_eq_ok, reject_eq_ok, not_lt]
  refine ⟨hlength, ?_⟩
  simp only [bind_eq_ok, reject_eq_ok, not_not]
  refine ⟨_, hcount .., ?_⟩
  rw [htotal]
  exact hsum ▸ (by decide : BftConsensus.exceedsTwoThirds 3 4 = true)

/-- The round change is in order for the fresh node. -/
theorem checkRoundChange_gaveUp (h : started = .ok rt) {round : ℕ} (hround : round ≤ 1) :
    rt.checkRoundChange (gaveUp round) = .ok () := by
  obtain ⟨hchain, hvalidators, -, -, -⟩ := started_spec h
  obtain ⟨⟨hheight, hfirst, -⟩, -, -, -, -⟩ := fresh_spec h
  have hverify : (gaveUp round).verify = .ok () := StandIn.verifySignature_sign _ 2 _
  have hnear : 1 ≤ saturatingAdd u32Max 0 maxFutureRoundDistance := by decide
  simp only [ConsensusRuntime.checkRoundChange, check_bind_eq_ok, reject_eq_ok, hverify, hchain,
    hheight, hfirst, not_lt, not_not]
  refine ⟨trivial, by simp [gaveUp], rfl, ?_, hround.trans hnear⟩
  simp [ConsensusRuntime.isValidator, hvalidators, members, gaveUp]

theorem checkRoundChangeValue_gaveUp (h : started = .ok rt) (round : ℕ) :
    rt.checkRoundChangeValue env (gaveUp round) (lockedValue round) = .ok () := by
  obtain ⟨hchain, -, hschedule, hupgrades, -⟩ := started_spec h
  have hvalid : rt.validateScheduledBlock (some 10) emptyBlock = .ok () := by
    refine ConsensusRuntime.validateScheduledBlock_eq_ok.2 ⟨?_, 10, rfl, ?_, ?_, ?_, ?_, ?_⟩
    · rw [hchain]
      exact Nat.zero_le _
    · have hdrift : 5 ≤ saturatingAdd u64Max 10 maxClockDriftSeconds := by decide
      exact hdrift
    · simp [emptyBlock, Block.new, Block.sealed]
    · intro tx htx
      cases htx
    · rw [EventSchedule.due, hschedule]
      rfl
    · intro e he
      cases he
  simp only [ConsensusRuntime.checkRoundChangeValue, check_bind_eq_ok, reject_eq_ok, hchain]
  exact ⟨lt_irrefl _, by simp [gaveUp, lockedValue, emptyBlock, Block.new, Block.sealed], hvalid⟩

/-- One voice of four calls for no round. -/
theorem calledRound_gaveUp (h : started = .ok rt) {round : ℕ} (hround : round ≤ 1) :
    (rt.recordRoundChange (gaveUp round)).calledRound 1 round = none := by
  have hcalled : ∀ n ∈ [0, 1], (started.toOption.map fun rt =>
      (rt.recordRoundChange (gaveUp n)).calledRound 1 n) = some none := by decide
  have hone := hcalled round (by interval_cases round <;> simp)
  rw [h] at hone
  exact Option.some.inj hone

theorem power_members : listedPower members ≤ u64Max := by
  have hfour : listedPower members = 4 := rfl
  rw [hfour]
  decide

theorem adopting_locked (h : started = .ok rt) (round : ℕ) :
    (rt.adopting (lockedValue round)).consensus.validPair = some (emptyBlock.hash, round) ∧
      (rt.adopting (lockedValue round)).consensus.prevoteCertificate emptyBlock.hash round ≠ [] := by
  obtain ⟨-, ⟨hvalid, hmessages⟩, -, -, -⟩ := fresh_spec h
  have hnone : rt.consensus.validRound.all (· < round) = true := by rw [hvalid]; rfl
  have hreplayable := replayable_prepared (prepared h) power_members 0
  obtain ⟨hfiled, -, hpair, ids, hids, hexceeds⟩ :=
    @Replayable.adopting_newer _ _ _ hreplayable (lockedValue round)
      (checkValidValue_locked h round) hnone fun _ vote _ filed hlookup => by
        rw [hmessages] at hlookup
        cases hlookup
  refine ⟨hpair, ?_⟩
  have hnonempty : ids.Nonempty := by
    rw [Finset.nonempty_iff_ne_empty]
    rintro rfl
    rw [Finset.sum_empty, BftConsensus.exceedsTwoThirds, decide_eq_true_eq] at hexceeds
    exact absurd hexceeds (Nat.not_lt.2 (Nat.zero_le _))
  obtain ⟨id, hid⟩ := hnonempty
  obtain ⟨m, hm, -⟩ := hfiled.exists_mem (hids id hid)
  exact List.ne_nil_of_mem hm

/-- The fresh node takes over the value and stays where it is. -/
theorem receiveRoundChange_gaveUp (h : started = .ok rt) {round : ℕ} (hround : round ≤ 1) :
    (rt.run env (.receiveRoundChange (gaveUp round))).1 =
      ((rt.adopting (lockedValue round)).recordRoundChange (gaveUp round)).pruneRoundChanges := by
  have hadopt := adoptRoundChangeValue_eq rfl (checkRoundChangeValue_gaveUp h round)
    (checkValidValue_locked h round) (adopting_locked h round).1
  rcases receiveRoundChange_adopted (checkRoundChange_gaveUp h hround) hadopt with
    ⟨target, hcalled, -⟩ | ⟨-, hstayed, -⟩
  · have hnone : (rt.recordRoundChange (gaveUp round)).calledRound 1 round = some target := hcalled
    rw [calledRound_gaveUp h hround] at hnone
    cases hnone
  · exact hstayed

/-- What a timeout reads of the node afterwards. -/
theorem state_gaveUp (h : started = .ok rt) {round : ℕ} (hround : round ≤ 1)
    {rt' : ConsensusRuntime} (hrt' : rt' = (rt.run env (.receiveRoundChange (gaveUp round))).1) :
    rt'.consensus = (rt.adopting (lockedValue round)).consensus ∧
      rt'.validBlock = some emptyBlock ∧ rt'.deadline = 1 ∧
      rt'.isValidator rt'.validator = true ∧ rt'.SignerWorks env := by
  rw [receiveRoundChange_gaveUp h hround] at hrt'
  obtain ⟨-, hmachine, hblock, -⟩ := filed_ground (rt.adopting (lockedValue round)) (gaveUp round)
  have hframe := (frame_pruneRoundChanges
    ((rt.adopting (lockedValue round)).recordRoundChange (gaveUp round))).1
  have hvalidator : rt'.validator = rt.validator := by rw [hrt']; exact hframe.validator
  have hvalidators : rt'.validators = rt.validators := by rw [hrt']; exact hframe.validators
  have hself := validator_started h
  have hworks := signerWorks h
  refine ⟨hrt' ▸ hmachine, hrt' ▸ hblock, ?_, ?_, ?_⟩
  · rw [hrt', ← (fresh_spec h).2.2.1, pruneRoundChanges]
    split_ifs
    · split <;> rfl
    · rfl
  · rw [isValidator, hvalidator, hvalidators, (started_spec h).2.1]
    simp [members, hself]
  · unfold SignerWorks
    rw [hvalidator]
    exact hworks

end

/-- A round change of round 1 leaves a node in round 0 with a valid value of round 1, and it
then refuses its own round change. -/
theorem timeout_refuses_own : ∃ rt₀ rt e, Prepared members rt₀ ∧
    TimedRun (fun _ _ _ => True) 0 rt₀ 10 rt ∧ rt.isValidator rt.validator = true ∧
    rt.SignerWorks env ∧ rt.consensus.round < u32Max ∧
    (rt.timeoutIfDueWithRoundChange env 1).2 = .error e := by
  obtain ⟨rt, h⟩ := started_ok
  obtain ⟨hmachine, hblock, hdeadline, hmember, hworks⟩ := state_gaveUp h (le_refl 1) rfl
  obtain ⟨⟨-, hround, hphase⟩, -, -, -, -⟩ := fresh_spec h
  obtain ⟨hpair, hproof⟩ := adopting_locked h 1
  have hcore := rt.consensus.sameCore_adoptValidValue emptyBlock.hash 1 (lockedValue 1).prevotes
  have hfirst : (rt.run env (.receiveRoundChange (gaveUp 1))).1.consensus.round = 0 := by
    rw [hmachine, ← hround]
    exact hcore.round
  obtain ⟨e, he⟩ := @timeout_error_of_future _ (rt.run env (.receiveRoundChange (gaveUp 1))).1 env
    1 1 emptyBlock (by
      rw [hdeadline, hmachine, show (rt.adopting (lockedValue 1)).consensus.phase = .propose from
        hcore.phase.trans hphase]
      decide) hblock (by rw [hmachine]; exact hpair) (by rw [hmachine]; exact hproof)
    (by rw [hfirst]; decide)
  have hrun : TimedRun (fun _ _ _ => True) 0 rt 10 (rt.run env (.receiveRoundChange (gaveUp 1))).1 :=
    .tail (.refl 0 rt) rfl (by decide) trivial trivial
  refine ⟨rt, _, e, prepared h, hrun, hmember, hworks, ?_, he⟩
  rw [hfirst]
  decide

/-- The value of the node's own round can be proved again. -/
theorem timeout_ok_of_run_gaveUp : ∃ rt₀ rt result, Prepared members rt₀ ∧
    TimedRun StaysProvable 0 rt₀ 10 rt ∧ rt.consensus.validPair = some (emptyBlock.hash, 0) ∧
    (rt.timeoutIfDueWithRoundChange env 1).2 = .ok result := by
  obtain ⟨rt, h⟩ := started_ok
  obtain ⟨hmachine, -, -, hmember, hworks⟩ := state_gaveUp h (Nat.zero_le 1) rfl
  obtain ⟨⟨-, hround, -⟩, ⟨hvalid, hmessages⟩, -, -, -⟩ := fresh_spec h
  have hcore := rt.consensus.sameCore_adoptValidValue emptyBlock.hash 0 (lockedValue 0).prevotes
  have hstays : StaysProvable env rt (.receiveRoundChange (gaveUp 0)) := by
    intro v hv _ _ _
    cases hv
    rw [if_pos (by rw [hvalid]; rfl)]
    refine ⟨.inl (Nat.zero_le _), ?_⟩
    intro _ vote _ filed hlookup
    rw [hmessages] at hlookup
    cases hlookup
  have hrun : TimedRun StaysProvable 0 rt 10 (rt.run env (.receiveRoundChange (gaveUp 0))).1 :=
    .tail (.refl 0 rt) rfl (by decide) trivial hstays
  obtain ⟨result, hresult⟩ := timeout_ok_of_run (prepared h) power_members hrun
    (by rfl : env.unixNow = some 10) (le_refl 10) hmember hworks (by
      rw [hmachine, show (rt.adopting (lockedValue 0)).consensus.round = 0 from
        hcore.round.trans hround]
      decide) 1
  refine ⟨rt, _, result, prepared h, hrun, ?_, hresult⟩
  rw [hmachine]
  exact (adopting_locked h 0).1

end Quartet

end IeumChain
