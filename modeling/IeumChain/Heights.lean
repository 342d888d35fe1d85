import IeumChain.Equivocation
import IeumChain.Replay

/-!
# Height of the round and height of the chain

Between two calls the machine works on the block after the tip, or has just finalized
the tip and waits to be sent on. Three calls can break this: certificates of which one
is refused after another was applied, blocks applied without certificates, and a round
left while the node still waits to be sent on.
-/
namespace IeumChain

open Outcome MachineWords FiniteMap

namespace ConsensusRuntime

/-- The public operations on a node. -/
inductive Operation
  | call (call : Call)
  | timeoutIfDue (now : ℕ)
  | forceTimeoutForTest
  | applySyncBatch (blocks : List Block)
  | importCertificateHistory (certificates : List FinalityCertificate)
  | installCertifiedSnapshot (snapshot : StateSnapshot) (certificate : SnapshotCertificate)
  | replaceBootstrapValidators (validators : List Validator)
  | configure (eventSchedule : EventSchedule) (validatorInterestPolicy : ValidatorInterest.Policy)
      (holderRewardPolicy : HolderRewards.Policy) (upgradeSchedule : UpgradeSchedule)
      (validatorPeerIds : Finset String)

/-- The block was applied and the node has not been sent on to the next height. -/
def AdvanceDue (rt : ConsensusRuntime) : Prop :=
  rt.consensus.phase = .finalized ∧ rt.consensus.height = rt.chain.tipHeight

def FollowsChain (rt : ConsensusRuntime) : Prop :=
  rt.consensus.height = rt.chain.tipHeight + 1 ∨ rt.AdvanceDue

section
variable [Crypto]

/-- The node after an operation, whether it succeeded or failed. -/
def perform (rt : ConsensusRuntime) (env : Env) : Operation → ConsensusRuntime
  | .call call => (rt.run env call).1
  | .timeoutIfDue now => (rt.timeoutIfDue env now).1
  | .forceTimeoutForTest => rt.forceTimeoutForTest.1
  | .applySyncBatch blocks => (applySyncBatch env blocks rt 0).1
  | .importCertificateHistory certificates => (rt.importCertificateHistory certificates).1
  | .installCertifiedSnapshot snapshot certificate =>
      (rt.installCertifiedSnapshot env snapshot certificate).1
  | .replaceBootstrapValidators validators => (rt.replaceBootstrapValidators env validators).1
  | .configure eventSchedule validatorInterestPolicy holderRewardPolicy upgradeSchedule peerIds =>
      { rt with
        eventSchedule, validatorInterestPolicy, holderRewardPolicy, upgradeSchedule
        validatorPeerIds := peerIds }

/-- Any sequence of operations each of which satisfies a condition in the state it meets. -/
def Operated (allowed : Env → ConsensusRuntime → Operation → Prop) :
    ConsensusRuntime → ConsensusRuntime → Prop :=
  Relation.ReflTransGen fun rt rt' => ∃ env op, allowed env rt op ∧ rt.perform env op = rt'

/-- As `Operated`, with the states in the middle of a replay, which has the deferred votes in
its hands while it gives them to `receiveVote` one by one. -/
def Reached (allowed : Env → ConsensusRuntime → Operation → Prop) :
    ConsensusRuntime → ConsensusRuntime → Prop :=
  Relation.ReflTransGen fun rt rt' => (∃ env op, allowed env rt op ∧ rt.perform env op = rt') ∨
    ∃ votes, { rt with deferredVotes := votes } = rt'

theorem reached_call {allowed : Env → ConsensusRuntime → Operation → Prop}
    {rt rt' : ConsensusRuntime} {env : Env} {call : Call} (hallowed : allowed env rt (.call call))
    (h : (rt.run env call).1 = rt') : Reached allowed rt rt' :=
  .single (.inl ⟨env, .call call, hallowed, h⟩)

/-! ## When an operation keeps the two heights together -/

/-- What a certificate must pass on top of a chain: a known height agrees with the chain, and
the next one is valid and executable. -/
def Acceptable (rt : ConsensusRuntime) (env : Env) (chain : Blockchain) (c : FinalityCertificate) :
    Prop :=
  c.verify rt.validators = .ok () ∧
    if c.block.height ≤ chain.tipHeight then
      ∃ known, chain.blockByHeight c.block.height = some known ∧ known.hash = c.block.hash
    else
      c.block.height = chain.tipHeight + 1 ∧
        { rt with chain }.validateScheduledBlock env.unixNow c.block = .ok () ∧
        ∃ extended, chain.applyBlock c.block = .ok extended

/-- Every certificate is acceptable on the chain that those before it lead to. -/
def Complete (rt : ConsensusRuntime) (env : Env) : Blockchain → List FinalityCertificate → Prop
  | _, [] => True
  | chain, c :: rest => rt.Acceptable env chain c ∧ Complete rt env (chain.offer c.block) rest

/-- The first certificate above the tip is refused, or everything from it on is acceptable. -/
def AllOrNothing (rt : ConsensusRuntime) (env : Env) : List FinalityCertificate → Prop
  | [] => True
  | c :: rest =>
      rt.Acceptable env rt.chain c →
        if c.block.height ≤ rt.chain.tipHeight then AllOrNothing rt env rest
        else rt.Complete env (rt.chain.offer c.block) rest

/-- The first block above the tip would be applied. -/
def BringsBlock (rt : ConsensusRuntime) (env : Env) (blocks : List Block) : Prop :=
  ∃ block, blocks.find? (fun b => rt.chain.tipHeight < b.height) = some block ∧
    rt.validateScheduledBlock env.unixNow block = .ok () ∧
    ∃ extended, rt.chain.applyBlock block = .ok extended

/-- The round that the round changes filed for a round call for, if they have the power. -/
def calledRound (rt : ConsensusRuntime) (height round : ℕ) : Option ℕ :=
  let signedPower := rt.roundChangePower height round
  let totalPower := wrappingSum u64Max (rt.validators.map (·.votingPower))
  if totalPower < saturatingMul u64Max signedPower 3 then
    if saturatingMul u64Max totalPower 2 < saturatingMul u64Max signedPower 3 then
      checkedAdd u32Max round 1
    else some round
  else none

/-- The round change is in order, its valid value too, and with it a later round is called
for. -/
def MovedBy (rt : ConsensusRuntime) (env : Env) (m : SignedRoundChange) : Prop :=
  rt.checkRoundChange m = .ok () ∧
    (∀ valid, m.validValue = some valid → rt.checkRoundChangeValue env m valid = .ok () ∧
      rt.consensus.checkValidValue valid.block.hash valid.validRound valid.prevotes = .ok ()) ∧
    ∃ target, (rt.recordRoundChange m).calledRound m.height m.round = some target ∧
      rt.consensus.round < target

/-- Certificates are applied as a whole or not at all, blocks come with certificates, and a
node that waits to be sent on does not leave its round. -/
def InStep (env : Env) (rt : ConsensusRuntime) : Operation → Prop
  | .call (.applySyncCertificates certificates) => rt.AllOrNothing env certificates
  | .call (.receiveRoundChange m) => rt.AdvanceDue → ¬rt.MovedBy env m
  | .forceTimeoutForTest => rt.AdvanceDue → u32Max ≤ rt.consensus.round
  | .applySyncBatch blocks => ¬rt.BringsBlock env blocks
  | _ => True

end

/-! ## The invariant -/

/-- The heights are together, and the candidate is for the height of the round. -/
structure Level (rt : ConsensusRuntime) : Prop where
  follows : rt.FollowsChain
  pendingHeight : ∀ b, rt.pending = some b → b.height = rt.consensus.height

section
variable {rt rt' : ConsensusRuntime}

theorem Level.height_le (h : Level rt) : rt.consensus.height ≤ rt.chain.tipHeight + 1 := by
  rcases h.follows with hheight | ⟨-, hheight⟩ <;> omega

theorem Level.height_eq (h : Level rt) (hphase : rt.consensus.phase ≠ .finalized) :
    rt.consensus.height = rt.chain.tipHeight + 1 :=
  h.follows.resolve_right fun hdue => hphase hdue.1

/-- The round and the tip are as before. -/
theorem Level.sameCore (h : Level rt) (hcore : rt.consensus.SameCore rt'.consensus)
    (hpending : ∀ b, rt'.pending = some b → rt.pending = some b)
    (htip : rt'.chain.tipHeight = rt.chain.tipHeight) : Level rt' where
  follows := by
    unfold FollowsChain AdvanceDue
    rw [hcore.height, hcore.phase, htip]
    exact h.follows
  pendingHeight b hb := by
    rw [hcore.height]
    exact h.pendingHeight b (hpending b hb)

theorem Level.stayed {new : List ConsensusMessage} (h : Level rt) (hframe : Frame new rt rt')
    (hstayed : Stayed rt rt') : Level rt' := by
  refine h.sameCore hstayed.core ?_ (by rw [hframe.chain])
  rw [hstayed.pending]
  exact fun _ => id

/-- A round of the height after the tip was entered. -/
theorem Level.entered {c : BftConsensus} {height round : ℕ}
    (hconsensus : rt.consensus = c.enterRound height round) (hpending : rt.pending = none)
    (hheight : height = rt.chain.tipHeight + 1) : Level rt := by
  refine ⟨.inl ?_, by simp [hpending]⟩
  rw [hconsensus, ← hheight]
  rfl

/-- A later round of the height, unless the node waits to be sent on. -/
theorem Level.jumped {new : List ConsensusMessage} (h : Level rt) (hframe : Frame new rt rt')
    (hjumped : Jumped rt rt') (hdue : ¬rt.AdvanceDue) : Level rt' := by
  obtain ⟨c, target, -, -, hconsensus, hpending, -⟩ := hjumped
  refine .entered hconsensus hpending ?_
  rw [hframe.chain]
  exact h.follows.resolve_right hdue

theorem Level.record (h : Level rt) (payload : SignedPayload) : Level (rt.record payload) :=
  h.sameCore (.refl _) (fun _ => id) rfl

/-- The next height is always open to a node that is level with its chain or behind it. -/
theorem level_openNextHeight (env : Env) (hbehind : rt.consensus.height ≤ rt.chain.tipHeight) :
    Level (rt.openNextHeight env).1 := by
  unfold openNextHeight
  rw [BftConsensus.startRound_of_le (.inl (Nat.lt_succ_of_le hbehind))]
  exact .entered rfl rfl rfl

theorem Level.advanceAfterFinalization (h : Level rt) (env : Env) :
    Level (rt.advanceAfterFinalization env).1 := by
  rcases rt.advanceAfterFinalization_cases env with hcase | ⟨-, hcase⟩
  · rw [hcase]
    exact h
  · rw [hcase]
    rcases (rt.openNextHeight_cases env).2 with hrefused | ⟨-, hconsensus, hpending, -⟩
    · rw [hrefused]
      exact h
    · refine .entered hconsensus hpending ?_
      rw [(rt.openNextHeight_cases env).1.chain]

theorem Level.forceTimeoutForTest (h : Level rt)
    (hdue : rt.AdvanceDue → u32Max ≤ rt.consensus.round) : Level rt.forceTimeoutForTest.1 := by
  unfold ConsensusRuntime.forceTimeoutForTest BftConsensus.onTimeout
  cases hnext : checkedAdd u32Max rt.consensus.round 1 with
  | none => exact h.sameCore (.refl _) (by simp) rfl
  | some next =>
      obtain ⟨rfl, hle⟩ := checkedAdd_eq_some.1 hnext
      dsimp only
      rw [BftConsensus.startRound_of_le (.inr ⟨rfl, Nat.le_succ _⟩)]
      refine .entered rfl rfl (h.follows.resolve_right fun hwaits => ?_)
      have := hdue hwaits
      omega

theorem Level.replaceBootstrapValidators (h : Level rt) (env : Env) (validators : List Validator) :
    Level (rt.replaceBootstrapValidators env validators).1 := by
  rcases rt.replaceBootstrapValidators_cases env validators with hcase | ⟨htip, -, c, -, hcase⟩
  · rw [hcase]
    exact h
  · rw [hcase]
    exact .entered rfl rfl (congrArg (· + 1) htip.symm)

/-- Counting a vote ends in the finalized phase only from the height after the tip. -/
theorem Level.counted (h : Level rt) (env : Env) {vote : ConsensusMessage} {c₁ : BftConsensus}
    (hcore : rt.consensus.SameCore c₁) :
    Level (rt.counted env vote ((c₁.addVote vote).advancePhase vote)) := by
  obtain ⟨hframe, hconsensus, hpending⟩ :=
    frame_counted rt env vote ((c₁.addVote vote).advancePhase vote)
  generalize rt.counted env vote ((c₁.addVote vote).advancePhase vote) = counted at *
  have hheight : counted.consensus.height = rt.consensus.height := by
    rw [hconsensus, ← hcore.height]
    exact ((c₁.addVote vote).sameRound_advancePhase vote).height
  have hphase : rt.consensus.phase = .finalized → counted.consensus.phase = .finalized := by
    intro hfinalized
    rw [← hcore.phase] at hfinalized
    rw [hconsensus]
    rcases (c₁.addVote vote).advancePhase_cases vote with h | ⟨-, hprevote, -, -⟩ | ⟨-, -, -, h⟩
    · rw [h]
      exact hfinalized
    · cases hfinalized.symm.trans hprevote
    · rw [h]
  refine ⟨?_, fun b hb => ?_⟩
  · unfold FollowsChain AdvanceDue
    rw [hheight, hframe.chain]
    exact h.follows.imp id fun hdue => ⟨hphase hdue.1, hdue.2⟩
  · rw [hheight]
    exact h.pendingHeight b (hpending ▸ hb)

section
variable [Crypto]

theorem Level.receiveProposal (h : Level rt) (env : Env) (p : SignedProposal) :
    Level (rt.receiveProposal env p).1 := by
  rcases rt.receiveProposal_cases env p with ⟨c', e, hcore, hcase⟩ | ⟨-, hcheck, hphase, hcase⟩
  · rw [hcase]
    exact h.sameCore hcore (fun _ => id) rfl
  · rw [hcase]
    have hcore := rt.consensus.sameCore_noteValidRound p
    have hheight : (rt.accepted p).height = rt.consensus.height := hcore.height
    obtain ⟨-, -, hblock, -⟩ := BftConsensus.checkProposal_eq_ok hcheck
    refine .record ⟨.inl ?_, ?_⟩ _
    · exact hheight.trans (h.height_eq (by simp [hphase]))
    · rintro b ⟨⟩
      exact hblock.trans hheight.symm

theorem Level.afterVote (h : Level rt) (env : Env) : Level (rt.afterVote env).1 := by
  rcases rt.afterVote_cases env with hcase | ⟨b, -, -, hcase⟩ | ⟨b, -, -, hcase⟩ |
    ⟨b, chain, hphase, hpending, -, -, happly, hcase⟩
  · rw [hcase]
    exact h
  · rw [hcase]
    exact h.record _
  · rw [hcase]
    exact h.sameCore (.refl _) (by simp) rfl
  · rw [hcase]
    have hheight := h.pendingHeight b hpending
    have hnext := (Blockchain.applyBlock_eq_ok.1 happly).1
    have htip := Blockchain.tipHeight_applyBlock happly
    refine ⟨.inr ⟨hphase, ?_⟩, by simp⟩
    dsimp only
    omega

theorem Level.receiveVote (h : Level rt) (env : Env) (vote : ConsensusMessage) :
    Level (rt.receiveVote env vote).1 := by
  rcases rt.receiveVote_cases env vote with ⟨c', e, hcore, hcase⟩ | ⟨-, -, c₁, hcore, hcase⟩
  · rw [hcase]
    exact h.sameCore hcore (fun _ => id) rfl
  · rw [hcase]
    exact (h.counted env hcore).afterVote env

theorem levelReplay (env : Env) :
    ReplayRule env Level (fun _ _ => True) (fun _ _ => True) where
  receive _ v h _ := h.receiveVote env v
  keep _ _ _ _ _ _ := trivial
  keepSent _ _ _ _ _ _ := trivial
  reply _ _ _ _ _ _ := ⟨trivial, trivial⟩
  deferred _ _ _ _ := trivial
  store _ _ h _ := h.sameCore (.refl _) (fun _ => id) rfl
  storeKeep _ _ _ _ := trivial
  storeSent _ _ _ _ := trivial

/-! ## Round changes -/

theorem roundChangeVotes_adoptRoundChangeValue (rt : ConsensusRuntime) (env : Env)
    (m : SignedRoundChange) :
    (rt.adoptRoundChangeValue env m).1.roundChangeVotes = rt.roundChangeVotes := by
  unfold adoptRoundChangeValue
  split
  · rfl
  · split
    · rfl
    · split
      · rfl
      · dsimp only
        split_ifs <;> rfl

/-- A carried value that is adopted without error has passed its checks. -/
theorem checked_of_adoptRoundChangeValue {rt : ConsensusRuntime} {env : Env} {m : SignedRoundChange}
    (h : (rt.adoptRoundChangeValue env m).2 = .ok ()) {valid : RoundChangeValidValue}
    (hvalid : m.validValue = some valid) :
    rt.checkRoundChangeValue env m valid = .ok () ∧
      rt.consensus.checkValidValue valid.block.hash valid.validRound valid.prevotes = .ok () := by
  unfold adoptRoundChangeValue at h
  rw [hvalid] at h
  dsimp only at h
  cases hcheck : rt.checkRoundChangeValue env m valid with
  | error e =>
      rw [hcheck] at h
      cases h
  | ok u =>
      refine ⟨rfl, ?_⟩
      rw [hcheck] at h
      unfold BftConsensus.adoptValidValue at h
      cases hquorum : rt.consensus.checkValidValue valid.block.hash valid.validRound
          valid.prevotes with
      | error e =>
          rw [hquorum] at h
          cases h
      | ok u => rfl

/-- A value that passes its checks is adopted without error. -/
theorem adoptRoundChangeValue_ok {rt : ConsensusRuntime} {env : Env} {m : SignedRoundChange}
    (h : ∀ valid, m.validValue = some valid → rt.checkRoundChangeValue env m valid = .ok () ∧
      rt.consensus.checkValidValue valid.block.hash valid.validRound valid.prevotes = .ok ()) :
    (rt.adoptRoundChangeValue env m).2 = .ok () := by
  unfold adoptRoundChangeValue
  cases hvalid : m.validValue with
  | none => rfl
  | some valid =>
      obtain ⟨hcheck, hquorum⟩ := h valid hvalid
      have hok : (rt.consensus.adoptValidValue valid.block.hash valid.validRound
          valid.prevotes).2 = .ok () := by
        unfold BftConsensus.adoptValidValue
        rw [hquorum]
        dsimp only
        split_ifs <;> rfl
      dsimp only
      rw [hcheck]
      generalize rt.consensus.adoptValidValue valid.block.hash valid.validRound valid.prevotes =
        adopted at hok
      obtain ⟨c', result⟩ := adopted
      cases hok
      dsimp only
      split_ifs <;> rfl

/-- Once the carried value is dealt with, the node goes to the round that is called for, if it
is a later one. -/
theorem receiveRoundChange_adopted {rt rt₁ : ConsensusRuntime} {env : Env} {m : SignedRoundChange}
    (hcheck : rt.checkRoundChange m = .ok ())
    (hadopt : rt.adoptRoundChangeValue env m = (rt₁, .ok ())) :
    (∃ target, (rt.recordRoundChange m).calledRound m.height m.round = some target ∧
        rt.consensus.round < target ∧
        rt.receiveRoundChange env m =
          (rt₁.recordRoundChange m).pruneRoundChanges.jumpToRound env m.height target) ∨
      (¬∃ target, (rt.recordRoundChange m).calledRound m.height m.round = some target ∧
          rt.consensus.round < target) ∧
        (rt.receiveRoundChange env m).1 = (rt₁.recordRoundChange m).pruneRoundChanges ∧
        (m.round < u32Max → ∃ moved, (rt.receiveRoundChange env m).2 = .ok moved) := by
  obtain ⟨hframe, hstayed⟩ := rt.adoptRoundChangeValue_frame env m
  have hfiled := rt.roundChangeVotes_adoptRoundChangeValue env m
  rw [hadopt] at hframe hstayed hfiled
  have hrecorded : Stayed rt₁ (rt₁.recordRoundChange m) := ⟨.refl _, rfl, rfl⟩
  obtain ⟨-, hpruned⟩ := frame_pruneRoundChanges (rt₁.recordRoundChange m)
  have hround := (hstayed.trans (hrecorded.trans hpruned)).core.round
  have hvalidators : (rt₁.recordRoundChange m).validators =
      (rt.recordRoundChange m).validators := hframe.validators
  have hvotes : (rt₁.recordRoundChange m).roundChangeVotes =
      (rt.recordRoundChange m).roundChangeVotes := by
    simp only [recordRoundChange]
    rw [hfiled]
  have hcalled : (rt₁.recordRoundChange m).calledRound m.height m.round =
      (rt.recordRoundChange m).calledRound m.height m.round := by
    unfold calledRound roundChangePower
    rw [hvotes, hvalidators]
  rw [← hcalled]
  unfold receiveRoundChange calledRound
  rw [hcheck, hadopt]
  dsimp only
  generalize (rt₁.recordRoundChange m).pruneRoundChanges = rt₂ at *
  rw [hround]
  generalize (rt₁.recordRoundChange m).roundChangePower m.height m.round = signedPower
  generalize wrappingSum u64Max ((rt₁.recordRoundChange m).validators.map (·.votingPower)) =
    totalPower
  cases hcall : (if saturatingMul u64Max totalPower 2 < saturatingMul u64Max signedPower 3 then
      checkedAdd u32Max m.round 1 else some m.round) with
  | none =>
      refine .inr ⟨by simp, rfl, fun hlt => ?_⟩
      have hsome : checkedAdd u32Max m.round 1 = some (m.round + 1) :=
        checkedAdd_eq_some.2 ⟨rfl, hlt⟩
      rw [hsome] at hcall
      split_ifs at hcall
  | some target =>
      dsimp only
      by_cases hjump : totalPower < saturatingMul u64Max signedPower 3 ∧ rt.consensus.round < target
      · rw [if_pos hjump, if_pos hjump.1]
        exact .inl ⟨target, rfl, hjump.2, rfl⟩
      · rw [if_neg hjump]
        refine .inr ⟨?_, rfl, fun _ => ⟨false, rfl⟩⟩
        rintro ⟨target', htarget, hlt⟩
        split_ifs at htarget with hpower
        cases htarget
        exact hjump ⟨hpower, hlt⟩

/-- A round change that does not move the node is only filed. -/
theorem stayed_of_not_movedBy {rt : ConsensusRuntime} {env : Env} {m : SignedRoundChange}
    (hstill : ¬rt.MovedBy env m) : Stayed rt (rt.receiveRoundChange env m).1 := by
  cases hcheck : rt.checkRoundChange m with
  | error e =>
      unfold receiveRoundChange
      rw [hcheck]
      exact .refl _
  | ok u =>
      obtain ⟨-, hstayed⟩ := rt.adoptRoundChangeValue_frame env m
      cases hadopt : rt.adoptRoundChangeValue env m with
      | mk rt₁ result =>
          rw [hadopt] at hstayed
          cases result with
          | error e =>
              unfold receiveRoundChange
              rw [hcheck, hadopt]
              exact hstayed
          | ok u =>
              rcases receiveRoundChange_adopted hcheck hadopt with
                ⟨target, hcalled, hlt, -⟩ | ⟨-, hcase, -⟩
              · refine absurd ⟨hcheck, fun valid hvalid => ?_, target, hcalled, hlt⟩ hstill
                exact checked_of_adoptRoundChangeValue (by rw [hadopt]) hvalid
              · rw [hcase]
                have hrecorded : Stayed rt₁ (rt₁.recordRoundChange m) := ⟨.refl _, rfl, rfl⟩
                exact hstayed.trans (hrecorded.trans (frame_pruneRoundChanges _).2)

theorem Level.receiveRoundChange (h : Level rt) {env : Env} {m : SignedRoundChange}
    (hstill : rt.AdvanceDue → ¬rt.MovedBy env m) : Level (rt.receiveRoundChange env m).1 := by
  obtain ⟨hframe, hstayed | hjumped⟩ := rt.receiveRoundChange_cases env m
  · exact h.stayed hframe hstayed
  · by_cases hdue : rt.AdvanceDue
    · exact h.stayed hframe (stayed_of_not_movedBy (hstill hdue))
    · exact h.jumped hframe hjumped hdue

/-- A timeout does not concern a node that waits to be sent on. -/
theorem Level.timeout (h : Level rt) (env : Env) (now : ℕ) :
    Level (rt.timeoutIfDueWithRoundChange env now).1 := by
  by_cases hphase : rt.consensus.phase = .finalized
  · unfold timeoutIfDueWithRoundChange
    rw [if_pos (.inr hphase)]
    exact h
  · obtain ⟨rt₁, hrt₁, hframe, hcases⟩ := rt.timeoutIfDueWithRoundChange_cases env now
    obtain ⟨hlevel, hdue⟩ : Level rt₁ ∧ ¬rt₁.AdvanceDue := by
      rcases hrt₁ with rfl | rfl
      · exact ⟨h, fun hdue => hphase hdue.1⟩
      · exact ⟨h.record _, fun hdue => hphase hdue.1⟩
    rcases hcases with hstayed | hjumped
    · exact hlevel.stayed hframe hstayed
    · exact hlevel.jumped hframe hjumped hdue

/-! ## Blocks from peers -/

/-- What happens to an acceptable certificate. -/
theorem applySyncCertificate_of_acceptable {rt : ConsensusRuntime} {env : Env}
    {c : FinalityCertificate} (h : rt.Acceptable env rt.chain c) :
    if c.block.height ≤ rt.chain.tipHeight then rt.applySyncCertificate env c = .ok (rt, false)
    else rt.applySyncCertificate env c =
      .ok ({ rt with chain := rt.chain.offer c.block, finalized := rt.finalized ++ [c] }, true) := by
  obtain ⟨hverify, h⟩ := h
  unfold applySyncCertificate
  rw [hverify]
  by_cases hknown : c.block.height ≤ rt.chain.tipHeight
  · rw [if_pos hknown] at h ⊢
    obtain ⟨known, hblock, hhash⟩ := h
    simp [Nat.lt_succ_of_le hknown, hblock, hhash, okOr, reject]
  · rw [if_neg hknown] at h ⊢
    obtain ⟨hnext, hvalid, extended, happly⟩ := h
    have hvalid' : rt.validateScheduledBlock env.unixNow c.block = .ok () := hvalid
    simp [hnext, hvalid', happly, reject, Blockchain.offer]

theorem acceptable_of_applySyncCertificate {rt : ConsensusRuntime} {env : Env}
    {c : FinalityCertificate} {result : ConsensusRuntime × Bool}
    (h : rt.applySyncCertificate env c = .ok result) : rt.Acceptable env rt.chain c := by
  simp only [applySyncCertificate, check_bind_eq_ok] at h
  obtain ⟨hverify, h⟩ := h
  refine ⟨hverify, ?_⟩
  by_cases hknown : c.block.height ≤ rt.chain.tipHeight
  · rw [if_pos (Nat.lt_succ_of_le hknown)] at h
    simp only [bind_eq_ok, okOr_eq_ok, reject_eq_ok, not_not, exists_const] at h
    obtain ⟨known, hblock, hhash, -⟩ := h
    rw [if_pos hknown]
    exact ⟨known, hblock, hhash⟩
  · rw [if_neg (by omega)] at h
    simp only [check_bind_eq_ok, reject_eq_ok, not_not] at h
    obtain ⟨hnext, hvalid, h⟩ := h
    simp only [bind_eq_ok] at h
    obtain ⟨chain, happly, -⟩ := h
    rw [if_neg hknown]
    exact ⟨hnext, hvalid, chain, happly⟩

theorem offer_of_height_le {chain : Blockchain} {block : Block}
    (h : block.height ≤ chain.tipHeight) : chain.offer block = chain := by
  unfold Blockchain.offer
  cases happly : chain.applyBlock block with
  | error e => rfl
  | ok extended =>
      have := (Blockchain.applyBlock_eq_ok.1 happly).1
      omega

/-- What is acceptable does not depend on what the node has applied meanwhile. -/
theorem Complete.update {env : Env} {certificates : List FinalityCertificate} {chain : Blockchain}
    (h : rt.Complete env chain certificates) (current : Blockchain)
    (finalized : List FinalityCertificate) :
    Complete { rt with chain := current, finalized } env chain certificates := by
  induction certificates generalizing chain with
  | nil => trivial
  | cons c rest ih => exact ⟨h.1, ih h.2⟩

/-- Certificates that are acceptable one after the other never fail. -/
theorem applySyncLoop_of_complete {env : Env} {certificates : List FinalityCertificate}
    {rt : ConsensusRuntime} {applied : ℕ} (h : rt.Complete env rt.chain certificates) :
    ∃ total, (applySyncLoop env certificates rt applied).2 = .ok total := by
  induction certificates generalizing rt applied with
  | nil => exact ⟨applied, rfl⟩
  | cons c rest ih =>
      obtain ⟨hacceptable, hrest⟩ := h
      have hone := applySyncCertificate_of_acceptable hacceptable
      unfold applySyncLoop
      split_ifs at hone with hknown
      · rw [hone]
        rw [offer_of_height_le hknown] at hrest
        exact ih hrest
      · rw [hone]
        exact ih (hrest.update _ _)

/-- Either the chain is as before or no certificate was refused. -/
theorem applySyncLoop_of_allOrNothing {env : Env} {certificates : List FinalityCertificate}
    {rt : ConsensusRuntime} (applied : ℕ) (h : rt.AllOrNothing env certificates) :
    (applySyncLoop env certificates rt applied).1.chain = rt.chain ∨
      ∃ total, (applySyncLoop env certificates rt applied).2 = .ok total := by
  induction certificates generalizing applied with
  | nil => exact .inl rfl
  | cons c rest ih =>
      unfold applySyncLoop
      cases hone : rt.applySyncCertificate env c with
      | error e => exact .inl rfl
      | ok result =>
          have hacceptable := acceptable_of_applySyncCertificate hone
          have hnext := h hacceptable
          have hwhich := applySyncCertificate_of_acceptable hacceptable
          rw [hone] at hwhich
          split_ifs at hwhich hnext with hknown
          · cases hwhich
            exact ih _ hnext
          · cases hwhich
            exact .inr (applySyncLoop_of_complete (hnext.update _ _))

theorem Level.applySyncCertificates (h : Level rt) {env : Env}
    {certificates : List FinalityCertificate} (hwhole : rt.AllOrNothing env certificates) :
    Level (rt.applySyncCertificates env certificates).1 := by
  obtain ⟨n, hsynced, hcount⟩ := applySyncLoop_synced env certificates rt 0
  have houtcome := applySyncLoop_of_allOrNothing 0 hwhole
  unfold ConsensusRuntime.applySyncCertificates
  generalize applySyncLoop env certificates rt 0 = result at *
  obtain ⟨rt₁, result⟩ := result
  have htip := hsynced.tipHeight
  have hkept : rt₁.chain.tipHeight = rt.chain.tipHeight → Level rt₁ := by
    intro hsame
    refine h.sameCore (by rw [hsynced.consensus]; exact .refl _) ?_ hsame
    rw [hsynced.pending]
    exact fun _ => id
  cases result with
  | error e =>
      refine hkept ?_
      rcases houtcome with hchain | ⟨total, ⟨⟩⟩
      exact congrArg _ hchain
  | ok total =>
      have htotal := hcount total rfl
      dsimp only at htip ⊢
      split_ifs with hzero
      · exact hkept (by omega)
      · refine level_openNextHeight env ?_
        have := h.height_le
        rw [hsynced.consensus]
        omega

/-- A batch that brings no block leaves the node alone. -/
theorem applySyncBatch_of_not_bringsBlock {rt : ConsensusRuntime} {env : Env} {blocks : List Block}
    (applied : ℕ) (h : ¬rt.BringsBlock env blocks) :
    (applySyncBatch env blocks rt applied).1 = rt := by
  induction blocks with
  | nil => rfl
  | cons block rest ih =>
      unfold applySyncBatch
      dsimp only
      split_ifs with hknown hgap
      · refine ih fun ⟨b, hfind, hb⟩ => h ⟨b, ?_, hb⟩
        rw [List.find?_cons_of_neg (by simpa using Nat.le_of_lt_succ hknown), hfind]
      · rfl
      · cases hvalid : rt.validateScheduledBlock env.unixNow block with
        | error e => rfl
        | ok u =>
            cases happly : rt.chain.applyBlock block with
            | error e => rfl
            | ok chain =>
                refine absurd ⟨block, ?_, hvalid, chain, happly⟩ h
                exact List.find?_cons_of_pos (by simp; omega)

/-- Importing certificates only adds to the archive. -/
theorem importLoop_eq (certificates : List FinalityCertificate) (rt : ConsensusRuntime)
    (imported : ℕ) : ∃ finalized, (importLoop certificates rt imported).1 = { rt with finalized } := by
  induction certificates generalizing rt imported with
  | nil => exact ⟨rt.finalized, rfl⟩
  | cons c rest ih =>
      unfold importLoop
      split
      · exact ⟨rt.finalized, rfl⟩
      · split
        · exact ih _ _
        · split_ifs
          · exact ⟨rt.finalized, rfl⟩
          · exact ih _ _
          · exact ih { rt with finalized := rt.finalized ++ [c] } _

theorem importCertificateHistory_eq (rt : ConsensusRuntime)
    (certificates : List FinalityCertificate) :
    ∃ finalized, (rt.importCertificateHistory certificates).1 = { rt with finalized } := by
  obtain ⟨finalized, hloop⟩ := importLoop_eq certificates rt 0
  unfold importCertificateHistory
  generalize importLoop certificates rt 0 = result at hloop
  obtain ⟨rt₁, result⟩ := result
  obtain rfl : rt₁ = _ := hloop
  cases result with
  | error e => exact ⟨_, rfl⟩
  | ok imported => exact ⟨_, rfl⟩

theorem Level.importCertificateHistory (h : Level rt) (certificates : List FinalityCertificate) :
    Level (rt.importCertificateHistory certificates).1 := by
  obtain ⟨finalized, hcase⟩ := rt.importCertificateHistory_eq certificates
  rw [hcase]
  exact h.sameCore (.refl _) (fun _ => id) rfl

theorem Level.installCertifiedSnapshot (h : Level rt) (env : Env) (snapshot : StateSnapshot)
    (certificate : SnapshotCertificate) :
    Level (rt.installCertifiedSnapshot env snapshot certificate).1 := by
  unfold ConsensusRuntime.installCertifiedSnapshot
  cases hrestored : rt.restoreSnapshot snapshot certificate with
  | error e => exact h
  | ok restored =>
      cases restored with
      | none => exact h
      | some chain =>
          obtain ⟨-, -, hlt, hfrom, -⟩ := restoreSnapshot_eq_some.1 hrestored
          have htip := (fromSnapshotWithStaking_spec hfrom).1
          have hle := h.height_le
          dsimp only
          rw [BftConsensus.startRound_of_le (.inl (by omega))]
          exact .entered rfl rfl (congrArg (· + 1) htip.symm)

/-! ## Runs -/

theorem Level.run (h : Level rt) {env : Env} {call : Call} (hstep : InStep env rt (.call call)) :
    Level (rt.run env call).1 := by
  cases call with
  | makeProposal block =>
      rcases rt.makeProposal_cases env block with hcase | ⟨_, _, _, _, _, hcase⟩
      · simp only [ConsensusRuntime.run, hcase]
        exact h
      · simp only [ConsensusRuntime.run, hcase]
        exact h.record _
  | receiveProposal p => exact h.receiveProposal env p
  | receiveVote vote => exact h.receiveVote env vote
  | deferVote vote =>
      obtain ⟨hframe, hstayed⟩ := rt.frame_deferVote vote
      exact h.stayed hframe hstayed
  | replayDeferredVotes => exact ((levelReplay env).replay h).1
  | receiveRoundChange m => exact h.receiveRoundChange hstep
  | timeoutIfDueWithRoundChange now => exact h.timeout env now
  | applySyncCertificates certificates => exact h.applySyncCertificates hstep
  | advanceAfterFinalization => exact h.advanceAfterFinalization env
  | restartPhaseTimeout now => exact h.sameCore (.refl _) (fun _ => id) rfl
  | takeEvidence => exact h.sameCore (by constructor <;> rfl) (fun _ => id) rfl
  | takeFinalized => exact h.sameCore (.refl _) (fun _ => id) rfl

theorem Level.perform (h : Level rt) {env : Env} {op : Operation} (hstep : InStep env rt op) :
    Level (rt.perform env op) := by
  cases op with
  | call call => exact h.run hstep
  | timeoutIfDue now => exact h.timeout env now
  | forceTimeoutForTest => exact h.forceTimeoutForTest hstep
  | applySyncBatch blocks =>
      have hkept : rt.perform env (.applySyncBatch blocks) = rt :=
        applySyncBatch_of_not_bringsBlock 0 hstep
      rw [hkept]
      exact h
  | importCertificateHistory certificates => exact h.importCertificateHistory certificates
  | installCertifiedSnapshot snapshot certificate =>
      exact h.installCertifiedSnapshot env snapshot certificate
  | replaceBootstrapValidators validators => exact h.replaceBootstrapValidators env validators
  | configure => exact h.sameCore (.refl _) (fun _ => id) rfl

/-- In every run of a node whose operations keep to the condition, the height of the round
follows the chain after every operation. -/
theorem followsChain_of_operated {chain : Blockchain} {validators : List Validator} {self : String}
    {timeouts : ConsensusTimeouts} {instant : ℕ}
    (hstart : withSigner chain validators self timeouts instant = .ok rt)
    (hrun : Operated InStep rt rt') : rt'.FollowsChain := by
  suffices h : Level rt' from h.follows
  induction hrun with
  | refl =>
      simp only [withSigner, bind_eq_ok, pure_eq_ok] at hstart
      obtain ⟨c, -, rfl⟩ := hstart
      exact .entered rfl rfl rfl
  | tail _ hstep ih =>
      obtain ⟨env, op, hallowed, rfl⟩ := hstep
      exact ih.perform hallowed

end

end

end ConsensusRuntime

namespace Lone

open ConsensusRuntime

local instance heightsCrypto : Crypto := StandIn.crypto StandIn.digest

def certificate : FinalityCertificate :=
  { block, round := 0, precommits := [vote block .precommit] }

/-- The certificate without its signatures. -/
def stripped : FinalityCertificate := { certificate with precommits := [] }

/-- The block of the first certificate is applied, the second one is refused, and the node is
left voting on a height that the chain already has. -/
theorem half_sync_falls_behind :
    started chain = .ok node ∧ ∃ rt, Operated (fun _ _ _ => True) node rt ∧
      rt = node.perform env (.call (.applySyncCertificates [certificate, stripped])) ∧
      ¬rt.FollowsChain := by
  refine ⟨eq_ok_get started_ok, _, .single ⟨env, _, trivial, rfl⟩, rfl, ?_⟩
  unfold FollowsChain AdvanceDue
  decide +kernel

/-- A certificate that comes alone takes the node along. -/
theorem followsChain_of_operated_sync :
    ∃ rt, Operated InStep node rt ∧ rt.chain.tipHeight = 1 ∧ rt.FollowsChain := by
  have hallowed : InStep env node (.call (.applySyncCertificates [certificate])) := by
    simp [InStep, AllOrNothing, Complete]
  have hrun : Operated InStep node (node.perform env (.call (.applySyncCertificates [certificate]))) :=
    .single ⟨env, _, hallowed, rfl⟩
  exact ⟨_, hrun, by decide +kernel, followsChain_of_operated (eq_ok_get started_ok) hrun⟩

end Lone

end IeumChain
