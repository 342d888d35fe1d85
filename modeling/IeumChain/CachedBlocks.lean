import IeumChain.Precommits

/-!
# The block behind the valid value

A quorum of prevotes certifies a hash. The node keeps the block that goes with it, and
three places write that block: the lock on a candidate, the valid value of a round
change, and the end of the height. A candidate was compared with its hash when the
proposal came in; the block of a round change is not covered by the signature of the
message and never compared.
-/
namespace IeumChain

open Outcome MachineWords FiniteMap

namespace ConsensusRuntime

section
variable [Crypto]

/-- The candidate and the block behind the valid value have the hash of their contents. -/
def Intact (rt : ConsensusRuntime) : Prop :=
  ∀ b, rt.validBlock = some b ∨ rt.pending = some b → b.hash = b.calculateHash

/-- The value that a round change carries passes its checks and is newer than the known one, or
is the known one. -/
structure Replaces (env : Env) (rt : ConsensusRuntime) (m : SignedRoundChange)
    (v : RoundChangeValidValue) : Prop where
  carried : m.validValue = some v
  checked : rt.checkRoundChange m = .ok ()
  fits : rt.checkRoundChangeValue env m v = .ok ()
  quorum : rt.consensus.checkValidValue v.block.hash v.validRound v.prevotes = .ok ()
  wanted : rt.consensus.validRound.all (· < v.validRound) = true ∨
    rt.consensus.validPair = some (v.block.hash, v.validRound)

/-- A block that a round change brings along has the hash of its contents. -/
def BringsIntact (env : Env) (rt : ConsensusRuntime) : Operation → Prop
  | .call (.receiveRoundChange m) =>
      ∀ v, Replaces env rt m v → v.block.hash = v.block.calculateHash
  | _ => True

variable {rt rt' : ConsensusRuntime}

/-- The blocks in store were in store before. -/
theorem Intact.of_blocks (h : Intact rt)
    (hvalid : ∀ b, rt'.validBlock = some b → rt.validBlock = some b ∨ rt.pending = some b)
    (hpending : ∀ b, rt'.pending = some b → rt.pending = some b) : Intact rt' := by
  rintro b (hb | hb)
  · exact h b (hvalid b hb)
  · exact h b (.inr (hpending b hb))

theorem Intact.sameBlocks (h : Intact rt) (hvalid : rt'.validBlock = rt.validBlock)
    (hpending : rt'.pending = rt.pending) : Intact rt' := by
  refine h.of_blocks ?_ ?_
  · rw [hvalid]
    exact fun _ => .inl
  · rw [hpending]
    exact fun _ => id

theorem Intact.cleared (h : Intact rt) (hvalid : rt'.validBlock = rt.validBlock)
    (hpending : rt'.pending = none) : Intact rt' := by
  refine h.of_blocks ?_ ?_
  · rw [hvalid]
    exact fun _ => .inl
  · simp [hpending]

theorem intact_of_none (hvalid : rt.validBlock = none) (hpending : rt.pending = none) :
    Intact rt := by
  intro b hb
  simp [hvalid, hpending] at hb

/-! ## Proposals and votes -/

theorem Intact.receiveProposal (h : Intact rt) (env : Env) (p : SignedProposal) :
    Intact (rt.receiveProposal env p).1 := by
  rcases rt.receiveProposal_cases env p with ⟨c', e, -, hcase⟩ | ⟨hblock, hcheck, -, hcase⟩
  · rw [hcase]
    exact h.sameBlocks rfl rfl
  · rw [hcase]
    rintro b (hb | hb)
    · exact h b (.inl hb)
    · cases hb
      exact (block_of_checkProposal hblock hcheck).2.2

theorem Intact.counted (h : Intact rt) (env : Env) (vote : ConsensusMessage) (c : BftConsensus) :
    Intact (rt.counted env vote c) := by
  obtain ⟨-, -, hpending⟩ := frame_counted rt env vote c
  refine h.of_blocks ?_ (by rw [hpending]; exact fun _ => id)
  intro b hb
  rw [validBlock_counted] at hb
  split_ifs at hb
  · exact .inr hb
  · exact .inl hb

theorem Intact.afterVote (h : Intact rt) (env : Env) : Intact (rt.afterVote env).1 := by
  rcases rt.afterVote_cases env with hcase | ⟨b, -, -, hcase⟩ | ⟨b, -, -, hcase⟩ |
    ⟨b, chain, -, -, -, -, -, hcase⟩
  · rw [hcase]
    exact h
  · rw [hcase]
    exact h.sameBlocks rfl rfl
  · rw [hcase]
    exact h.cleared rfl rfl
  · rw [hcase]
    exact intact_of_none rfl rfl

theorem Intact.receiveVote (h : Intact rt) (env : Env) (vote : ConsensusMessage) :
    Intact (rt.receiveVote env vote).1 := by
  rcases rt.receiveVote_cases env vote with ⟨c', e, -, hcase⟩ | ⟨-, -, c₁, -, hcase⟩
  · rw [hcase]
    exact h.sameBlocks rfl rfl
  · rw [hcase]
    exact (h.counted env vote _).afterVote env

theorem intactReplay (env : Env) : ReplayRule env Intact (fun _ _ => True) (fun _ _ => True) where
  receive _ v h _ := h.receiveVote env v
  keep _ _ _ _ _ _ := trivial
  keepSent _ _ _ _ _ _ := trivial
  reply _ _ _ _ _ _ := ⟨trivial, trivial⟩
  deferred _ _ _ _ := trivial
  store _ _ h _ := h.sameBlocks rfl rfl
  storeKeep _ _ _ _ := trivial
  storeSent _ _ _ _ := trivial

/-! ## Round changes -/

/-- The carried block is stored exactly when the value is newer or known. -/
theorem blocks_adoptRoundChangeValue (rt : ConsensusRuntime) (env : Env) (m : SignedRoundChange)
    (hcheck : rt.checkRoundChange m = .ok ()) :
    (rt.adoptRoundChangeValue env m).1.pending = rt.pending ∧
      ((rt.adoptRoundChangeValue env m).1.validBlock = rt.validBlock ∨
        ∃ v, Replaces env rt m v ∧
          (rt.adoptRoundChangeValue env m).1.validBlock = some v.block) := by
  unfold adoptRoundChangeValue
  cases hv : m.validValue with
  | none => exact ⟨rfl, .inl rfl⟩
  | some v =>
      dsimp only
      cases hfits : rt.checkRoundChangeValue env m v with
      | error e => exact ⟨rfl, .inl rfl⟩
      | ok u =>
          unfold BftConsensus.adoptValidValue
          cases hquorum : rt.consensus.checkValidValue v.block.hash v.validRound v.prevotes with
          | error e => exact ⟨rfl, .inl rfl⟩
          | ok u =>
              dsimp only
              by_cases hnewer : rt.consensus.validRound.all (· < v.validRound) = true
              · have hreplaces : Replaces env rt m v := ⟨hv, hcheck, hfits, hquorum, .inl hnewer⟩
                rw [if_pos hnewer]
                dsimp only
                split_ifs
                · exact ⟨rfl, .inr ⟨v, hreplaces, rfl⟩⟩
                · exact ⟨rfl, .inl rfl⟩
              · rw [if_neg hnewer]
                dsimp only
                split_ifs with hpair
                · exact ⟨rfl, .inr ⟨v, ⟨hv, hcheck, hfits, hquorum, .inr hpair⟩, rfl⟩⟩
                · exact ⟨rfl, .inl rfl⟩

/-- Filing a round change, and following it, leaves the block behind the valid value alone. -/
theorem blocks_receiveRoundChange (rt : ConsensusRuntime) (env : Env) {m : SignedRoundChange}
    (hcheck : rt.checkRoundChange m = .ok ()) :
    (rt.receiveRoundChange env m).1.validBlock = (rt.adoptRoundChangeValue env m).1.validBlock ∧
      ((rt.receiveRoundChange env m).1.pending = (rt.adoptRoundChangeValue env m).1.pending ∨
        (rt.receiveRoundChange env m).1.pending = none) := by
  have hheight := height_of_checkRoundChange hcheck
  have hcore := (rt.adoptRoundChangeValue_frame env m).2.core
  cases hadopt : rt.adoptRoundChangeValue env m with
  | mk rt₁ result =>
      rw [hadopt] at hcore
      cases result with
      | error e =>
          unfold receiveRoundChange
          rw [hcheck, hadopt]
          exact ⟨rfl, .inl rfl⟩
      | ok u =>
          obtain ⟨-, hmachine, hvalid, hpending⟩ := filed_ground rt₁ m
          rcases receiveRoundChange_adopted hcheck hadopt with
            ⟨target, -, hlt, hcase⟩ | ⟨-, hcase, -⟩
          · rw [hcase, hheight, ← hcore.height, ← hmachine]
            have hlater : (rt₁.recordRoundChange m).pruneRoundChanges.consensus.round < target := by
              rw [hmachine, hcore.round]
              exact hlt
            obtain ⟨-, -, hkept, hdropped, -⟩ := jumpToRound_ground
              (rt₁.recordRoundChange m).pruneRoundChanges env hlater
            exact ⟨hkept.trans hvalid, .inr hdropped⟩
          · rw [hcase]
            exact ⟨hvalid, .inl hpending⟩

/-- The block of a value that replaces the known one is stored whatever its contents are. -/
theorem validBlock_of_replaces {env : Env} {m : SignedRoundChange} {v : RoundChangeValidValue}
    (h : Replaces env rt m v) :
    (rt.perform env (.call (.receiveRoundChange m))).validBlock = some v.block := by
  have hpair : (rt.consensus.adoptValidValue v.block.hash v.validRound v.prevotes).1.validPair =
      some (v.block.hash, v.validRound) := by
    unfold BftConsensus.adoptValidValue
    rw [h.quorum]
    dsimp only
    split_ifs with hnewer
    · exact BftConsensus.validPair_foldl_fileVote v.prevotes _
    · exact h.wanted.resolve_left hnewer
  have hstored : (rt.receiveRoundChange env m).1.validBlock =
      (rt.adoptRoundChangeValue env m).1.validBlock := (rt.blocks_receiveRoundChange env h.checked).1
  rw [adoptRoundChangeValue_eq h.carried h.fits h.quorum hpair] at hstored
  exact hstored

theorem Intact.receiveRoundChange (h : Intact rt) {env : Env} {m : SignedRoundChange}
    (hbrings : ∀ v, Replaces env rt m v → v.block.hash = v.block.calculateHash) :
    Intact (rt.receiveRoundChange env m).1 := by
  cases hcheck : rt.checkRoundChange m with
  | error e =>
      unfold ConsensusRuntime.receiveRoundChange
      rw [hcheck]
      exact h
  | ok u =>
      obtain ⟨hvalid, hpending⟩ := rt.blocks_receiveRoundChange env hcheck
      obtain ⟨hkept, hstored⟩ := rt.blocks_adoptRoundChangeValue env m hcheck
      rintro b (hb | hb)
      · rw [hvalid] at hb
        rcases hstored with hsame | ⟨v, hreplaces, hnew⟩
        · rw [hsame] at hb
          exact h b (.inl hb)
        · rw [hnew] at hb
          cases hb
          exact hbrings v hreplaces
      · rcases hpending with hsame | hnone
        · rw [hsame, hkept] at hb
          exact h b (.inr hb)
        · rw [hnone] at hb
          cases hb

/-- The node reports the block that it has. -/
theorem Intact.own (h : Intact rt) (env : Env) (signature : String) :
    ∀ v, Replaces env rt (rt.ownRoundChange signature) v → v.block.hash = v.block.calculateHash := by
  intro v hreplaces
  exact h v.block (.inl (reportedValidValue_eq_some hreplaces.carried).1)

theorem Intact.leaveTimedOutRound (h : Intact rt) (now : ℕ) (m : SignedRoundChange) :
    Intact (rt.leaveTimedOutRound now m).1 := by
  unfold ConsensusRuntime.leaveTimedOutRound
  dsimp only
  split
  · exact h.sameBlocks rfl rfl
  · exact h.cleared rfl rfl

theorem Intact.timeout (h : Intact rt) (env : Env) (now : ℕ) :
    Intact (rt.timeoutIfDueWithRoundChange env now).1 := by
  by_cases hdue : now < rt.deadline ∨ rt.consensus.phase = .finalized
  · unfold timeoutIfDueWithRoundChange
    rw [if_pos hdue]
    exact h
  · have hrequest : Intact rt.recordRoundChangeRequest := h.sameBlocks rfl rfl
    rw [timeout_due hdue]
    cases env.sign _ with
    | error e => exact hrequest
    | ok signature =>
        dsimp only
        cases (rt.recordRoundChangeRequest.ownRoundChange signature).verify with
        | error e => exact hrequest
        | ok u =>
            have hreceived := hrequest.receiveRoundChange (hrequest.own env signature)
            dsimp only
            generalize rt.recordRoundChangeRequest.receiveRoundChange env _ = received at hreceived
            obtain ⟨rt', result⟩ := received
            cases result with
            | error e => exact hreceived
            | ok moved => exact hreceived.leaveTimedOutRound now _

/-! ## Other operations -/

theorem Intact.openNextHeight (h : Intact rt) (env : Env) : Intact (rt.openNextHeight env).1 := by
  unfold ConsensusRuntime.openNextHeight
  rcases rt.consensus.startRound_cases (rt.chain.tipHeight + 1) 0 with ⟨e, hcase⟩ | ⟨-, hcase⟩
  · rw [hcase]
    exact h
  · rw [hcase]
    exact intact_of_none rfl rfl

theorem Intact.applySyncCertificates (h : Intact rt) (env : Env)
    (certificates : List FinalityCertificate) :
    Intact (rt.applySyncCertificates env certificates).1 := by
  have hsynced : Intact (applySyncLoop env certificates rt 0).1 := by
    obtain ⟨chain, finalized, hcase⟩ := applySyncLoop_eq env certificates rt 0
    rw [hcase]
    exact h.sameBlocks rfl rfl
  unfold ConsensusRuntime.applySyncCertificates
  generalize applySyncLoop env certificates rt 0 = result at hsynced
  obtain ⟨rt₁, result⟩ := result
  cases result with
  | error e => exact hsynced
  | ok total =>
      dsimp only
      split_ifs
      · exact hsynced
      · exact hsynced.openNextHeight env

theorem Intact.installCertifiedSnapshot (h : Intact rt) (env : Env) (snapshot : StateSnapshot)
    (certificate : SnapshotCertificate) :
    Intact (rt.installCertifiedSnapshot env snapshot certificate).1 := by
  unfold ConsensusRuntime.installCertifiedSnapshot
  cases rt.restoreSnapshot snapshot certificate with
  | error e => exact h
  | ok restored =>
      cases restored with
      | none => exact h
      | some chain =>
          dsimp only
          rcases rt.consensus.startRound_cases (snapshot.height + 1) 0 with ⟨e, hcase⟩ | ⟨-, hcase⟩
          · rw [hcase]
            exact h.sameBlocks rfl rfl
          · rw [hcase]
            exact intact_of_none rfl rfl

theorem Intact.run (h : Intact rt) {env : Env} {call : Call}
    (hbrings : BringsIntact env rt (.call call)) : Intact (rt.run env call).1 := by
  cases call with
  | makeProposal block =>
      rcases rt.makeProposal_cases env block with hcase | ⟨_, _, _, _, _, hcase⟩
      · simp only [ConsensusRuntime.run, hcase]
        exact h
      · simp only [ConsensusRuntime.run, hcase]
        exact h.sameBlocks rfl rfl
  | receiveProposal p => exact h.receiveProposal env p
  | receiveVote vote => exact h.receiveVote env vote
  | deferVote vote =>
      refine h.sameBlocks ?_ (rt.frame_deferVote vote).2.pending
      simp only [ConsensusRuntime.run, deferVote]
      split_ifs <;> rfl
  | replayDeferredVotes => exact ((intactReplay env).replay h).1
  | receiveRoundChange m => exact h.receiveRoundChange hbrings
  | timeoutIfDueWithRoundChange now => exact h.timeout env now
  | applySyncCertificates certificates => exact h.applySyncCertificates env certificates
  | advanceAfterFinalization =>
      rcases rt.advanceAfterFinalization_cases env with hcase | ⟨-, hcase⟩
      · simp only [ConsensusRuntime.run, hcase]
        exact h
      · simp only [ConsensusRuntime.run, hcase]
        exact h.openNextHeight env
  | restartPhaseTimeout now => exact h.sameBlocks rfl rfl
  | takeEvidence => exact h.sameBlocks rfl rfl
  | takeFinalized => exact h.sameBlocks rfl rfl

theorem Intact.perform (h : Intact rt) {env : Env} {op : Operation}
    (hbrings : BringsIntact env rt op) : Intact (rt.perform env op) := by
  cases op with
  | call call => exact h.run hbrings
  | timeoutIfDue now => exact h.timeout env now
  | forceTimeoutForTest => exact h.cleared rfl rfl
  | applySyncBatch blocks =>
      obtain ⟨chain, hcase, -⟩ := applySyncBatch_grown env blocks rt 0
      simp only [ConsensusRuntime.perform, hcase]
      exact h.sameBlocks rfl rfl
  | importCertificateHistory certificates =>
      obtain ⟨finalized, hcase⟩ := rt.importCertificateHistory_eq certificates
      simp only [ConsensusRuntime.perform, hcase]
      exact h.sameBlocks rfl rfl
  | installCertifiedSnapshot snapshot certificate =>
      exact h.installCertifiedSnapshot env snapshot certificate
  | replaceBootstrapValidators validators =>
      rcases rt.replaceBootstrapValidators_cases env validators with hcase | ⟨-, -, c, -, hcase⟩
      · simp only [ConsensusRuntime.perform, hcase]
        exact h
      · simp only [ConsensusRuntime.perform, hcase]
        exact intact_of_none rfl rfl
  | configure => exact h.sameBlocks rfl rfl

theorem Intact.reached (h : Intact rt) (hrun : Reached BringsIntact rt rt') : Intact rt' := by
  induction hrun with
  | refl => exact h
  | tail _ hstep ih =>
      rcases hstep with ⟨env, op, hbrings, rfl⟩ | ⟨votes, rfl⟩
      · exact ih.perform hbrings
      · exact ih.sameBlocks rfl rfl

theorem intact_prepared {validators : List Validator} (hstart : Prepared validators rt) :
    Intact rt := by
  obtain ⟨chain, self, timeouts, instant, base, _, _, _, _, _, hbase, rfl⟩ := hstart
  simp only [withSigner, bind_eq_ok, pure_eq_ok] at hbase
  obtain ⟨c, -, rfl⟩ := hbase
  exact intact_of_none rfl rfl

/-- In every run whose round changes bring along only blocks with the hash of their contents,
the block behind the valid value has the hash of its contents, now and later. -/
theorem validBlock_intact_of_reached {validators : List Validator} {rt₀ : ConsensusRuntime}
    (hstart : Prepared validators rt₀) (hrun : Reached BringsIntact rt₀ rt)
    (hlater : Reached BringsIntact rt rt') :
    (∀ b, rt.validBlock = some b → b.hash = b.calculateHash) ∧
      ∀ b', rt'.validBlock = some b' → b'.hash = b'.calculateHash := by
  have h := (intact_prepared hstart).reached hrun
  exact ⟨fun b hb => h b (.inl hb), fun b hb => h.reached hlater b (.inl hb)⟩

end

end ConsensusRuntime

namespace Quartet

open ConsensusRuntime

attribute [local instance] timeoutsCrypto

/-- The contents changed, the hash kept. -/
def alteredBlock : Block := { emptyBlock with timestamp := 6 }

/-- The round change of the second validator as a relay passes it on. The signature still
holds. -/
def relayed : SignedRoundChange :=
  { gaveUp 0 with validValue := some { lockedValue 0 with block := alteredBlock } }

/-- What the node checks of a round change, in a state with the same ground and round. -/
theorem checks_congr {rt rt' : ConsensusRuntime} (hground : SameGround rt rt')
    (hcore : rt.consensus.SameCore rt'.consensus) (hvalidators : rt'.validators = rt.validators)
    (m : SignedRoundChange) (v : RoundChangeValidValue) :
    rt'.checkRoundChange m = rt.checkRoundChange m ∧
      rt'.checkRoundChangeValue env m v = rt.checkRoundChangeValue env m v ∧
      rt'.consensus.checkValidValue v.block.hash v.validRound v.prevotes =
        rt.consensus.checkValidValue v.block.hash v.validRound v.prevotes := by
  refine ⟨?_, ?_, ?_⟩
  · unfold ConsensusRuntime.checkRoundChange isValidator
    rw [hground.chain, hcore.height, hcore.round, hvalidators]
  · unfold ConsensusRuntime.checkRoundChangeValue
    rw [hground.chain, hground.verdict]
  · unfold BftConsensus.checkValidValue BftConsensus.prevoteRule
    rw [hcore.height, hcore.validators, hcore.totalPower]

/-- What the relay changed passes the checks of the fresh node as well. -/
theorem checkRoundChangeValue_relayed {rt : ConsensusRuntime} (h : started = .ok rt) :
    rt.checkRoundChangeValue env relayed { lockedValue 0 with block := alteredBlock } = .ok () := by
  obtain ⟨hchain, -, hschedule, -, -⟩ := started_spec h
  have hvalid : rt.validateScheduledBlock (some 10) alteredBlock = .ok () := by
    refine ConsensusRuntime.validateScheduledBlock_eq_ok.2 ⟨?_, 10, rfl, ?_, ?_, ?_, ?_, ?_⟩
    · rw [hchain]
      exact Nat.zero_le _
    · have hdrift : 6 ≤ saturatingAdd u64Max 10 maxClockDriftSeconds := by decide
      exact hdrift
    · simp [alteredBlock, emptyBlock, Block.new, Block.sealed]
    · intro tx htx
      cases htx
    · rw [EventSchedule.due, hschedule]
      rfl
    · intro e he
      cases he
  simp only [ConsensusRuntime.checkRoundChangeValue, check_bind_eq_ok, reject_eq_ok, hchain]
  refine ⟨lt_irrefl _, ?_, hvalid⟩
  simp [relayed, gaveUp, alteredBlock, emptyBlock, Block.new, Block.sealed]

/-- The altered message passes every check on the node that has the value already. -/
theorem replaces_relayed {rt rt' : ConsensusRuntime} (h : started = .ok rt)
    (hrt' : rt' = (rt.run env (.receiveRoundChange (gaveUp 0))).1) :
    Replaces env rt' relayed { lockedValue 0 with block := alteredBlock } := by
  have hcase := receiveRoundChange_gaveUp h (Nat.zero_le 1)
  rw [← hrt'] at hcase
  obtain ⟨hground, hmachine, -, -⟩ := filed_ground (rt.adopting (lockedValue 0)) (gaveUp 0)
  have hframe := (frame_pruneRoundChanges
    ((rt.adopting (lockedValue 0)).recordRoundChange (gaveUp 0))).1
  rw [← hcase] at hground hmachine hframe
  have hcore : rt.consensus.SameCore rt'.consensus := by
    rw [hmachine]
    exact rt.consensus.sameCore_adoptValidValue emptyBlock.hash 0 (lockedValue 0).prevotes
  have hsame : SameGround rt rt' := ⟨hcore.height, hground.chain, hground.verdict⟩
  obtain ⟨hchecked, hfits, hquorum⟩ := checks_congr hsame hcore hframe.validators relayed
    { lockedValue 0 with block := alteredBlock }
  refine ⟨rfl, ?_, ?_, ?_, .inr ?_⟩
  · rw [hchecked]
    exact checkRoundChange_gaveUp h (Nat.zero_le 1)
  · rw [hfits]
    exact checkRoundChangeValue_relayed h
  · rw [hquorum]
    exact checkValidValue_locked h 0
  · rw [hmachine]
    exact (adopting_locked h 0).1

/-- A relay replaces the block behind the valid value by one that the quorum did not vote for. -/
theorem relay_replaces_validBlock : ∃ rt₀ rt rt' b b', Prepared members rt₀ ∧
    Reached (fun _ _ _ => True) rt₀ rt ∧ Reached (fun _ _ _ => True) rt rt' ∧
    rt.validBlock = some b ∧ b.hash = b.calculateHash ∧
    rt'.validBlock = some b' ∧ b'.hash ≠ b'.calculateHash := by
  obtain ⟨rt₀, h⟩ := started_ok
  obtain ⟨rt, hrt⟩ : ∃ rt, rt = (rt₀.run env (.receiveRoundChange (gaveUp 0))).1 := ⟨_, rfl⟩
  obtain ⟨-, hvalid, -, -, -⟩ := state_gaveUp h (Nat.zero_le 1) hrt
  have hfirst : Reached (fun _ _ _ => True) rt₀ rt :=
    reached_call trivial hrt.symm
  have hvalid' := validBlock_of_replaces (replaces_relayed h hrt)
  have hsecond : Reached (fun _ _ _ => True) rt
      (rt.perform env (.call (.receiveRoundChange relayed))) :=
    .single (.inl ⟨env, _, trivial, rfl⟩)
  have haltered : alteredBlock.hash ≠ alteredBlock.calculateHash := by decide +kernel
  exact ⟨rt₀, rt, _, emptyBlock, alteredBlock, prepared h, hfirst, hsecond, hvalid,
    Block.new_hash .., hvalid', haltered⟩

/-- The value of the second validator, as it was sent. -/
theorem validBlock_intact_of_reached_gaveUp : ∃ rt₀ rt, Prepared members rt₀ ∧
    Reached BringsIntact rt₀ rt ∧ rt.validBlock = some emptyBlock ∧
    ∀ b, rt.validBlock = some b → b.hash = b.calculateHash := by
  obtain ⟨rt₀, h⟩ := started_ok
  obtain ⟨rt, hrt⟩ : ∃ rt, rt = (rt₀.run env (.receiveRoundChange (gaveUp 0))).1 := ⟨_, rfl⟩
  obtain ⟨-, hvalid, -, -, -⟩ := state_gaveUp h (Nat.zero_le 1) hrt
  have hbrings : BringsIntact env rt₀ (.call (.receiveRoundChange (gaveUp 0))) := by
    intro v hreplaces
    cases hreplaces.carried
    exact Block.new_hash ..
  have hrun : Reached BringsIntact rt₀ rt := reached_call hbrings hrt.symm
  exact ⟨rt₀, rt, prepared h, hrun, hvalid,
    (validBlock_intact_of_reached (prepared h) hrun .refl).1⟩

end Quartet

end IeumChain
