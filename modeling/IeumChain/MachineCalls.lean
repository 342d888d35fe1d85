import IeumChain.Precommits
import IeumChain.ValidRounds

/-!
# The node as a caller of its voting machine

Every operation of a node is a sequence of calls on its machine, or replaces the machine
by a new one. An invariant of the machine therefore holds in every run of the node.
-/
namespace IeumChain

open Outcome MachineWords FiniteMap

namespace ConsensusRuntime

open BftConsensus (Run Input)

section
variable [Crypto] {rt rt' : ConsensusRuntime} {env : Env}

/-- The machine has been called any number of times. -/
def Calls : BftConsensus → BftConsensus → Prop := Run fun _ _ => True

theorem calls_one (c : BftConsensus) (input : Input) : Calls c (c.after input) :=
  .single ⟨input, trivial, rfl⟩

theorem calls_of_eq {c c' : BftConsensus} (h : c' = c) : Calls c c' := by
  rw [h]
  exact .refl

theorem calls_startRound {c c' : BftConsensus} {result : Except String Unit} {height round : ℕ}
    (h : c.startRound height round = (c', result)) : Calls c c' := by
  have hone := calls_one c (.startRound height round)
  simp only [BftConsensus.after, h] at hone
  exact hone

theorem calls_receiveVote (rt : ConsensusRuntime) (env : Env) (vote : ConsensusMessage) :
    Calls rt.consensus (rt.receiveVote env vote).1.consensus := by
  have hone := calls_one rt.consensus (.handle vote)
  unfold receiveVote
  simp only [BftConsensus.after] at hone
  generalize rt.consensus.handle vote = handled at hone
  obtain ⟨c, result⟩ := handled
  cases result with
  | error e => exact hone
  | ok u =>
      obtain ⟨hafter, -, -, -⟩ := (rt.counted env vote c).afterVote_frame env
      obtain ⟨-, hcounted, -⟩ := frame_counted rt env vote c
      unfold counted at hafter hcounted
      dsimp only
      rw [hafter, hcounted]
      exact hone

theorem calls_receiveProposal (rt : ConsensusRuntime) (env : Env) (p : SignedProposal) :
    Calls rt.consensus (rt.receiveProposal env p).1.consensus := by
  have hone := calls_one rt.consensus (.handleProposal p)
  unfold receiveProposal
  cases rt.checkProposedBlock env p.block with
  | error e => exact .refl
  | ok u =>
      simp only [BftConsensus.after] at hone
      generalize rt.consensus.handleProposal p = handled at hone
      obtain ⟨c, result⟩ := handled
      cases result with
      | error e => exact hone
      | ok u =>
          dsimp only
          rw [signVote_fst]
          exact hone

theorem calls_adoptRoundChangeValue (rt : ConsensusRuntime) (env : Env) (m : SignedRoundChange) :
    Calls rt.consensus (rt.adoptRoundChangeValue env m).1.consensus := by
  unfold adoptRoundChangeValue
  cases m.validValue with
  | none => exact .refl
  | some v =>
      dsimp only
      cases rt.checkRoundChangeValue env m v with
      | error e => exact .refl
      | ok u =>
          have hone := calls_one rt.consensus
            (.adoptValidValue v.block.hash v.validRound v.prevotes)
          simp only [BftConsensus.after] at hone
          generalize rt.consensus.adoptValidValue v.block.hash v.validRound v.prevotes = adopted
            at hone
          obtain ⟨c, result⟩ := adopted
          cases result with
          | error e => exact hone
          | ok u =>
              dsimp only
              split_ifs <;> exact hone

theorem calls_receiveRoundChange (rt : ConsensusRuntime) (env : Env) (m : SignedRoundChange) :
    Calls rt.consensus (rt.receiveRoundChange env m).1.consensus := by
  cases hcheck : rt.checkRoundChange m with
  | error e =>
      unfold receiveRoundChange
      rw [hcheck]
      exact .refl
  | ok u =>
      have hcalls := rt.calls_adoptRoundChangeValue env m
      cases hadopt : rt.adoptRoundChangeValue env m with
      | mk rt₁ result =>
          rw [hadopt] at hcalls
          cases result with
          | error e =>
              unfold receiveRoundChange
              rw [hcheck, hadopt]
              exact hcalls
          | ok u =>
              obtain ⟨-, hmachine, -, -⟩ := filed_ground rt₁ m
              rcases receiveRoundChange_adopted hcheck hadopt with
                ⟨target, -, -, hcase⟩ | ⟨-, hcase, -⟩
              · rw [hcase]
                refine hcalls.trans ?_
                dsimp only
                rw [← hmachine]
                generalize (rt₁.recordRoundChange m).pruneRoundChanges = rt₂
                unfold jumpToRound
                cases hstart : rt₂.consensus.startRound m.height target with
                | mk c result =>
                    have hone := calls_startRound hstart
                    cases result with
                    | error e => exact hone
                    | ok u => exact hone
              · rw [hcase]
                exact hcalls.trans (calls_of_eq hmachine)

theorem calls_leaveTimedOutRound (rt : ConsensusRuntime) (now : ℕ) (m : SignedRoundChange) :
    Calls rt.consensus (rt.leaveTimedOutRound now m).1.consensus := by
  have hone := calls_one rt.consensus .onTimeout
  unfold leaveTimedOutRound
  split_ifs
  · simp only [BftConsensus.after] at hone
    generalize rt.consensus.onTimeout = left at hone
    obtain ⟨c, result⟩ := left
    cases result with
    | error e => exact hone
    | ok u => exact hone
  · exact .refl

theorem calls_timeout (rt : ConsensusRuntime) (env : Env) (now : ℕ) :
    Calls rt.consensus (rt.timeoutIfDueWithRoundChange env now).1.consensus := by
  by_cases hdue : now < rt.deadline ∨ rt.consensus.phase = .finalized
  · unfold timeoutIfDueWithRoundChange
    rw [if_pos hdue]
    exact .refl
  · rw [timeout_due hdue]
    cases env.sign _ with
    | error e => exact .refl
    | ok signature =>
        dsimp only
        cases (rt.recordRoundChangeRequest.ownRoundChange signature).verify with
        | error e => exact .refl
        | ok u =>
            have hreceived : Calls rt.consensus _ :=
              rt.recordRoundChangeRequest.calls_receiveRoundChange env
                (rt.recordRoundChangeRequest.ownRoundChange signature)
            dsimp only
            generalize rt.recordRoundChangeRequest.receiveRoundChange env _ = received at hreceived
            obtain ⟨rt₁, result⟩ := received
            cases result with
            | error e => exact hreceived
            | ok moved => exact hreceived.trans (rt₁.calls_leaveTimedOutRound now _)

theorem calls_openNextHeight (rt : ConsensusRuntime) (env : Env) :
    Calls rt.consensus (rt.openNextHeight env).1.consensus := by
  unfold openNextHeight
  cases hstart : rt.consensus.startRound (rt.chain.tipHeight + 1) 0 with
  | mk c result =>
      have hone := calls_startRound hstart
      cases result with
      | error e => exact hone
      | ok u => exact hone

theorem calls_applySyncCertificates (rt : ConsensusRuntime) (env : Env)
    (certificates : List FinalityCertificate) :
    Calls rt.consensus (rt.applySyncCertificates env certificates).1.consensus := by
  obtain ⟨rt₁, n, hsynced, ⟨hcase, -⟩ | ⟨-, hcase⟩⟩ := rt.applySyncCertificates_cases env certificates
  · rw [hcase]
    exact calls_of_eq hsynced.consensus
  · rw [hcase]
    exact (calls_of_eq hsynced.consensus).trans (rt₁.calls_openNextHeight env)

theorem callsReplay (env : Env) (c : BftConsensus) :
    ReplayRule env (fun rt => Calls c rt.consensus) (fun _ _ => True) (fun _ _ => True) where
  receive _ v h _ := h.trans (calls_receiveVote _ env v)
  keep _ _ _ _ _ _ := trivial
  keepSent _ _ _ _ _ _ := trivial
  reply _ _ _ _ _ _ := ⟨trivial, trivial⟩
  deferred _ _ _ _ := trivial
  store _ _ h _ := h
  storeKeep _ _ _ _ := trivial
  storeSent _ _ _ _ := trivial

theorem calls_run (rt : ConsensusRuntime) (env : Env) (call : Call) :
    Calls rt.consensus (rt.run env call).1.consensus := by
  cases call with
  | makeProposal block =>
      rcases rt.makeProposal_cases env block with hcase | ⟨_, _, _, _, _, hcase⟩
      · simp only [run, hcase]
        exact .refl
      · simp only [run, hcase]
        exact .refl
  | receiveProposal p => exact rt.calls_receiveProposal env p
  | receiveVote vote => exact rt.calls_receiveVote env vote
  | deferVote vote =>
      refine calls_of_eq ?_
      simp only [run, deferVote]
      split_ifs <;> rfl
  | replayDeferredVotes => exact ((callsReplay env rt.consensus).replay .refl).1
  | receiveRoundChange m => exact rt.calls_receiveRoundChange env m
  | timeoutIfDueWithRoundChange now => exact rt.calls_timeout env now
  | applySyncCertificates certificates => exact rt.calls_applySyncCertificates env certificates
  | advanceAfterFinalization =>
      rcases rt.advanceAfterFinalization_cases env with hcase | ⟨-, hcase⟩
      · simp only [run, hcase]
        exact .refl
      · simp only [run, hcase]
        exact rt.calls_openNextHeight env
  | restartPhaseTimeout now => exact .refl
  | takeEvidence => exact calls_one rt.consensus .takeEvidence
  | takeFinalized => exact .refl

/-- What an operation does to the machine. -/
theorem calls_perform (rt : ConsensusRuntime) (env : Env) (op : Operation) :
    Calls rt.consensus (rt.perform env op).consensus ∨
      ∃ validators c, op = .replaceBootstrapValidators validators ∧
        BftConsensus.new validators = .ok c ∧
        (rt.perform env op).consensus = c.enterRound 1 0 := by
  cases op with
  | call call => exact .inl (rt.calls_run env call)
  | timeoutIfDue now => exact .inl (rt.calls_timeout env now)
  | forceTimeoutForTest => exact .inl (calls_one rt.consensus .onTimeout)
  | applySyncBatch blocks =>
      obtain ⟨chain, hcase, -⟩ := applySyncBatch_grown env blocks rt 0
      simp only [perform, hcase]
      exact .inl .refl
  | importCertificateHistory certificates =>
      obtain ⟨finalized, hcase⟩ := rt.importCertificateHistory_eq certificates
      simp only [perform, hcase]
      exact .inl .refl
  | installCertifiedSnapshot snapshot certificate =>
      left
      simp only [perform, installCertifiedSnapshot]
      cases rt.restoreSnapshot snapshot certificate with
      | error e => exact .refl
      | ok restored =>
          cases restored with
          | none => exact .refl
          | some chain =>
              dsimp only
              cases hstart : rt.consensus.startRound (snapshot.height + 1) 0 with
              | mk c result =>
                  have hone := calls_startRound hstart
                  cases result with
                  | error e => exact hone
                  | ok u => exact hone
  | replaceBootstrapValidators validators =>
      rcases rt.replaceBootstrapValidators_cases env validators with hcase | ⟨-, -, c, hnew, hcase⟩
      · simp only [perform, hcase]
        exact .inl .refl
      · simp only [perform, hcase]
        exact .inr ⟨validators, c, rfl, hnew, rfl⟩
  | configure => exact .inl .refl

/-- A property of new machines that every call preserves holds in every run of the node. -/
theorem machine_invariant {P : BftConsensus → Prop}
    (hnew : ∀ validators c, BftConsensus.new validators = .ok c → P c)
    (hafter : ∀ c input, P c → P (c.after input)) {validators : List Validator}
    {rt₀ : ConsensusRuntime} (hstart : Prepared validators rt₀)
    {allowed : Env → ConsensusRuntime → Operation → Prop} (hrun : Reached allowed rt₀ rt) :
    P rt.consensus := by
  have hcalls : ∀ c c', Calls c c' → P c → P c' := by
    intro c c' h hc
    induction h with
    | refl => exact hc
    | tail _ hstep ih =>
        obtain ⟨input, -, rfl⟩ := hstep
        exact hafter _ input ih
  have hentered : ∀ validators c height, BftConsensus.new validators = .ok c → 0 < height →
      P (c.enterRound height 0) := by
    intro validators c height hc hheight
    have hzero : c.height < height := by
      simp only [BftConsensus.new, check_bind_eq_ok] at hc
      simp only [bind_eq_ok, pure_eq_ok] at hc
      obtain ⟨-, powers, -, rfl⟩ := hc
      exact hheight
    exact hcalls c _ (calls_startRound (BftConsensus.startRound_of_le (.inl hzero)))
      (hnew validators c hc)
  induction hrun with
  | refl =>
      obtain ⟨chain, self, timeouts, instant, base, _, _, _, _, _, hbase, rfl⟩ := hstart
      simp only [withSigner, bind_eq_ok, pure_eq_ok] at hbase
      obtain ⟨c, hc, rfl⟩ := hbase
      exact hentered validators c _ hc (Nat.succ_pos _)
  | tail _ hstep ih =>
      rcases hstep with ⟨env, op, -, rfl⟩ | ⟨votes, rfl⟩
      · rcases calls_perform _ env op with hcalled | ⟨validators', c, -, hc, hreplaced⟩
        · exact hcalls _ _ hcalled ih
        · rw [hreplaced]
          exact hentered validators' c 1 hc Nat.one_pos
      · exact ih

end

end ConsensusRuntime

end IeumChain
