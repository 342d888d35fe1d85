import IeumChain.RoundChanges
import IeumChain.ExecutedEvents

/-!
# What stays fixed in a run

A node is set up with validators, a schedule and policies. Apart from the two operations
that set them, no operation changes them, and none takes the node to another chain.
-/
namespace IeumChain

open Outcome MachineWords FiniteMap

/-- What is fixed when a node is set up. -/
structure Settings where
  validators : List Validator
  eventSchedule : EventSchedule
  validatorInterestPolicy : ValidatorInterest.Policy
  holderRewardPolicy : HolderRewards.Policy
  upgradeSchedule : UpgradeSchedule

/-- The second chain has the number and the genesis of the first. -/
def Blockchain.SameGenesis (c c' : Blockchain) : Prop :=
  c'.chainId = c.chainId ∧ c'.genesisCommitment = c.genesisCommitment

theorem Blockchain.SameGenesis.refl (c : Blockchain) : c.SameGenesis c := ⟨rfl, rfl⟩

theorem Blockchain.SameGenesis.trans {a b c : Blockchain} (h : a.SameGenesis b)
    (h' : b.SameGenesis c) : a.SameGenesis c := ⟨h'.1.trans h.1, h'.2.trans h.2⟩

theorem Blockchain.sameGenesis_applyBlock [Crypto] {c c' : Blockchain} {block : Block}
    (h : c.applyBlock block = .ok c') : c.SameGenesis c' := by
  obtain ⟨-, -, -, l, -, rfl⟩ := applyBlock_eq_ok.1 h
  exact ⟨rfl, rfl⟩

namespace ConsensusRuntime

def settings (rt : ConsensusRuntime) : Settings where
  validators := rt.validators
  eventSchedule := rt.eventSchedule
  validatorInterestPolicy := rt.validatorInterestPolicy
  holderRewardPolicy := rt.holderRewardPolicy
  upgradeSchedule := rt.upgradeSchedule

/-- The operation is not one of the two that set up a node. -/
def SetsNothing : Operation → Prop
  | .replaceBootstrapValidators _ => False
  | .configure .. => False
  | _ => True

section
variable [Crypto] {rt rt' : ConsensusRuntime} {env : Env}

theorem settings_afterVote (rt : ConsensusRuntime) (env : Env) :
    (rt.afterVote env).1.settings = rt.settings := by
  rcases rt.afterVote_cases env with hcase | ⟨b, -, -, hcase⟩ | ⟨b, -, -, hcase⟩ |
    ⟨b, chain, -, -, -, -, -, hcase⟩ <;> rw [hcase] <;> rfl

theorem settings_receiveVote (rt : ConsensusRuntime) (env : Env) (vote : ConsensusMessage) :
    (rt.receiveVote env vote).1.settings = rt.settings := by
  rcases rt.receiveVote_cases env vote with ⟨c', e, -, hcase⟩ | ⟨-, -, c₁, -, hcase⟩
  · rw [hcase]
    rfl
  · rw [hcase, settings_afterVote]
    unfold counted collectPrecommit afterPhaseChange resetDeadline
    split_ifs <;> rfl

theorem settings_receiveProposal (rt : ConsensusRuntime) (env : Env) (p : SignedProposal) :
    (rt.receiveProposal env p).1.settings = rt.settings := by
  rcases rt.receiveProposal_cases env p with ⟨c', e, -, hcase⟩ | ⟨-, -, -, hcase⟩ <;> rw [hcase] <;>
    rfl

theorem settings_adoptRoundChangeValue (rt : ConsensusRuntime) (env : Env) (m : SignedRoundChange) :
    (rt.adoptRoundChangeValue env m).1.settings = rt.settings := by
  unfold adoptRoundChangeValue
  split
  · rfl
  · split
    · rfl
    · split
      · rfl
      · dsimp only
        split_ifs <;> rfl

omit [Crypto] in
theorem settings_pruneRoundChanges (rt : ConsensusRuntime) :
    rt.pruneRoundChanges.settings = rt.settings := by
  unfold pruneRoundChanges
  split_ifs
  · split <;> rfl
  · rfl

omit [Crypto] in
theorem settings_jumpToRound (rt : ConsensusRuntime) (env : Env) (height target : ℕ) :
    (rt.jumpToRound env height target).1.settings = rt.settings := by
  unfold jumpToRound
  split <;> rfl

theorem settings_receiveRoundChange (rt : ConsensusRuntime) (env : Env) (m : SignedRoundChange) :
    (rt.receiveRoundChange env m).1.settings = rt.settings := by
  have hadopt := rt.settings_adoptRoundChangeValue env m
  unfold receiveRoundChange
  split
  · rfl
  · generalize rt.adoptRoundChangeValue env m = adopted at hadopt
    obtain ⟨rt₁, result⟩ := adopted
    have hpruned : (rt₁.recordRoundChange m).pruneRoundChanges.settings = rt.settings :=
      (settings_pruneRoundChanges _).trans hadopt
    cases result with
    | error e => exact hadopt
    | ok u =>
        dsimp only
        split
        · exact hpruned
        · split_ifs
          · exact (settings_jumpToRound _ env _ _).trans hpruned
          · exact hpruned

theorem settings_timeout (rt : ConsensusRuntime) (env : Env) (now : ℕ) :
    (rt.timeoutIfDueWithRoundChange env now).1.settings = rt.settings := by
  by_cases hdue : now < rt.deadline ∨ rt.consensus.phase = .finalized
  · unfold timeoutIfDueWithRoundChange
    rw [if_pos hdue]
  · rw [timeout_due hdue]
    split
    · rfl
    · split
      · rfl
      · have hreceived := fun m => rt.recordRoundChangeRequest.settings_receiveRoundChange env m
        split
        · next hcase => exact (congrArg settings (congrArg Prod.fst hcase)).symm.trans (hreceived _)
        · next hcase =>
            have hleft := (congrArg settings (congrArg Prod.fst hcase)).symm.trans (hreceived _)
            refine Eq.trans ?_ hleft
            unfold leaveTimedOutRound
            dsimp only
            split <;> rfl

omit [Crypto] in
theorem settings_openNextHeight (rt : ConsensusRuntime) (env : Env) :
    (rt.openNextHeight env).1.settings = rt.settings := by
  unfold openNextHeight
  split <;> rfl

theorem settings_applySyncCertificates (rt : ConsensusRuntime) (env : Env)
    (certificates : List FinalityCertificate) :
    (rt.applySyncCertificates env certificates).1.settings = rt.settings := by
  obtain ⟨chain, finalized, hloop⟩ := applySyncLoop_eq env certificates rt 0
  unfold applySyncCertificates
  generalize applySyncLoop env certificates rt 0 = result at *
  obtain ⟨rt₁, result⟩ := result
  obtain rfl : rt₁ = _ := hloop
  cases result with
  | error e => rfl
  | ok total =>
      dsimp only
      split_ifs
      · rfl
      · exact settings_openNextHeight _ env

theorem settings_installCertifiedSnapshot (rt : ConsensusRuntime) (env : Env)
    (snapshot : StateSnapshot) (certificate : SnapshotCertificate) :
    (rt.installCertifiedSnapshot env snapshot certificate).1.settings = rt.settings := by
  unfold installCertifiedSnapshot
  split
  · rfl
  · rfl
  · dsimp only
    split <;> rfl

theorem settingsReplay (env : Env) (s : Settings) :
    ReplayRule env (fun rt => rt.settings = s) (fun _ _ => True) (fun _ _ => True) where
  receive _ v h _ := (settings_receiveVote _ env v).trans h
  keep _ _ _ _ _ _ := trivial
  keepSent _ _ _ _ _ _ := trivial
  reply _ _ _ _ _ _ := ⟨trivial, trivial⟩
  deferred _ _ _ _ := trivial
  store _ _ h _ := h
  storeKeep _ _ _ _ := trivial
  storeSent _ _ _ _ := trivial

theorem settings_run (rt : ConsensusRuntime) (env : Env) (call : Call) :
    (rt.run env call).1.settings = rt.settings := by
  cases call with
  | makeProposal block =>
      rcases rt.makeProposal_cases env block with hcase | ⟨_, _, _, _, _, hcase⟩
      · simp only [run, hcase]
      · simp only [run, hcase]
        rfl
  | receiveProposal p => exact rt.settings_receiveProposal env p
  | receiveVote vote => exact rt.settings_receiveVote env vote
  | deferVote vote =>
      simp only [run, deferVote]
      split_ifs <;> rfl
  | replayDeferredVotes => exact ((settingsReplay env rt.settings).replay rfl).1
  | receiveRoundChange m => exact rt.settings_receiveRoundChange env m
  | timeoutIfDueWithRoundChange now => exact rt.settings_timeout env now
  | applySyncCertificates certificates => exact rt.settings_applySyncCertificates env certificates
  | advanceAfterFinalization =>
      rcases rt.advanceAfterFinalization_cases env with hcase | ⟨-, hcase⟩
      · simp only [run, hcase]
      · simp only [run, hcase]
        exact rt.settings_openNextHeight env
  | restartPhaseTimeout now => rfl
  | takeEvidence => rfl
  | takeFinalized => rfl

theorem settings_perform (rt : ConsensusRuntime) (env : Env) {op : Operation}
    (hop : SetsNothing op) : (rt.perform env op).settings = rt.settings := by
  cases op with
  | call call => exact rt.settings_run env call
  | timeoutIfDue now => exact rt.settings_timeout env now
  | forceTimeoutForTest => rfl
  | applySyncBatch blocks =>
      obtain ⟨chain, hcase, -⟩ := applySyncBatch_grown env blocks rt 0
      simp only [perform, hcase]
      rfl
  | importCertificateHistory certificates =>
      obtain ⟨finalized, hcase⟩ := rt.importCertificateHistory_eq certificates
      simp only [perform, hcase]
      rfl
  | installCertifiedSnapshot snapshot certificate =>
      exact rt.settings_installCertifiedSnapshot env snapshot certificate
  | replaceBootstrapValidators => exact hop.elim
  | configure => exact hop.elim

/-- Only one operation replaces the validators. -/
theorem validators_perform (rt : ConsensusRuntime) (env : Env) {op : Operation}
    (hop : ∀ validators, op ≠ .replaceBootstrapValidators validators) :
    (rt.perform env op).validators = rt.validators := by
  by_cases hsets : SetsNothing op
  · exact congrArg Settings.validators (rt.settings_perform env hsets)
  · cases op with
    | replaceBootstrapValidators validators => exact absurd rfl (hop validators)
    | configure => rfl
    | _ => exact absurd trivial hsets

/-! ## The chain of a node -/

/-- No operation takes a node to another chain: blocks are added, and a snapshot is restored
only if it names the same chain. -/
theorem sameGenesis_perform (rt : ConsensusRuntime) (env : Env) (op : Operation) :
    rt.chain.SameGenesis (rt.perform env op).chain := by
  by_cases hop : ∀ snapshot certificate, op ≠ .installCertifiedSnapshot snapshot certificate
  · have hcandidate : rt.Candidate fun _ => True := fun _ _ => trivial
    obtain ⟨hgrown, -⟩ := hcandidate.perform (fun _ _ _ => trivial) hop
    generalize (rt.perform env op).chain = chain at hgrown
    induction hgrown with
    | refl => exact .refl _
    | tail _ hstep ih =>
        obtain ⟨b, -, happly⟩ := hstep
        exact ih.trans (Blockchain.sameGenesis_applyBlock happly)
  · push Not at hop
    obtain ⟨snapshot, certificate, rfl⟩ := hop
    simp only [perform, installCertifiedSnapshot]
    cases hrestored : rt.restoreSnapshot snapshot certificate with
    | error e => exact .refl _
    | ok restored =>
        cases restored with
        | none => exact .refl _
        | some chain =>
            obtain ⟨-, ⟨hchain, hgenesis⟩, -, hfrom, -⟩ := restoreSnapshot_eq_some.1 hrestored
            simp only [Blockchain.fromSnapshotWithStaking, check_bind_eq_ok, pure_eq_ok] at hfrom
            obtain ⟨-, -, rfl⟩ := hfrom
            dsimp only
            split <;> exact ⟨hchain, hgenesis⟩

end

end ConsensusRuntime

end IeumChain
