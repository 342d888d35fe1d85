import IeumChain.Agreement

/-!
# One vote per round and step

The life of one validator process: the calls of its node, the setters, snapshots and
validator sets it takes over, and restarts, which rebuild the node from the stored
chain. The votes of one height, round and step agree as long as the node only starts
over at heights it has not voted at.
-/
namespace IeumChain

open ByteCodec Outcome LockedVoting

/-- A validator process with every vote it has handed out for publication. The record of
signing requests belongs to the key and survives a restart. -/
structure Process where
  node : ConsensusRuntime
  emitted : List ConsensusMessage

namespace Process

inductive Event
  | call (env : Env) (call : ConsensusRuntime.Call)
  | installCertifiedSnapshot (env : Env) (snapshot : StateSnapshot)
      (certificate : SnapshotCertificate)
  | replaceBootstrapValidators (env : Env) (validators : List Validator)
  | configure (eventSchedule : EventSchedule) (validatorInterestPolicy : ValidatorInterest.Policy)
      (holderRewardPolicy : HolderRewards.Policy) (upgradeSchedule : UpgradeSchedule)
      (validatorPeerIds : Finset String)
  | restart (chain : Blockchain) (validators : List Validator) (timeouts : ConsensusTimeouts)
      (instant : ℕ)

section
variable [Crypto]

/-- A restart that fails leaves no process. -/
def step (p : Process) : Event → Except String Process
  | .call env call =>
      let (node, votes) := p.node.run env call
      .ok { node, emitted := p.emitted ++ votes }
  | .installCertifiedSnapshot env snapshot certificate =>
      .ok { p with node := (p.node.installCertifiedSnapshot env snapshot certificate).1 }
  | .replaceBootstrapValidators env validators =>
      .ok { p with node := (p.node.replaceBootstrapValidators env validators).1 }
  | .configure eventSchedule validatorInterestPolicy holderRewardPolicy upgradeSchedule peerIds =>
      .ok { p with
        node := { p.node with
          eventSchedule, validatorInterestPolicy, holderRewardPolicy, upgradeSchedule
          validatorPeerIds := peerIds } }
  | .restart chain validators timeouts instant => do
      let node ← ConsensusRuntime.withSigner chain validators p.node.validator timeouts instant
      pure { p with node := { node with signed := p.node.signed } }

def Started (p : Process) : Prop :=
  p.emitted = [] ∧ ∃ chain validators self timeouts instant,
    ConsensusRuntime.withSigner chain validators self timeouts instant = .ok p.node

/-- Any sequence of events each of which satisfies a condition in the state it meets. -/
inductive Run (allowed : Process → Event → Prop) : Process → Process → Prop
  | refl (p : Process) : Run allowed p p
  | tail {p p' p'' : Process} {e : Event} (h : Run allowed p p') (hallowed : allowed p' e)
      (hstep : p'.step e = .ok p'') : Run allowed p p''

/-- Two votes of one height, round and step are for the same block. -/
def SingleVotes (p : Process) : Prop :=
  ∀ a ∈ p.emitted, ∀ b ∈ p.emitted, a.height = b.height → a.round = b.round →
    a.voteType = b.voteType → a.blockHash = b.blockHash

end

/-- The signer was asked for no vote above the given height. -/
def NoVoteAbove (rt : ConsensusRuntime) (height : ℕ) : Prop :=
  ∀ h round voteType x, .vote h round voteType x ∈ rt.signed → h ≤ height

/-- Starting over is harmless where the node has not voted: a restart above the stored chain, a
validator set taken over at the first block. -/
def ForgetsNoVote (p : Process) : Event → Prop
  | .restart chain _ _ _ => NoVoteAbove p.node chain.tipHeight
  | .replaceBootstrapValidators _ _ =>
      p.node.chain.tipHeight = 0 → p.node.pending = none → NoVoteAbove p.node 0
  | _ => True

/-! ## Every event is a sequence of moves of the voter -/

/-- The voter has kept to one value per round, whatever quorums exist, and everything handed
out was signed. -/
structure Steady (p : Process) : Prop where
  coherent : p.node.Coherent
  consistent : Consistent (fun _ _ _ => True) p.node.Cast p.node.voter
  emitted : ∀ v ∈ p.emitted, p.node.Cast v.content

theorem Steady.singleVotes {p : Process} (h : Steady p) : p.SingleVotes := by
  intro a ha b hb hheight hround _
  exact h.consistent.unique _ _ (h.emitted a ha) (h.emitted b hb) hheight hround

theorem Steady.pastVotes {p : Process} (h : Steady p) : p.node.PastVotes := by
  intro v hv
  rcases h.consistent.past v hv with hlt | ⟨heq, -⟩
  · exact hlt.le
  · exact heq.le

theorem Steady.moves {p : Process} (h : Steady p) {node : ConsensusRuntime}
    {votes : List ConsensusMessage}
    (hmoves : node.Coherent ∧ p.node.Moves (fun _ _ _ => True) node)
    (hvotes : ∀ v ∈ votes, node.Cast v.content) : Steady ⟨node, p.emitted ++ votes⟩ where
  coherent := hmoves.1
  consistent := h.consistent.steps hmoves.2
  emitted v hv := by
    rcases List.mem_append.1 hv with hv | hv
    · exact hmoves.2.log_mono _ (h.emitted v hv)
    · exact hvotes v hv

/-- An event that hands out nothing. -/
theorem Steady.silent {p : Process} (h : Steady p) {node : ConsensusRuntime}
    (hmoves : node.Coherent ∧ p.node.Moves (fun _ _ _ => True) node) :
    Steady { p with node } := by
  have hnext := h.moves hmoves (List.forall_mem_nil _)
  rwa [List.append_nil] at hnext

/-- A machine that has just entered its first round. -/
theorem coherent_new {rt : ConsensusRuntime} {validators : List Validator} {c : BftConsensus}
    (hnew : BftConsensus.new validators = .ok c) {tipHeight : ℕ}
    (htip : rt.chain.tipHeight = tipHeight)
    (hconsensus : rt.consensus = c.enterRound (tipHeight + 1) 0) (hpending : rt.pending = none) :
    rt.Coherent ∧ rt.voter = ⟨tipHeight + 1, 0, none, none⟩ := by
  obtain ⟨hphase, hproposal, hvalue, hround, hheight, hzero⟩ :=
    BftConsensus.enterRound_new hnew (tipHeight + 1)
  rw [← hconsensus] at hphase hproposal hvalue hround hheight hzero
  refine ⟨⟨?_, fun _ => hproposal, ?_, ?_, ?_, ?_⟩, ?_⟩
  · simp [hphase]
  · simp [hphase]
  · simp [hvalue, hround]
  · simp [hpending]
  · rw [htip, hheight]
  · simp [ConsensusRuntime.voter, BftConsensus.lockedPair, hproposal, hvalue, hheight, hzero]

/-- A node that starts over above everything it voted for. -/
theorem moves_startOver {rt rt' : ConsensusRuntime} {validators : List Validator}
    {c : BftConsensus} (hnew : BftConsensus.new validators = .ok c) {tipHeight : ℕ}
    (hforget : NoVoteAbove rt tipHeight) (htip : rt'.chain.tipHeight = tipHeight)
    (hconsensus : rt'.consensus = c.enterRound (tipHeight + 1) 0) (hpending : rt'.pending = none)
    (hsigned : rt'.signed = rt.signed) :
    rt'.Coherent ∧ rt.Moves (fun _ _ _ => True) rt' := by
  obtain ⟨hcoherent, hvoter⟩ := coherent_new hnew htip hconsensus hpending
  refine ⟨hcoherent, .silent hsigned ?_⟩
  rw [hvoter]
  refine .freshHeight _ _ fun v hv => ?_
  obtain ⟨voteType, -, hmem⟩ := hv
  exact Nat.lt_succ_of_le (hforget _ _ _ _ hmem)

theorem steady_started {p : Process} (h : Started p) : Steady p := by
  obtain ⟨hemitted, chain, validators, self, timeouts, instant, hstart⟩ := h
  simp only [ConsensusRuntime.withSigner, bind_eq_ok, pure_eq_ok] at hstart
  obtain ⟨c, hnew, hnode⟩ := hstart
  have hsigned : p.node.signed = [] := by rw [← hnode]
  obtain ⟨hcoherent, hvoter⟩ : p.node.Coherent ∧
      p.node.voter = ⟨chain.tipHeight + 1, 0, none, none⟩ := by
    rw [← hnode]
    exact coherent_new hnew rfl rfl rfl
  refine ⟨hcoherent, ?_, by simp [hemitted]⟩
  have hlog : p.node.Cast = fun _ => False := by
    funext v
    simp [ConsensusRuntime.Cast, hsigned]
  rw [hlog, hvoter]
  exact consistent_initial ..

section
variable [Crypto]

/-- A replay moves the voter vote by vote, and hands out only what was signed. -/
theorem replayRule (env : Env) (base : ConsensusRuntime) :
    ConsensusRuntime.ReplayRule env
      (fun rt => rt.Coherent ∧ base.Moves (fun _ _ _ => True) rt) (fun _ _ => True)
      fun rt v => rt.Cast v.content := by
  have hmoves : ∀ (rt : ConsensusRuntime) v, rt.Coherent → (rt.receiveVote env v).1.Coherent ∧
      rt.Moves (fun _ _ _ => True) (rt.receiveVote env v).1 := fun rt v hrt =>
    ConsensusRuntime.moves_receiveVote env hrt fun _ _ _ _ _ => trivial
  refine ⟨fun rt v hrt _ => ?_, fun _ _ _ _ _ _ => trivial, fun rt v u hrt _ hu => ?_,
    fun rt v m _ _ hreply => ?_, fun _ _ _ _ => trivial, fun rt votes hrt _ => ?_,
    fun _ _ _ _ => trivial, fun _ _ _ hu => hu⟩
  · exact ⟨(hmoves rt v hrt.1).1, hrt.2.trans (hmoves rt v hrt.1).2⟩
  · exact (hmoves rt v hrt.1).2.log_mono _ hu
  · obtain ⟨-, b, -, -, -, -, -, -, hsigned⟩ := ConsensusRuntime.receiveVote_reply hreply
    exact ⟨trivial, _, rfl, hsigned⟩
  · obtain ⟨hcoherent, hbase⟩ := hrt
    exact ⟨hcoherent.sameCore (.refl _) (fun _ => id) le_rfl, hbase.trans (.of_eq rfl rfl)⟩

theorem Steady.call {p : Process} (h : Steady p) (env : Env) (call : ConsensusRuntime.Call) :
    Steady ⟨(p.node.run env call).1, p.emitted ++ (p.node.run env call).2⟩ := by
  cases call with
  | makeProposal block =>
      exact h.moves (ConsensusRuntime.moves_makeProposal env h.coherent block) (List.forall_mem_nil _)
  | receiveProposal proposal =>
      refine h.moves (ConsensusRuntime.moves_receiveProposal env h.coherent fun _ _ _ => trivial) ?_
      intro v hv
      have hreply : (p.node.receiveProposal env proposal).2 = .ok v := by
        revert hv
        simp only [ConsensusRuntime.run]
        cases (p.node.receiveProposal env proposal).2 <;>
          simp [ConsensusRuntime.repliedVotes, Except.map, eq_comm]
      exact ⟨_, rfl, ConsensusRuntime.receiveProposal_reply hreply⟩
  | receiveVote vote =>
      refine h.moves
        (ConsensusRuntime.moves_receiveVote env h.coherent fun _ _ _ _ _ => trivial) ?_
      intro v hv
      have hreply : (p.node.receiveVote env vote).2 = .ok (some v) := by
        revert hv
        simp only [ConsensusRuntime.run]
        rcases (p.node.receiveVote env vote).2 with e | (_ | m) <;>
          simp [ConsensusRuntime.repliedVotes, eq_comm]
      obtain ⟨-, b, -, -, -, -, -, -, hsigned⟩ := ConsensusRuntime.receiveVote_reply hreply
      exact ⟨_, rfl, hsigned⟩
  | deferVote vote =>
      obtain ⟨hframe, hstayed⟩ := p.node.frame_deferVote vote
      exact h.moves (ConsensusRuntime.moves_stayed h.coherent hframe hstayed) (List.forall_mem_nil _)
  | replayDeferredVotes =>
      obtain ⟨hmoves, hsent⟩ := (replayRule env p.node).replay ⟨h.coherent, .refl⟩
      refine h.moves hmoves ?_
      intro v hv
      revert hv
      simp only [ConsensusRuntime.run]
      cases hresult : (p.node.replayDeferredVotes env).2 with
      | error e => simp
      | ok outbound => exact hsent outbound hresult v
  | receiveRoundChange m =>
      exact h.moves (ConsensusRuntime.moves_receiveRoundChange env h.coherent m)
        (List.forall_mem_nil _)
  | timeoutIfDueWithRoundChange now =>
      exact h.moves (ConsensusRuntime.moves_timeout env h.coherent now) (List.forall_mem_nil _)
  | applySyncCertificates certificates =>
      exact h.moves (ConsensusRuntime.moves_applySyncCertificates env h.coherent h.pastVotes
        certificates) (List.forall_mem_nil _)
  | advanceAfterFinalization =>
      exact h.moves (ConsensusRuntime.moves_advanceAfterFinalization h.coherent h.pastVotes env)
        (List.forall_mem_nil _)
  | restartPhaseTimeout now =>
      exact h.moves (ConsensusRuntime.moves_sameCore h.coherent (.refl _) (fun _ => id) rfl rfl)
        (List.forall_mem_nil _)
  | takeEvidence =>
      exact h.moves (ConsensusRuntime.moves_sameCore h.coherent (by constructor <;> rfl)
        (fun _ => id) rfl rfl) (List.forall_mem_nil _)
  | takeFinalized =>
      exact h.moves (ConsensusRuntime.moves_sameCore h.coherent (.refl _) (fun _ => id) rfl rfl)
        (List.forall_mem_nil _)

theorem Steady.installCertifiedSnapshot {p : Process} (h : Steady p) (env : Env)
    (snapshot : StateSnapshot) (certificate : SnapshotCertificate) :
    Steady { p with node := (p.node.installCertifiedSnapshot env snapshot certificate).1 } := by
  refine h.silent ?_
  rcases p.node.installCertifiedSnapshot_cases env snapshot certificate with
    hcase | ⟨hlt, htip, hsigned, ⟨hconsensus, hpending⟩ | ⟨hconsensus, hpending, -⟩⟩
  · rw [hcase]
    exact ⟨h.coherent, .refl⟩
  · refine ⟨h.coherent.sameCore (by rw [hconsensus]; exact .refl _) ?_ (by rw [htip]; exact hlt.le),
      .of_eq hsigned (by rw [ConsensusRuntime.voter, hconsensus]; rfl)⟩
    rw [hpending]
    exact fun _ => id
  · refine ⟨h.coherent.enterRound hconsensus hpending (by rw [htip]),
      .freshHeight h.pastVotes hconsensus hsigned ?_⟩
    have := h.coherent.heightLe
    omega

/-- Every event that does not make the node start over below one of its votes keeps the
invariant. -/
theorem Steady.step {p p' : Process} (h : Steady p) {e : Event} (hforget : ForgetsNoVote p e)
    (hstep : p.step e = .ok p') : Steady p' := by
  cases e with
  | call env call =>
      cases hstep
      exact h.call env call
  | installCertifiedSnapshot env snapshot certificate =>
      cases hstep
      exact h.installCertifiedSnapshot env snapshot certificate
  | replaceBootstrapValidators env validators =>
      cases hstep
      refine h.silent ?_
      rcases p.node.replaceBootstrapValidators_cases env validators with
        hcase | ⟨htip, hpending, c, hnew, hcase⟩
      · rw [hcase]
        exact ⟨h.coherent, .refl⟩
      · rw [hcase]
        exact moves_startOver hnew (hforget htip hpending) htip rfl rfl rfl
  | configure =>
      cases hstep
      exact h.silent (ConsensusRuntime.moves_sameCore h.coherent (.refl _) (fun _ => id) rfl rfl)
  | restart chain validators timeouts instant =>
      simp only [Process.step, bind_eq_ok, pure_eq_ok] at hstep
      obtain ⟨node, hnode, rfl⟩ := hstep
      simp only [ConsensusRuntime.withSigner, bind_eq_ok, pure_eq_ok] at hnode
      obtain ⟨c, hnew, rfl⟩ := hnode
      exact h.silent (moves_startOver hnew hforget rfl rfl rfl rfl)

/-- In every run in which the node never starts over below one of its votes, the votes it hands
out never contradict each other. -/
theorem singleVotes_of_run {p p' : Process} (hstart : Started p) (hrun : Run ForgetsNoVote p p') :
    SingleVotes p' := by
  suffices h : Steady p' from h.singleVotes
  induction hrun with
  | refl => exact steady_started hstart
  | tail _ hforget hstep ih => exact ih.step hforget hstep

end

end Process

namespace Lone

local instance equivocationCrypto : Crypto := StandIn.crypto StandIn.digest

/-- Another block for the same place in the chain. -/
def laterBlock : Block := Block.new 1 chain.tipHash 6 self []

def propose (b : Block) : Process.Event := .call env (.receiveProposal (proposal b))

def restart : Process.Event := .restart chain validatorSet.validators ⟨1, 1, 1⟩ 0

def process : Process := ⟨node, []⟩

theorem started_process : process.Started := ⟨rfl, chain, _, _, _, _, eq_ok_get started_ok⟩

theorem step_propose {b : Block} (hheight : b.height = 1) (hhash : b.hash = b.calculateHash)
    (hne : b.hash ≠ "") (hblock : node.checkProposedBlock env b = .ok ())
    (signed : List SignedPayload) (emitted : List ConsensusMessage) :
    Process.step ⟨{ node with signed }, emitted⟩ (propose b) =
      .ok ⟨{ proposed b with signed := signed ++ [.vote 1 0 .prevote b.hash] },
        emitted ++ [vote b .prevote]⟩ := by
  have hrun : ConsensusRuntime.run { node with signed } env (.receiveProposal (proposal b)) =
      ({ proposed b with signed := signed ++ [.vote 1 0 .prevote b.hash] }, [vote b .prevote]) := by
    rw [ConsensusRuntime.run, receiveProposal_signed hheight hhash hne hblock]
    rfl
  rw [propose, Process.step, hrun]

/-- A restart keeps nothing but what was signed and handed out. -/
theorem step_restart {rt : ConsensusRuntime} (hvalidator : rt.validator = self)
    (emitted : List ConsensusMessage) :
    Process.step ⟨rt, emitted⟩ restart = .ok ⟨{ node with signed := rt.signed }, emitted⟩ := by
  have hstarted : ConsensusRuntime.withSigner chain validatorSet.validators self ⟨1, 1, 1⟩ 0 =
      .ok node := eq_ok_get started_ok
  rw [restart, Process.step, hvalidator, hstarted]
  rfl

theorem step_block (signed : List SignedPayload) (emitted : List ConsensusMessage) :
    Process.step ⟨{ node with signed }, emitted⟩ (propose block) =
      .ok ⟨{ proposed block with signed := signed ++ [.vote 1 0 .prevote block.hash] },
        emitted ++ [vote block .prevote]⟩ :=
  step_propose rfl (Block.new_hash ..) (by decide +kernel) (by decide +kernel) signed emitted

/-- The process prevotes a block, restarts from the chain it has stored, and prevotes another
block in the same round. -/
theorem restart_equivocates :
    process.Started ∧ ∃ p, Process.Run (fun _ _ => True) process p ∧ ¬p.SingleVotes := by
  have h₁ : process.step (propose block) =
      .ok ⟨proposed block, [vote block .prevote]⟩ := step_block [] []
  have hvalidator : (proposed block).validator = self := node_fields.1
  have h₂ := step_restart hvalidator [vote block .prevote]
  have h₃ := step_propose (b := laterBlock) rfl (Block.new_hash ..) (by decide +kernel)
    (by decide +kernel) (proposed block).signed [vote block .prevote]
  have hne : block.hash ≠ laterBlock.hash := by decide +kernel
  refine ⟨started_process, _,
    ((Process.Run.refl _).tail trivial h₁ |>.tail trivial h₂).tail trivial h₃, ?_⟩
  intro hsingle
  refine hne (hsingle (vote block .prevote) ?_ (vote laterBlock .prevote) ?_ rfl rfl rfl)
  · exact List.mem_cons_self
  · exact List.mem_cons_of_mem _ List.mem_cons_self

/-- A restart before the first vote is harmless. -/
theorem singleVotes_of_run_restart :
    ∃ p, Process.Run Process.ForgetsNoVote process p ∧ p.emitted = [vote block .prevote] ∧
      p.SingleVotes := by
  have hsigned : process.node.signed = [] := rfl
  have hforget : process.ForgetsNoVote restart := by
    intro height round voteType x hmem
    rw [hsigned] at hmem
    cases hmem
  have h₁ : process.step restart = .ok ⟨{ node with signed := [] }, []⟩ :=
    step_restart node_fields.1 []
  have h₂ := step_block [] []
  have hrun := ((Process.Run.refl _).tail hforget h₁).tail (e := propose block) trivial h₂
  exact ⟨_, hrun, rfl, Process.singleVotes_of_run started_process hrun⟩

end Lone

end IeumChain
