import IeumChain.Candidates

/-!
# The steps of the main loop

What the handlers of the loop do with the consensus state and with the state behind the
interface, case by case.
-/
namespace IeumChain

open Outcome MachineWords FiniteMap

namespace NodeLoop

theorem observeTip_eq (settings : NodeSettings) (n : NodeLoop) (env : Env) :
    ∃ observedTipHeight nextBlockAt,
      n.observeTip settings env = { n with observedTipHeight, nextBlockAt } := by
  unfold observeTip
  split_ifs
  · exact ⟨_, _, rfl⟩
  · exact ⟨n.observedTipHeight, n.nextBlockAt, rfl⟩

theorem awakened_eq (n : NodeLoop) (env : Env) :
    ∃ deadline, n.awakened env = { n.consensus with deadline } := by
  unfold awakened
  split_ifs
  · exact ⟨n.consensus.deadline, rfl⟩
  · exact ⟨_, rfl⟩

theorem prepared_eq (n : NodeLoop) (due : DueEvents) :
    ∃ validatorPeerIds,
      n.prepared due = { n with consensus := { n.consensus with validatorPeerIds } } := by
  unfold prepared
  cases due.validatorPeerIds with
  | none => exact ⟨n.consensus.validatorPeerIds, rfl⟩
  | some validatorPeerIds => exact ⟨validatorPeerIds, rfl⟩

section
variable [Crypto] {settings : NodeSettings} {n n' : NodeLoop} {env : Env}

/-- Whether a tick leaves the round. -/
def timesOut (settings : NodeSettings) (n : NodeLoop) (env : Env) : Bool :=
  n.consensusIsActive settings && (n.awakened env).deadline ≤ env.instant

theorem timeoutTick_cases (hok : n.timeoutTick settings env = .ok n') :
    ((∃ deadline, n'.consensus = { n.consensus with deadline }) ∧ n'.rpc = n.rpc ∨
      n.timesOut settings env = true ∧
        n'.consensus = ((n.awakened env).timeoutIfDueWithRoundChange env env.instant).1 ∧
        n'.rpc = n.rpc.restoreTransactions n.consensus.pendingTransactions) ∧
      n'.progress = n.progress := by
  obtain ⟨tip, next, htip⟩ := n.observeTip_eq settings env
  obtain ⟨deadline, hawakened⟩ := n.awakened_eq env
  have hactive : consensusIsActive settings
      { n with observedTipHeight := tip, nextBlockAt := next } = n.consensusIsActive settings := rfl
  have hsame : awakened { n with observedTipHeight := tip, nextBlockAt := next } env =
      n.awakened env := rfl
  unfold timeoutTick at hok
  rw [htip] at hok
  dsimp only at hok
  rw [hactive, hsame] at hok
  split_ifs at hok with hisActive
  · have hdue := fun roundChange => @ConsensusRuntime.deadline_le_of_left _ (n.awakened env) env env.instant
      roundChange
    have hnot := fun roundChange => @ConsensusRuntime.timeout_not_due _ (n.awakened env) env
      env.instant roundChange
    generalize (n.awakened env).timeoutIfDueWithRoundChange env env.instant = left at *
    obtain ⟨rt, result⟩ := left
    cases result with
    | error e => cases hok
    | ok answer =>
        obtain ⟨timedOut, roundChange⟩ := answer
        cases timedOut with
        | true =>
            cases hok
            refine ⟨.inr ⟨?_, rfl, rfl⟩, rfl⟩
            rw [timesOut, hisActive, Bool.true_and]
            exact decide_eq_true (hdue roundChange rfl)
        | false =>
            cases hok
            exact ⟨.inl ⟨⟨deadline, (hnot roundChange rfl).trans hawakened⟩, rfl⟩, rfl⟩
  · cases hok
    exact ⟨.inl ⟨⟨n.consensus.deadline, rfl⟩, rfl⟩, rfl⟩

/-- Either the proposal does not come about and the transactions go back, or the node has counted
its own votes for the proposal. -/
theorem propose_cases {due : DueEvents} (hok : n.propose settings env due = .ok n') :
    let made := n.consensus.makeProposal env (n.newBlock env due (n.rpc.drainTransactions 1000).2)
    (n'.consensus = made.1 ∨ ∃ p, n'.consensus = (made.1.receiveProposal env p).1) ∧
        n'.rpc = (n.rpc.drainTransactions 1000).1.restoreTransactions
          (n.rpc.drainTransactions 1000).2 ∧ n'.progress = n.progress ∨
      ∃ p rt prevote rt' reply rt'' nextBlockAt, made.2 = .ok p ∧
        made.1.receiveProposal env p = (rt, .ok prevote) ∧
        rt.receiveVote env prevote = (rt', .ok reply) ∧
        rt'.feedBack env reply = (rt'', .ok ()) ∧
        { n with
          consensus := rt'', rpc := (n.rpc.drainTransactions 1000).1
          nextBlockAt }.finalizeIfReady env = .ok n' := by
  unfold propose at hok
  dsimp only at hok ⊢
  generalize n.consensus.makeProposal env _ = made at *
  obtain ⟨rt₁, result⟩ := made
  cases result with
  | error e =>
      cases hok
      exact .inl ⟨.inl rfl, rfl, rfl⟩
  | ok p =>
      dsimp only at hok ⊢
      cases hheard : rt₁.receiveProposal env p with
      | mk rt result =>
          rw [hheard] at hok
          cases result with
          | error e =>
              cases hok
              exact .inl ⟨.inr ⟨p, by rw [hheard]⟩, rfl, rfl⟩
          | ok prevote =>
              dsimp only at hok
              cases hvoted : rt.receiveVote env prevote with
              | mk rt' result =>
                  rw [hvoted] at hok
                  cases result with
                  | error e => cases hok
                  | ok reply =>
                      dsimp only at hok
                      cases hfed : rt'.feedBack env reply with
                      | mk rt'' result =>
                          rw [hfed] at hok
                          cases result with
                          | error e => cases hok
                          | ok u =>
                              exact .inr ⟨p, rt, prevote, rt', reply, rt'', _, rfl, hheard, hvoted,
                                hfed, hok⟩

theorem proposalReceived_cases {p : SignedProposal} (hok : n.proposalReceived env p = .ok n') :
    n' = { n with consensus := (n.consensus.receiveProposal env p).1 } ∨
      ∃ rt prevote rt' reply rt'', n.consensus.receiveProposal env p = (rt, .ok prevote) ∧
        rt.receiveVote env prevote = (rt', .ok reply) ∧
        rt'.followUp env reply = (rt'', .ok ()) ∧
        { n with consensus := rt'' }.finalizeIfReady env = .ok n' := by
  unfold proposalReceived at hok
  cases hheard : n.consensus.receiveProposal env p with
  | mk rt result =>
      rw [hheard] at hok
      cases result with
      | error e =>
          cases hok
          exact .inl rfl
      | ok prevote =>
          dsimp only at hok
          cases hvoted : rt.receiveVote env prevote with
          | mk rt' result =>
              rw [hvoted] at hok
              cases result with
              | error e => cases hok
              | ok reply =>
                  dsimp only at hok
                  cases hfollowed : rt'.followUp env reply with
                  | mk rt'' result =>
                      rw [hfollowed] at hok
                      cases result with
                      | error e => cases hok
                      | ok u => exact .inr ⟨rt, prevote, rt', reply, rt'', rfl, hvoted, hfollowed, hok⟩

/-- Without a finalized block the loop goes on as before; otherwise the block is put behind the
interface, and the consensus goes on to the next height. -/
theorem finalizeIfReady_cases (hok : n.finalizeIfReady env = .ok n') :
    n.consensus.pendingFinalized = [] ∧ n' = { n with consensus := n.consensus.takeFinalized.1 } ∨
      n.consensus.pendingFinalized ≠ [] ∧
        n'.consensus = (n.consensus.takeFinalized.1.advanceAfterFinalization env).1 ∧
        n'.rpc = n.consensus.pendingFinalized.foldl
          (fun rpc _ => rpc.installFinalized n.consensus.chain) n.rpc ∧
        n'.progress = n.consensus.pendingFinalized.foldl
          (fun p _ => p.installed n.consensus.chain) n.progress := by
  unfold finalizeIfReady ConsensusRuntime.takeFinalized at *
  cases hpending : n.consensus.pendingFinalized with
  | nil =>
      rw [hpending] at hok
      cases hok
      exact .inl ⟨rfl, rfl⟩
  | cons c rest =>
      rw [hpending] at hok
      dsimp only at hok ⊢
      generalize ConsensusRuntime.advanceAfterFinalization _ env = advanced at *
      obtain ⟨rt, result⟩ := advanced
      cases result with
      | error e => cases hok
      | ok u =>
          cases hok
          exact .inr ⟨List.cons_ne_nil _ _, rfl, rfl, rfl⟩

end

end NodeLoop

end IeumChain
