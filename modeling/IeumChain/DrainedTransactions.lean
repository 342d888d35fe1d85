import IeumChain.LoopSteps
import IeumChain.Outflow
import IeumChain.PoolPlaces

/-!
# What becomes of drained transactions

A transaction that a proposer has taken out of its pool is with the candidate, in a
finalized block or back in the pool. A step of the loop can lose it: a round change drops
the candidate without putting its transactions back, a cached block goes out in place of the
drained one, and a candidate that the chain refuses is forgotten.
-/
namespace IeumChain

open Outcome MachineWords FiniteMap

namespace ConsensusRuntime

/-- The valid value that the node has to propose again, with a proof of its prevotes. -/
def Reproposes (rt : ConsensusRuntime) (b : Block) : Prop :=
  rt.validBlock = some b ∧ ∃ round, rt.consensus.validPair = some (b.hash, round) ∧
    (rt.consensus.prevoteCertificate b.hash round ≠ [] ∨ rt.validRoundPrevotes ≠ [])

theorem proposalContent_cases {rt : ConsensusRuntime} {block : Block}
    {content : Block × Option ℕ × List ConsensusMessage}
    (h : rt.proposalContent block = .ok content) : content.1 = block ∨ rt.Reproposes content.1 := by
  unfold proposalContent at h
  cases hvalid : rt.validBlock with
  | none =>
      cases hpair : rt.consensus.validPair with
      | none =>
          rw [hvalid, hpair] at h
          cases h
          exact .inl rfl
      | some pair =>
          rw [hvalid, hpair] at h
          cases h
  | some b =>
      cases hpair : rt.consensus.validPair with
      | none =>
          rw [hvalid, hpair] at h
          cases h
          exact .inl rfl
      | some pair =>
          obtain ⟨hash, round⟩ := pair
          rw [hvalid, hpair] at h
          dsimp only at h
          split_ifs at h with hhash hnone hproof
          · cases h
            exact .inr ⟨hvalid, round, hhash ▸ hpair, .inr hproof⟩
          · cases h
            exact .inr ⟨hvalid, round, hhash ▸ hpair, .inl (hhash ▸ hnone)⟩

section
variable [Crypto]
variable {rt : ConsensusRuntime} {env : Env} {tx : Transaction} {block : Block}

/-- A node that proposes is at the start of its round, and puts forward the given block or a valid
one. -/
theorem makeProposal_ok {proposal : SignedProposal}
    (h : (rt.makeProposal env block).2 = .ok proposal) :
    rt.consensus.phase = .propose ∧
      (proposal.block = block ∨ rt.Reproposes proposal.block) := by
  unfold makeProposal at h
  cases hprepared : rt.prepareProposal block with
  | error e =>
      rw [hprepared] at h
      cases h
  | ok content =>
      rw [hprepared] at h
      simp only [prepareProposal, check_bind_eq_ok, reject_eq_ok, not_not] at hprepared
      obtain ⟨hphase, -, hcontent⟩ := hprepared
      have hblock := proposalContent_cases hcontent
      obtain ⟨b, validRound, prevotes⟩ := content
      dsimp only [sign] at h
      cases hsign : env.sign _ with
      | error e =>
          rw [hsign] at h
          cases h
      | ok signature =>
          rw [hsign] at h
          dsimp only at h
          obtain ⟨u, -, rfl⟩ := map_eq_ok.1 h
          exact ⟨hphase, hblock⟩

theorem Steady.makeProposal (h : Steady rt) (env : Env) (block : Block) :
    Steady (rt.makeProposal env block).1 := by
  rcases rt.makeProposal_cases env block with hsame | ⟨_, _, _, _, _, hrecord⟩
  · rw [hsame]
    exact h
  · rw [hrecord]
    exact h.record _

theorem finalized_makeProposal (rt : ConsensusRuntime) (env : Env) (block : Block) :
    (rt.makeProposal env block).1.finalized = rt.finalized := by
  rcases rt.makeProposal_cases env block with hsame | ⟨_, _, _, _, _, hrecord⟩
  · rw [hsame]
  · rw [hrecord]
    rfl

theorem Steady.feedBack (h : Steady rt) (env : Env) (reply : Option ConsensusMessage) :
    Steady (rt.feedBack env reply).1 := by
  cases reply with
  | none => exact h
  | some precommit =>
      have hreceived := h.receiveVote env precommit
      unfold ConsensusRuntime.feedBack
      dsimp only
      generalize rt.receiveVote env precommit = received at *
      obtain ⟨rt₁, result⟩ := received
      cases result with
      | error e => exact hreceived
      | ok reply => exact hreceived

theorem carries_feedBack_ok {reply : Option ConsensusMessage} (h : rt.Carries tx)
    (hok : (rt.feedBack env reply).2 = .ok ()) : (rt.feedBack env reply).1.Carries tx := by
  cases reply with
  | none => exact h
  | some precommit =>
      have hreceived : ∀ reply, (rt.receiveVote env precommit).2 = .ok reply →
          (rt.receiveVote env precommit).1.Carries tx := fun _ => carries_receiveVote_ok h
      unfold feedBack at hok ⊢
      dsimp only at hok ⊢
      generalize rt.receiveVote env precommit = received at *
      obtain ⟨rt₁, result⟩ := received
      cases result with
      | error e => cases hok
      | ok reply => exact hreceived reply rfl

/-- The node hears its own prevote for a proposal, and then the precommit it may answer with. -/
theorem kept_ownVotes {rt' rt'' : ConsensusRuntime} {prevote : ConsensusMessage}
    {reply : Option ConsensusMessage} (h : Steady rt)
    (hvoted : rt.receiveVote env prevote = (rt', .ok reply))
    (hfed : rt'.feedBack env reply = (rt'', .ok ())) :
    Steady rt'' ∧ ∀ tx, rt.Carries tx → rt''.Carries tx := by
  have hsteady := h.receiveVote env prevote
  rw [hvoted] at hsteady
  have hsteady' := hsteady.feedBack env reply
  rw [hfed] at hsteady'
  refine ⟨hsteady', fun tx hcarries => ?_⟩
  have hcarries' := carries_receiveVote_ok hcarries (congrArg Prod.snd hvoted)
  rw [hvoted] at hcarries'
  have hcarries'' := carries_feedBack_ok hcarries' (congrArg Prod.snd hfed)
  rwa [hfed] at hcarries''

theorem carries_advanceAfterFinalization (hsteady : Steady rt) (h : rt.Carries tx) :
    (rt.advanceAfterFinalization env).1.Carries tx := by
  rcases rt.advanceAfterFinalization_cases env with hcase | ⟨hphase, hcase⟩
  · rw [hcase]
    exact h
  · rw [hcase]
    have hnone := hsteady.vacant (.inr hphase)
    obtain ⟨hframe, -⟩ := rt.openNextHeight_cases env
    rcases h with hcandidate | ⟨c, hc, htx⟩
    · obtain ⟨b, hb, -⟩ := ConsensusRuntime.mem_pendingTransactions.1 hcandidate
      cases hb.symm.trans hnone
    · exact .inr ⟨c, hframe.finalized ▸ hc, htx⟩

end

end ConsensusRuntime

namespace NodeLoop

section
variable [Crypto]

/-- The candidate, a finalized block or the pool holds the transaction. -/
def Holds (n : NodeLoop) (tx : Transaction) : Prop :=
  n.consensus.Carries tx ∨ tx ∈ n.rpc.pool.transactions

/-- Only the candidate holds the transaction. -/
def HeldByCandidate (n : NodeLoop) (tx : Transaction) : Prop :=
  tx ∈ n.consensus.pendingTransactions ∧ ¬n.consensus.HasIncluded tx ∧
    tx ∉ n.rpc.pool.transactions

structure Steady (n : NodeLoop) : Prop where
  consensus : n.consensus.Steady
  pool : n.rpc.pool.Working

/-! ## What a step does with transactions -/

/-- What the step offers to the pool. -/
def offered (settings : NodeSettings) (n : NodeLoop) : Env × NodeEvent → List Transaction
  | (env, .timeoutTick) =>
      if n.timesOut settings env then
        n.consensus.pendingTransactions.filter (RpcState.transactionIsAdmissible n.rpc.chain)
      else []
  | (_, .submitted tx) => [tx]
  | (_, .transactionReceived tx) => [tx].filter (RpcState.transactionIsAdmissible n.rpc.chain)
  | _ => []

/-- What the proposer takes out of the pool. -/
def drained (settings : NodeSettings) (n : NodeLoop) (env : Env) (due : DueEvents) :
    List Transaction :=
  if !settings.isClient && settings.localIsValidator && (n.prepared due).isDue env due then
    (n.rpc.drainTransactions 1000).2
  else []

/-- No other transaction comes into the way of this one in the pool. -/
def Undisturbed (settings : NodeSettings) (tx : Transaction) (n : NodeLoop)
    (step : Env × NodeEvent) : Prop :=
  ¬Mempool.AtSomeOffer (fun pool => pool.Disturbs tx) n.rpc.pool (n.offered settings step)

/-- The step does not lose the transaction. No proposal ever replaces a candidate. -/
def Retains (settings : NodeSettings) (tx : Transaction) (n : NodeLoop) : Env × NodeEvent → Prop
  | (env, .timeoutTick) =>
      n.consensus.HasIncluded tx ∨ n.Undisturbed settings tx (env, .timeoutTick)
  | (env, .proposerTick due) => tx ∈ n.drained settings env due →
      ∀ b, n.consensus.Reproposes b → tx ∈ b.transactions
  | (env, .submitted t) => n.consensus.Carries tx ∨ n.Undisturbed settings tx (env, .submitted t)
  | (env, .transactionReceived t) =>
      n.consensus.Carries tx ∨ n.Undisturbed settings tx (env, .transactionReceived t)
  | (_, .proposalReceived _) => True
  | (_, .consensusReceived message) => n.HeldByCandidate tx →
      ∀ b, n.consensus.pending = some b → (∃ next, n.consensus.chain.applyBlock b = .ok next) ∨
        ¬n.consensus.consensus.Enough (n.consensus.precommitsInSight message b)
  | (env, .roundChangeReceived message) =>
      n.HeldByCandidate tx → ¬n.consensus.CallsAway env message

/-- The chain no longer admits the transaction after the step, or the limits of the pool refuse it
in the step. -/
def Excuses (settings : NodeSettings) (tx : Transaction) (n : NodeLoop) (step : Env × NodeEvent) :
    Prop :=
  (∃ n', n.handle settings step = .ok n' ∧
      RpcState.transactionIsAdmissible n'.rpc.chain tx = false) ∨
    Mempool.AtSomeOffer (fun pool => pool.Crowds tx) n.rpc.pool (n.offered settings step)

variable {settings : NodeSettings} {n n' : NodeLoop} {env : Env} {tx : Transaction}

/-! ## Finalized blocks -/

theorem installed {certificates : List FinalityCertificate} {rpc : RpcState} {c : Blockchain}
    (h : rpc.pool.Working) :
    (certificates.foldl (fun rpc _ => rpc.installFinalized c) rpc).pool.Working ∧
      (∀ tx ∈ rpc.pool.transactions, RpcState.transactionIsAdmissible c tx = true →
        tx ∈ (certificates.foldl (fun rpc _ => rpc.installFinalized c) rpc).pool.transactions) ∧
      (certificates ≠ [] →
        (certificates.foldl (fun rpc _ => rpc.installFinalized c) rpc).chain = c) := by
  induction certificates generalizing rpc with
  | nil => exact ⟨h, fun _ htx _ => htx, fun hne => absurd rfl hne⟩
  | cons certificate rest ih =>
      have hworking : (rpc.installFinalized c).pool.Working := h.retainValid _
      obtain ⟨hlater, hkept, hchain⟩ := ih hworking
      refine ⟨hlater, fun tx htx hadmissible => hkept tx ?_ hadmissible, fun _ => ?_⟩
      · obtain ⟨hfiltered, -⟩ := h.sound.retainValid h.bounded h.bytes fun tx =>
          c.nextNonce tx.sender ≤ tx.nonce ∧ RpcState.covers c tx ∧ (verifyTransaction tx).isOk
        simp only [RpcState.transactionIsAdmissible, decide_eq_true_eq] at hadmissible
        obtain ⟨hnonce, hverified, hcovered⟩ := hadmissible
        rw [RpcState.installFinalized, hfiltered]
        exact List.mem_filter.2 ⟨htx, decide_eq_true ⟨hnonce, hcovered, hverified⟩⟩
      · cases rest with
        | nil => rfl
        | cons next rest => exact hchain (List.cons_ne_nil _ _)

/-- A finalized block takes transactions out of the pool only by making them inadmissible. -/
theorem kept_finalizeIfReady (hsteady : n.Steady) (hok : n.finalizeIfReady env = .ok n') :
    n'.Steady ∧ ∀ tx, n.Holds tx →
      n'.Holds tx ∨ RpcState.transactionIsAdmissible n'.rpc.chain tx = false := by
  have htaken : n.consensus.takeFinalized.1.Steady := hsteady.consensus.congr rfl rfl rfl rfl
  have hcarries : ∀ tx, n.consensus.Carries tx → n.consensus.takeFinalized.1.Carries tx :=
    fun _ h => h.congr rfl fun _ => id
  unfold finalizeIfReady at hok
  generalize n.consensus.takeFinalized = taken at *
  obtain ⟨rt, certificates⟩ := taken
  cases certificates with
  | nil =>
      cases hok
      exact ⟨⟨htaken, hsteady.pool⟩, fun tx h => .inl (h.imp_left (hcarries tx))⟩
  | cons certificate rest =>
      have hadvanced := htaken.advanceAfterFinalization env
      have hstill : ∀ tx, rt.Carries tx → (rt.advanceAfterFinalization env).1.Carries tx :=
        fun _ h => ConsensusRuntime.carries_advanceAfterFinalization htaken h
      obtain ⟨hworking, hkept, hchain⟩ :=
        @installed _ (certificate :: rest) n.rpc rt.chain hsteady.pool
      dsimp only at hok
      generalize rt.advanceAfterFinalization env = advanced at *
      obtain ⟨rt', result⟩ := advanced
      cases result with
      | error e => cases hok
      | ok u =>
          cases hok
          refine ⟨⟨hadvanced, hworking⟩, fun tx h => ?_⟩
          rcases h with hplace | htx
          · exact .inl (.inl (hstill tx (hcarries tx hplace)))
          · cases hadmissible : RpcState.transactionIsAdmissible rt.chain tx with
            | true => exact .inl (.inr (hkept tx htx hadmissible))
            | false =>
                refine .inr ?_
                dsimp only
                rw [hchain (List.cons_ne_nil _ _)]
                exact hadmissible

/-! ## Ticks -/

/-- Restored transactions find a place or are refused with a reason. -/
theorem mem_restored {rpc : RpcState} {txs : List Transaction} (h : rpc.pool.Working)
    (htx : tx ∈ rpc.pool.transactions ∨ tx ∈ txs)
    (hundisturbed : ¬Mempool.AtSomeOffer (fun pool => pool.Disturbs tx) rpc.pool
      (txs.filter (RpcState.transactionIsAdmissible rpc.chain))) :
    tx ∈ (rpc.restoreTransactions txs).pool.transactions ∨
      RpcState.transactionIsAdmissible rpc.chain tx = false ∨
      Mempool.AtSomeOffer (fun pool => pool.Crowds tx) rpc.pool
        (txs.filter (RpcState.transactionIsAdmissible rpc.chain)) := by
  by_cases hadmissible : RpcState.transactionIsAdmissible rpc.chain tx = true
  · have hplace : tx ∈ rpc.pool.transactions ∨
        tx ∈ txs.filter (RpcState.transactionIsAdmissible rpc.chain) :=
      htx.imp_right fun hmem => List.mem_filter.2 ⟨hmem, hadmissible⟩
    exact (h.mem_offers hplace hundisturbed).imp_right .inr
  · exact .inr (.inl (Bool.eq_false_iff.2 hadmissible))

theorem kept_timeoutTick (hsteady : n.Steady) (hok : n.timeoutTick settings env = .ok n') :
    n'.Steady ∧ ∀ tx, n.Holds tx → n.Retains settings tx (env, .timeoutTick) →
      n'.Holds tx ∨ n.Excuses settings tx (env, .timeoutTick) := by
  rcases (timeoutTick_cases hok).1 with ⟨⟨deadline, hconsensus⟩, hrpc⟩ | ⟨hdue, hconsensus, hrpc⟩
  · refine ⟨⟨?_, ?_⟩, fun tx h _ => .inl ?_⟩
    · rw [hconsensus]
      exact hsteady.consensus.congr rfl rfl rfl rfl
    · rw [hrpc]
      exact hsteady.pool
    · rw [Holds, hconsensus, hrpc]
      exact h.imp_left fun hplace => hplace.congr rfl fun _ => id
  · obtain ⟨deadline, hawakened⟩ := n.awakened_eq env
    have hready : (n.awakened env).Steady := by
      rw [hawakened]
      exact hsteady.consensus.congr rfl rfl rfl rfl
    refine ⟨⟨?_, ?_⟩, fun tx h hretains => ?_⟩
    · rw [hconsensus]
      exact hready.timeout env env.instant
    · rw [hrpc]
      exact hsteady.pool.offers _
    · have hfinalized : n'.consensus.finalized = n.consensus.finalized := by
        rw [hconsensus, ConsensusRuntime.finalized_timeout, hawakened]
      have hincluded : n.consensus.HasIncluded tx → n'.Holds tx :=
        fun h => .inl (.inr (h.of_finalized hfinalized))
      have hoffered : n.offered settings (env, .timeoutTick) =
          n.consensus.pendingTransactions.filter (RpcState.transactionIsAdmissible n.rpc.chain) :=
        if_pos hdue
      rcases hretains with hincluded' | hundisturbed
      · exact .inl (hincluded hincluded')
      · rw [Undisturbed, hoffered] at hundisturbed
        have hwaits : (tx ∈ n.rpc.pool.transactions ∨ tx ∈ n.consensus.pendingTransactions) ∨
            n.consensus.HasIncluded tx := by
          rcases h with (hplace | hplace) | hplace
          · exact .inl (.inr hplace)
          · exact .inr hplace
          · exact .inl (.inl hplace)
        rcases hwaits with hwaits | hincluded'
        · rcases mem_restored hsteady.pool hwaits hundisturbed with hback | hrefused | hcrowded
          · refine .inl (.inr ?_)
            rw [hrpc]
            exact hback
          · refine .inr (.inl ⟨n', hok, ?_⟩)
            rw [hrpc]
            exact hrefused
          · refine .inr (.inr ?_)
            rw [hoffered]
            exact hcrowded
        · exact .inl (hincluded hincluded')

/-- What was drained is back in the pool, or the chain does not admit it. -/
theorem kept_putBack {rpc : RpcState} {rt : ConsensusRuntime} (hpool : rpc.pool.Working)
    (h : rt.HasIncluded tx ∨ tx ∈ rpc.pool.transactions) :
    rt.Carries tx ∨
      tx ∈ ((rpc.drainTransactions 1000).1.restoreTransactions
        (rpc.drainTransactions 1000).2).pool.transactions ∨
      RpcState.transactionIsAdmissible rpc.chain tx = false := by
  rcases h with hincluded | hplace
  · exact .inl (.inr hincluded)
  · refine .inr ?_
    have hback : ((rpc.drainTransactions 1000).1.restoreTransactions
        (rpc.drainTransactions 1000).2).pool.transactions =
        (rpc.pool.drain 1000).1.transactions ++
          (rpc.pool.drain 1000).2.filter (RpcState.transactionIsAdmissible rpc.chain) :=
      hpool.putBack 1000 _
    rw [hback, List.mem_append, List.mem_filter]
    rcases List.mem_append.1 ((Mempool.drained_perm rpc.pool 1000).symm.subset hplace) with
      hrest | hdrained
    · exact .inl (.inl hrest)
    · cases hadmissible : RpcState.transactionIsAdmissible rpc.chain tx with
      | true => exact .inl (.inr ⟨hdrained, rfl⟩)
      | false => exact .inr rfl

theorem kept_propose {due : DueEvents} (hsteady : n.Steady)
    (hok : n.propose settings env due = .ok n') :
    n'.Steady ∧ ∀ tx, n.Holds tx →
      (tx ∈ (n.rpc.drainTransactions 1000).2 →
        ∀ b, n.consensus.Reproposes b → tx ∈ b.transactions) →
      n.consensus.consensus.phase = .propose →
      n'.Holds tx ∨ RpcState.transactionIsAdmissible n'.rpc.chain tx = false := by
  have hrest : (n.rpc.drainTransactions 1000).1.pool.Working := hsteady.pool.drain 1000
  -- No candidate waits when a node proposes.
  have hplaces : ∀ tx, n.Holds tx → n.consensus.consensus.phase = .propose →
      n.consensus.HasIncluded tx ∨ tx ∈ n.rpc.pool.transactions := by
    rintro tx ((hcandidate | hincluded) | hplace) hphase
    · obtain ⟨b, hb, -⟩ := ConsensusRuntime.mem_pendingTransactions.1 hcandidate
      cases hb.symm.trans (hsteady.consensus.vacant (.inl hphase))
    · exact .inl hincluded
    · exact .inr hplace
  have hmade := hsteady.consensus.makeProposal env
    (n.newBlock env due (n.rpc.drainTransactions 1000).2)
  have hfinalized := n.consensus.finalized_makeProposal env
    (n.newBlock env due (n.rpc.drainTransactions 1000).2)
  rcases propose_cases hok with ⟨hconsensus, hrpc, -⟩ |
    ⟨p, rt, prevote, rt', reply, rt'', nextBlockAt, hp, hheard, hvoted, hfed, hfinal⟩
  · have hafter : n'.consensus.Steady ∧ n'.consensus.finalized = n.consensus.finalized := by
      rcases hconsensus with hconsensus | ⟨p, hconsensus⟩
      · rw [hconsensus]
        exact ⟨hmade, hfinalized⟩
      · rw [hconsensus]
        exact ⟨hmade.receiveProposal env p,
          (ConsensusRuntime.finalized_receiveProposal _ env p).trans hfinalized⟩
    refine ⟨⟨hafter.1, ?_⟩, fun tx h _ hphase => ?_⟩
    · rw [hrpc]
      exact hrest.offers _
    · have hplace : n'.consensus.HasIncluded tx ∨ tx ∈ n.rpc.pool.transactions :=
        (hplaces tx h hphase).imp_left (.of_finalized hafter.2)
      rw [Holds, hrpc, or_assoc]
      exact kept_putBack hsteady.pool hplace
  · have hheld := hmade.receiveProposal env p
    have hcandidate := ConsensusRuntime.pending_of_reply (congrArg Prod.snd hheard)
    have hbefore := (ConsensusRuntime.finalized_receiveProposal _ env p).trans hfinalized
    rw [hheard] at hheld hcandidate hbefore
    obtain ⟨hcounted, hcarries⟩ := ConsensusRuntime.kept_ownVotes hheld hvoted hfed
    obtain ⟨hsteady', hkept⟩ := kept_finalizeIfReady ⟨hcounted, hrest⟩ hfinal
    refine ⟨hsteady', fun tx h hretains hphase => hkept tx ?_⟩
    rcases hplaces tx h hphase with hincluded | hplace
    · exact .inl (hcarries tx (.inr (.of_finalized hbefore hincluded)))
    · rcases List.mem_append.1 ((Mempool.drained_perm n.rpc.pool 1000).symm.subset hplace) with
        hleft | hdrained
      · exact .inr hleft
      · refine .inl (hcarries tx (.inl ?_))
        refine ConsensusRuntime.mem_pendingTransactions.2 ⟨p.block, hcandidate, ?_⟩
        rcases (ConsensusRuntime.makeProposal_ok hp).2 with hblock | hvalid
        · rw [hblock]
          exact hdrained
        · exact hretains hdrained p.block hvalid

theorem kept_proposerTick {due : DueEvents} (hsteady : n.Steady)
    (hok : n.proposerTick settings env due = .ok n') :
    n'.Steady ∧ ∀ tx, n.Holds tx → n.Retains settings tx (env, .proposerTick due) →
      n'.Holds tx ∨ n.Excuses settings tx (env, .proposerTick due) := by
  obtain ⟨validatorPeerIds, hprepared⟩ := n.prepared_eq due
  have hready : (n.prepared due).Steady := by
    rw [hprepared]
    exact ⟨hsteady.consensus.congr rfl rfl rfl rfl, hsteady.pool⟩
  have hholds : ∀ tx, n.Holds tx → (n.prepared due).Holds tx := by
    rw [hprepared]
    exact fun _ h => h.imp_left fun hplace => hplace.congr rfl fun _ => id
  have htick : n.handle settings (env, .proposerTick due) = .ok n' := hok
  unfold proposerTick at hok
  split_ifs at hok with hpart
  · simp only [check_bind_eq_ok] at hok
    obtain ⟨-, hok⟩ := hok
    split_ifs at hok with hdue
    · obtain ⟨hsteady', hkept⟩ := kept_propose hready hok
      refine ⟨hsteady', fun tx h hretains => ?_⟩
      have hphase : (n.prepared due).consensus.consensus.phase = .propose := by
        simp only [isDue, ConsensusRuntime.canMakeProposal, Bool.and_eq_true,
          decide_eq_true_eq] at hdue
        exact hdue.1.1.1
      have hdrained : n.drained settings env due = (n.rpc.drainTransactions 1000).2 := by
        rw [drained, hpart, hdue]
        rfl
      have hretained : tx ∈ ((n.prepared due).rpc.drainTransactions 1000).2 →
          ∀ b, (n.prepared due).consensus.Reproposes b → tx ∈ b.transactions := by
        intro htx b hb
        rw [hprepared] at htx hb
        refine hretains ?_ b hb
        rw [hdrained]
        exact htx
      exact (hkept tx (hholds tx h) hretained hphase).imp_right fun hrefused =>
        .inl ⟨n', htick, hrefused⟩
    · cases hok
      exact ⟨hready, fun tx h _ => .inl (hholds tx h)⟩
  · cases hok
    exact ⟨hsteady, fun _ h _ => .inl h⟩

/-! ## Messages -/

theorem kept_proposalReceived {p : SignedProposal} (hsteady : n.Steady)
    (hok : n.proposalReceived env p = .ok n') :
    n'.Steady ∧ ∀ tx, n.Holds tx →
      n'.Holds tx ∨ RpcState.transactionIsAdmissible n'.rpc.chain tx = false := by
  have hheld := hsteady.consensus.receiveProposal env p
  have hcarries := fun tx (h : n.consensus.Carries tx) =>
    ConsensusRuntime.carries_receiveProposal hsteady.consensus h env p
  rcases proposalReceived_cases hok with rfl | ⟨rt, prevote, rt', reply, rt'', hheard, hvoted,
    hfollowed, hfinal⟩
  · exact ⟨⟨hheld, hsteady.pool⟩, fun tx h => .inl (h.imp_left fun hplace => (hcarries tx hplace).1)⟩
  · rw [hheard] at hheld hcarries
    have hcounted := hheld.receiveVote env prevote
    rw [hvoted] at hcounted
    have hreplayed : (rt'.followUp env reply).1.Steady := hcounted.followUp reply
    rw [hfollowed] at hreplayed
    have hready : Steady { n with consensus := rt'' } := ⟨hreplayed, hsteady.pool⟩
    obtain ⟨hsteady', hkept⟩ := kept_finalizeIfReady hready hfinal
    refine ⟨hsteady', fun tx h => hkept tx (h.imp_left fun hplace => ?_)⟩
    obtain ⟨c, hc, htx⟩ := (hcarries tx hplace).2 prevote rfl
    have hc' := ConsensusRuntime.mem_finalized_receiveVote hc env prevote
    rw [hvoted] at hc'
    have hc'' : c ∈ (rt'.followUp env reply).1.finalized :=
      (ConsensusRuntime.finalizedReplay env c).followUp hc' fun _ _ => trivial
    rw [hfollowed] at hc''
    exact .inr ⟨c, hc'', htx⟩

theorem kept_consensusReceived {message : ConsensusMessage} (hsteady : n.Steady)
    (hok : n.consensusReceived env message = .ok n') :
    n'.Steady ∧ ∀ tx, n.Holds tx → n.Retains settings tx (env, .consensusReceived message) →
      n'.Holds tx ∨ RpcState.transactionIsAdmissible n'.rpc.chain tx = false := by
  have hafter : (n.consensus.consensusReceived env message).1.Steady :=
    hsteady.consensus.consensusReceived message
  have hplace : ∀ tx, n.Holds tx → n.Retains settings tx (env, .consensusReceived message) →
      (n.consensus.consensusReceived env message).1.Carries tx ∨ tx ∈ n.rpc.pool.transactions := by
    intro tx h hretains
    by_cases hpool : tx ∈ n.rpc.pool.transactions
    · exact .inr hpool
    · refine .inl ?_
      by_cases hincluded : n.consensus.HasIncluded tx
      · obtain ⟨c, hc, htx⟩ := hincluded
        exact .inr ⟨c, (ConsensusRuntime.finalizedReplay env c).consensusReceived hc trivial, htx⟩
      · have hcarries := h.resolve_right hpool
        exact ConsensusRuntime.carries_consensusReceived hsteady.consensus hcarries fun b hb _ =>
          hretains ⟨hcarries.resolve_right hincluded, hincluded, hpool⟩ b hb
  unfold consensusReceived at hok
  generalize n.consensus.consensusReceived env message = received at *
  obtain ⟨rt, result⟩ := received
  cases result with
  | error e => cases hok
  | ok u =>
      dsimp only at hok hafter hplace
      have htaken : rt.takeEvidence.1.Steady := hafter.sameCore (by constructor <;> rfl)
      have hready : Steady { n with consensus := rt.takeEvidence.1 } := ⟨htaken, hsteady.pool⟩
      obtain ⟨hsteady', hkept⟩ := kept_finalizeIfReady hready hok
      refine ⟨hsteady', fun tx h hretains =>
        hkept tx ((hplace tx h hretains).imp_left fun hcarries => ?_)⟩
      exact hcarries.congr rfl fun _ => id

theorem kept_roundChangeReceived {message : SignedRoundChange} (hsteady : n.Steady) :
    let n' : NodeLoop :=
      { n with consensus := (n.consensus.receiveRoundChange env message).1 }
    n'.Steady ∧ ∀ tx, n.Holds tx → n.Retains settings tx (env, .roundChangeReceived message) →
      n'.Holds tx := by
  refine ⟨⟨hsteady.consensus.receiveRoundChange env message, hsteady.pool⟩, fun tx h hretains => ?_⟩
  obtain ⟨hframe, -⟩ := n.consensus.receiveRoundChange_cases env message
  by_cases hpool : tx ∈ n.rpc.pool.transactions
  · exact .inr hpool
  · refine .inl ?_
    by_cases hincluded : n.consensus.HasIncluded tx
    · exact .inr (hincluded.of_finalized hframe.finalized)
    · have hcandidate := (h.resolve_right hpool).resolve_right hincluded
      have hstays := (n.consensus.pending_receiveRoundChange env message).2
        (hretains ⟨hcandidate, hincluded, hpool⟩)
      refine .inl ?_
      rwa [ConsensusRuntime.pendingTransactions_congr hstays]

/-- A step that only offers transactions to the pool. -/
theorem kept_offered {step : Env × NodeEvent} (hsteady : n.Steady)
    (hconsensus : n'.consensus = n.consensus)
    (hpool : n'.rpc.pool = (n.offered settings step).foldl Mempool.offer n.rpc.pool)
    (h : n.Holds tx) (hretains : n.consensus.Carries tx ∨ n.Undisturbed settings tx step) :
    n'.Holds tx ∨ n.Excuses settings tx step := by
  rcases h with hcarries | hplace
  · exact .inl (.inl (hconsensus ▸ hcarries))
  · rcases hretains with hcarries | hundisturbed
    · exact .inl (.inl (hconsensus ▸ hcarries))
    · rcases hsteady.pool.mem_offers (.inl hplace) hundisturbed with hkept | hcrowded
      · exact .inl (.inr (hpool ▸ hkept))
      · exact .inr (.inr hcrowded)

/-! ## Runs -/

theorem kept_handle {step : Env × NodeEvent} (hsteady : n.Steady)
    (hok : n.handle settings step = .ok n') :
    n'.Steady ∧ ∀ tx, n.Holds tx → n.Retains settings tx step →
      n'.Holds tx ∨ n.Excuses settings tx step := by
  have hexcused : ∀ tx, n'.Holds tx ∨ RpcState.transactionIsAdmissible n'.rpc.chain tx = false →
      n'.Holds tx ∨ n.Excuses settings tx step :=
    fun _ h => h.imp_right fun hrefused => .inl ⟨n', hok, hrefused⟩
  obtain ⟨env, event⟩ := step
  cases event with
  | timeoutTick => exact kept_timeoutTick hsteady hok
  | proposerTick due => exact kept_proposerTick hsteady hok
  | submitted t =>
      cases hok
      exact ⟨⟨hsteady.consensus, hsteady.pool.offer t⟩, fun _ => kept_offered hsteady rfl rfl⟩
  | transactionReceived t =>
      cases hok
      exact ⟨⟨hsteady.consensus, hsteady.pool.offers _⟩, fun _ => kept_offered hsteady rfl rfl⟩
  | proposalReceived p =>
      unfold handle at hok
      dsimp only at hok
      split_ifs at hok
      · obtain ⟨hsteady', hkept⟩ := kept_proposalReceived hsteady hok
        exact ⟨hsteady', fun tx h _ => hexcused tx (hkept tx h)⟩
      · cases hok
        exact ⟨hsteady, fun _ h _ => .inl h⟩
  | consensusReceived message =>
      unfold handle at hok
      dsimp only at hok
      split_ifs at hok
      · obtain ⟨hsteady', hkept⟩ := @kept_consensusReceived _ settings n n' env message hsteady hok
        exact ⟨hsteady', fun tx h hretains => hexcused tx (hkept tx h hretains)⟩
      · cases hok
        exact ⟨hsteady, fun _ h _ => .inl h⟩
  | roundChangeReceived message =>
      unfold handle at hok
      dsimp only at hok
      split_ifs at hok
      · cases hok
        obtain ⟨hsteady', hkept⟩ := @kept_roundChangeReceived _ settings n env message hsteady
        exact ⟨hsteady', fun tx h hretains => .inl (hkept tx h hretains)⟩
      · cases hok
        exact ⟨hsteady, fun _ h _ => .inl h⟩

theorem Steady.run {events : List (Env × NodeEvent)} (hsteady : n.Steady)
    (hrun : n.run settings events = .ok n') : n'.Steady :=
  foldlM_invariant (fun _ _ _ _ h hok => (kept_handle h hok).1) hsteady hrun

/-- A node at the start of its loop: it has read its certificates, and its pool is empty. -/
def Started (validators : List Validator) (n : NodeLoop) : Prop :=
  (∃ rt certificates, ConsensusRuntime.Prepared validators rt ∧
      n.consensus = (rt.importCertificateHistory certificates).1) ∧
    n.rpc.pool = Mempool.default ∧ n.rpc.chain = n.consensus.chain

theorem Started.steady {validators : List Validator} (h : Started validators n)
    (hpower : listedPower validators ≤ u64Max) : n.Steady := by
  obtain ⟨⟨rt, certificates, hprepared, hconsensus⟩, hpool, -⟩ := h
  have hsteady := ConsensusRuntime.steady_prepared hprepared hpower
  obtain ⟨finalized, himported⟩ := rt.importCertificateHistory_eq certificates
  refine ⟨?_, ?_⟩
  · rw [hconsensus, himported]
    exact hsteady.congr rfl rfl rfl rfl
  · rw [hpool]
    exact Mempool.working_default

end

end NodeLoop

/-! A validator proposes the transfer that it was given. Then two others call it into the next
round. -/

namespace Quartet

open ConsensusRuntime NodeLoop

local instance drainedCrypto : Crypto := StandIn.crypto StandIn.digest

def funded : Except String ConsensusRuntime :=
  withSigner Sample.chain members (StandIn.address 1) ⟨1, 1, 1⟩ 0

section
variable {rt : ConsensusRuntime} {n₁ n₂ n₃ : NodeLoop}

end

end Quartet

end IeumChain
