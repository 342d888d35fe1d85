import IeumChain.Heights
import IeumChain.LoopSteps
import IeumChain.SyncLoop

/-!
# What the interface shows

The loop keeps a chain for the consensus and one behind the interface, and a record of how far
the node is behind. Whatever the loop handles, the two chains are one when it is done, the
record is that of this chain, and the chain never gets shorter.
-/
namespace IeumChain

open Outcome MachineWords FiniteMap

namespace ConsensusRuntime

/-- A chain that differs from the one shown waits to be delivered. -/
structure Shows (shown : Blockchain) (rt : ConsensusRuntime) : Prop where
  chain : rt.pendingFinalized = [] → rt.chain = shown
  higher : shown.tipHeight ≤ rt.chain.tipHeight
  bounded : Bounded rt

section
variable [Crypto] {rt rt' : ConsensusRuntime} {shown : Blockchain} {env : Env}

/-- What is asked of a node changes neither its chain nor what waits to be delivered. -/
theorem Shows.same (h : rt.Shows shown) (call : Call) (hrun : (rt.run env call).1 = rt')
    (hpending : rt'.pendingFinalized = rt.pendingFinalized) (hchain : rt'.chain = rt.chain) :
    rt'.Shows shown := by
  refine ⟨?_, ?_, ?_⟩
  · rw [hpending, hchain]
    exact h.chain
  · rw [hchain]
    exact h.higher
  · rw [← hrun]
    exact (run_tracking h.bounded env call).bounded h.bounded

/-! ## What leaves the blocks to be delivered as they are -/

omit [Crypto] in
theorem pendingFinalized_counted (rt : ConsensusRuntime) (env : Env) (vote : ConsensusMessage)
    (c : BftConsensus) : (rt.counted env vote c).pendingFinalized = rt.pendingFinalized := by
  unfold counted collectPrecommit afterPhaseChange resetDeadline
  split_ifs <;> rfl

theorem pendingFinalized_receiveProposal (rt : ConsensusRuntime) (env : Env) (p : SignedProposal) :
    (rt.receiveProposal env p).1.pendingFinalized = rt.pendingFinalized ∧
      (rt.receiveProposal env p).1.chain = rt.chain := by
  rcases rt.receiveProposal_cases env p with ⟨c', e, -, hcase⟩ | ⟨-, -, -, hcase⟩ <;> rw [hcase] <;>
    exact ⟨rfl, rfl⟩

theorem pendingFinalized_makeProposal (rt : ConsensusRuntime) (env : Env) (block : Block) :
    (rt.makeProposal env block).1.pendingFinalized = rt.pendingFinalized ∧
      (rt.makeProposal env block).1.chain = rt.chain := by
  rcases rt.makeProposal_cases env block with hcase | ⟨_, _, _, _, _, hcase⟩ <;> rw [hcase] <;>
    exact ⟨rfl, rfl⟩

theorem pendingFinalized_adoptRoundChangeValue (rt : ConsensusRuntime) (env : Env)
    (m : SignedRoundChange) :
    (rt.adoptRoundChangeValue env m).1.pendingFinalized = rt.pendingFinalized := by
  unfold adoptRoundChangeValue
  split
  · rfl
  · split
    · rfl
    · split
      · rfl
      · dsimp only
        split_ifs <;> rfl

omit [Crypto] in
theorem pendingFinalized_pruneRoundChanges (rt : ConsensusRuntime) :
    rt.pruneRoundChanges.pendingFinalized = rt.pendingFinalized := by
  unfold pruneRoundChanges
  split_ifs
  · split <;> rfl
  · rfl

omit [Crypto] in
theorem pendingFinalized_jumpToRound (rt : ConsensusRuntime) (env : Env) (height target : ℕ) :
    (rt.jumpToRound env height target).1.pendingFinalized = rt.pendingFinalized := by
  unfold jumpToRound
  split <;> rfl

theorem pendingFinalized_receiveRoundChange (rt : ConsensusRuntime) (env : Env)
    (m : SignedRoundChange) :
    (rt.receiveRoundChange env m).1.pendingFinalized = rt.pendingFinalized := by
  have hadopt := rt.pendingFinalized_adoptRoundChangeValue env m
  unfold receiveRoundChange
  split
  · rfl
  · generalize rt.adoptRoundChangeValue env m = adopted at hadopt
    obtain ⟨rt₁, result⟩ := adopted
    have hpruned : (rt₁.recordRoundChange m).pruneRoundChanges.pendingFinalized =
        rt.pendingFinalized := (pendingFinalized_pruneRoundChanges _).trans hadopt
    cases result with
    | error e => exact hadopt
    | ok u =>
        dsimp only
        split
        · exact hpruned
        · split_ifs
          · exact (pendingFinalized_jumpToRound _ env _ _).trans hpruned
          · exact hpruned

theorem pendingFinalized_timeout (rt : ConsensusRuntime) (env : Env) (now : ℕ) :
    (rt.timeoutIfDueWithRoundChange env now).1.pendingFinalized = rt.pendingFinalized := by
  by_cases hdue : now < rt.deadline ∨ rt.consensus.phase = .finalized
  · unfold timeoutIfDueWithRoundChange
    rw [if_pos hdue]
  · rw [timeout_due hdue]
    split
    · rfl
    · split
      · rfl
      · have hreceived := fun m =>
          rt.recordRoundChangeRequest.pendingFinalized_receiveRoundChange env m
        split
        · next hcase =>
            exact (congrArg pendingFinalized (congrArg Prod.fst hcase)).symm.trans (hreceived _)
        · next hcase =>
            have hleft :=
              (congrArg pendingFinalized (congrArg Prod.fst hcase)).symm.trans (hreceived _)
            refine Eq.trans ?_ hleft
            unfold leaveTimedOutRound
            dsimp only
            split <;> rfl

omit [Crypto] in
theorem pendingFinalized_openNextHeight (rt : ConsensusRuntime) (env : Env) :
    (rt.openNextHeight env).1.pendingFinalized = rt.pendingFinalized := by
  unfold openNextHeight
  split <;> rfl

theorem chain_timeout (rt : ConsensusRuntime) (env : Env) (now : ℕ) :
    (rt.timeoutIfDueWithRoundChange env now).1.chain = rt.chain := by
  obtain ⟨rt₁, hrt₁, hframe, -⟩ := rt.timeoutIfDueWithRoundChange_cases env now
  rw [hframe.chain]
  rcases hrt₁ with rfl | rfl <;> rfl

omit [Crypto] in
theorem chain_advanceAfterFinalization (rt : ConsensusRuntime) (env : Env) :
    (rt.advanceAfterFinalization env).1.pendingFinalized = rt.pendingFinalized ∧
      (rt.advanceAfterFinalization env).1.chain = rt.chain := by
  rcases rt.advanceAfterFinalization_cases env with hcase | ⟨-, hcase⟩
  · rw [hcase]
    exact ⟨rfl, rfl⟩
  · rw [hcase]
    exact ⟨rt.pendingFinalized_openNextHeight env, (rt.openNextHeight_cases env).1.chain⟩

/-! ## What finalizes blocks -/

theorem Shows.receiveVote (h : rt.Shows shown) (env : Env) (vote : ConsensusMessage) :
    (rt.receiveVote env vote).1.Shows shown := by
  have hbounded : Bounded (rt.receiveVote env vote).1 :=
    (run_tracking h.bounded env (.receiveVote vote)).bounded h.bounded
  rcases rt.receiveVote_cases env vote with ⟨c', e, -, hcase⟩ | ⟨-, -, c₁, -, hcase⟩
  · rw [hcase] at hbounded ⊢
    exact ⟨h.chain, h.higher, hbounded⟩
  · rw [hcase] at hbounded ⊢
    obtain ⟨hframe, -, -⟩ := frame_counted rt env vote ((c₁.addVote vote).advancePhase vote)
    have hpending := rt.pendingFinalized_counted env vote ((c₁.addVote vote).advancePhase vote)
    have hchain := h.chain
    have hhigher := h.higher
    rw [← hpending, ← hframe.chain] at hchain
    rw [← hframe.chain] at hhigher
    generalize rt.counted env vote ((c₁.addVote vote).advancePhase vote) = rt₁ at *
    rcases rt₁.afterVote_cases env with hcase | ⟨b, -, -, hcase⟩ | ⟨b, -, -, hcase⟩ |
      ⟨b, chain, -, -, -, -, happly, hcase⟩
    · rw [hcase] at hbounded ⊢
      exact ⟨hchain, hhigher, hbounded⟩
    · rw [hcase] at hbounded ⊢
      exact ⟨hchain, hhigher, hbounded⟩
    · rw [hcase] at hbounded ⊢
      exact ⟨hchain, hhigher, hbounded⟩
    · rw [hcase] at hbounded ⊢
      refine ⟨fun hnone => ?_, ?_, hbounded⟩
      · simp at hnone
      · dsimp only
        rw [Blockchain.tipHeight_applyBlock happly]
        omega

theorem showsReplay (env : Env) (shown : Blockchain) :
    ReplayRule env (Shows shown) (fun _ _ => True) (fun _ _ => True) where
  receive _ v h _ := h.receiveVote env v
  keep _ _ _ _ _ _ := trivial
  keepSent _ _ _ _ _ _ := trivial
  reply _ _ _ _ _ _ := ⟨trivial, trivial⟩
  deferred _ _ _ _ := trivial
  store _ _ h _ := ⟨h.chain, h.higher, h.bounded.tracked, h.bounded.height⟩
  storeKeep _ _ _ _ := trivial
  storeSent _ _ _ _ := trivial

theorem Shows.receiveProposal (h : rt.Shows shown) (env : Env) (p : SignedProposal) :
    (rt.receiveProposal env p).1.Shows shown := by
  obtain ⟨hpending, hchain⟩ := rt.pendingFinalized_receiveProposal env p
  exact h.same (.receiveProposal p) rfl hpending hchain

theorem Shows.makeProposal (h : rt.Shows shown) (env : Env) (block : Block) :
    (rt.makeProposal env block).1.Shows shown := by
  obtain ⟨hpending, hchain⟩ := rt.pendingFinalized_makeProposal env block
  exact h.same (.makeProposal block) rfl hpending hchain

theorem Shows.feedBack (h : rt.Shows shown) (env : Env) (reply : Option ConsensusMessage) :
    (rt.feedBack env reply).1.Shows shown := by
  unfold ConsensusRuntime.feedBack
  cases reply with
  | none => exact h
  | some precommit =>
      have hreceived := h.receiveVote env precommit
      dsimp only
      generalize rt.receiveVote env precommit = received at *
      obtain ⟨rt₁, result⟩ := received
      cases result <;> exact hreceived

end

end ConsensusRuntime

namespace NodeLoop

open ConsensusRuntime

/-- The chain of the consensus is the one behind the interface, and the progress is that of this
chain. -/
structure Consistent (n : NodeLoop) : Prop where
  chain : n.rpc.chain = n.consensus.chain
  delivered : n.consensus.pendingFinalized = []
  current : n.progress.current = n.rpc.chain.tipHeight
  active : n.progress.active = decide (n.progress.current < n.progress.highest)
  bounded : Bounded n.consensus

/-- Neither the chain nor the highest known tip has gone down. -/
structure NotBehind (n n' : NodeLoop) : Prop where
  tip : n.consensus.chain.tipHeight ≤ n'.consensus.chain.tipHeight
  highest : n.progress.highest ≤ n'.progress.highest

theorem NotBehind.refl (n : NodeLoop) : NotBehind n n := ⟨le_rfl, le_rfl⟩

theorem NotBehind.trans {a b c : NodeLoop} (h : NotBehind a b) (h' : NotBehind b c) :
    NotBehind a c := ⟨h.tip.trans h'.tip, h.highest.trans h'.highest⟩

section
variable [Crypto] {settings : NodeSettings} {n n' : NodeLoop} {env : Env}

omit [Crypto] in
theorem Consistent.shows (h : n.Consistent) : n.consensus.Shows n.rpc.chain :=
  ⟨fun _ => h.chain.symm, by rw [h.chain], h.bounded⟩

omit [Crypto] in
/-- A step that shows the same chain as before. -/
theorem Consistent.same (h : n.Consistent) (hshows : n'.consensus.Shows n.rpc.chain)
    (hpending : n'.consensus.pendingFinalized = []) (hchain : n'.rpc.chain = n.rpc.chain)
    (hprogress : n'.progress = n.progress) : n'.Consistent ∧ NotBehind n n' := by
  refine ⟨⟨?_, hpending, ?_, ?_, hshows.bounded⟩, ?_, ?_⟩
  · rw [hchain, hshows.chain hpending]
  · rw [hprogress, hchain]
    exact h.current
  · rw [hprogress]
    exact h.active
  · rw [← h.chain]
    exact hshows.higher
  · rw [hprogress]

omit [Crypto] in
theorem installed_progress {certificates : List FinalityCertificate} (p : SyncProgress)
    (c : Blockchain) (hne : certificates ≠ []) :
    certificates.foldl (fun p _ => p.installed c) p = p.installed c := by
  induction certificates generalizing p with
  | nil => exact absurd rfl hne
  | cons _ rest ih =>
      rw [List.foldl_cons]
      cases rest with
      | nil => rfl
      | cons next rest => exact ih _ (List.cons_ne_nil _ _)

theorem installed_chain {certificates : List FinalityCertificate} (rpc : RpcState) (c : Blockchain)
    (hne : certificates ≠ []) :
    (certificates.foldl (fun rpc _ => rpc.installFinalized c) rpc).chain = c := by
  induction certificates generalizing rpc with
  | nil => exact absurd rfl hne
  | cons _ rest ih =>
      rw [List.foldl_cons]
      cases rest with
      | nil => rfl
      | cons next rest => exact ih _ (List.cons_ne_nil _ _)

omit [Crypto] in
/-- A chain that is put behind the interface. -/
theorem Consistent.installed (hchain : n'.rpc.chain = n'.consensus.chain)
    (hdelivered : n'.consensus.pendingFinalized = []) (hbounded : Bounded n'.consensus)
    (hprogress : n'.progress = n.progress.installed n'.consensus.chain)
    (htip : n.consensus.chain.tipHeight ≤ n'.consensus.chain.tipHeight) :
    n'.Consistent ∧ NotBehind n n' := by
  refine ⟨⟨hchain, hdelivered, ?_, ?_, hbounded⟩, htip, ?_⟩
  · rw [hprogress, hchain]
    rfl
  · rw [hprogress]
    rfl
  · rw [hprogress]
    exact le_rfl

/-- Finalized blocks are put behind the interface as soon as the votes are counted. -/
theorem Consistent.finalizeIfReady {base : NodeLoop} (h : base.Consistent)
    (hok : n.finalizeIfReady env = .ok n') (hshows : n.consensus.Shows base.rpc.chain)
    (hrpc : n.rpc.chain = base.rpc.chain) (hprogress : n.progress = base.progress) :
    n'.Consistent ∧ NotBehind base n' := by
  have htaken : Bounded n.consensus.takeFinalized.1 :=
    (run_tracking hshows.bounded env .takeFinalized).bounded hshows.bounded
  have hadvanced := run_tracking htaken env .advanceAfterFinalization
  rcases finalizeIfReady_cases hok with ⟨hnone, rfl⟩ | ⟨hsome, hconsensus, hrpc', hprogress'⟩
  · exact h.same ⟨fun _ => hshows.chain hnone, hshows.higher, htaken⟩ rfl hrpc hprogress
  · obtain ⟨hpending, hchain⟩ := n.consensus.takeFinalized.1.chain_advanceAfterFinalization env
    have hchain' : n'.consensus.chain = n.consensus.chain := by
      rw [hconsensus, hchain]
      rfl
    refine Consistent.installed ?_ ?_ ?_ ?_ ?_
    · rw [hrpc', hchain', installed_chain _ _ hsome]
    · rw [hconsensus, hpending]
      rfl
    · rw [hconsensus]
      exact hadvanced.bounded htaken
    · rw [hprogress', hchain', installed_progress _ _ hsome, hprogress]
    · rw [hchain', ← h.chain]
      exact hshows.higher

/-! ## The handlers -/

theorem Consistent.timeoutTick (h : n.Consistent) (hok : n.timeoutTick settings env = .ok n') :
    n'.Consistent ∧ NotBehind n n' := by
  obtain ⟨hcases, hprogress⟩ := timeoutTick_cases hok
  rcases hcases with ⟨⟨deadline, hconsensus⟩, hrpc⟩ | ⟨-, hconsensus, hrpc⟩
  · have hshows : n'.consensus.Shows n.rpc.chain := by
      rw [hconsensus]
      exact ⟨h.shows.chain, h.shows.higher, h.bounded.tracked, h.bounded.height⟩
    refine h.same hshows ?_ (by rw [hrpc]) hprogress
    rw [hconsensus]
    exact h.delivered
  · obtain ⟨deadline, hawakened⟩ := n.awakened_eq env
    have hready : (n.awakened env).Shows n.rpc.chain := by
      rw [hawakened]
      exact ⟨h.shows.chain, h.shows.higher, h.bounded.tracked, h.bounded.height⟩
    have hpending := (n.awakened env).pendingFinalized_timeout env env.instant
    refine h.same ?_ ?_ (by rw [hrpc]; rfl) hprogress
    · rw [hconsensus]
      exact hready.same (.timeoutIfDueWithRoundChange env.instant) rfl hpending
        ((n.awakened env).chain_timeout env env.instant)
    · rw [hconsensus, hpending, hawakened]
      exact h.delivered

theorem Consistent.propose {due : DueEvents} (h : n.Consistent)
    (hok : n.propose settings env due = .ok n') : n'.Consistent ∧ NotBehind n n' := by
  have hmade := h.shows.makeProposal env (n.newBlock env due (n.rpc.drainTransactions 1000).2)
  have hpending := (n.consensus.pendingFinalized_makeProposal env
    (n.newBlock env due (n.rpc.drainTransactions 1000).2)).1
  rcases propose_cases hok with ⟨hconsensus, hrpc, hprogress⟩ |
    ⟨p, rt, prevote, rt', reply, rt'', nextBlockAt, -, hheard, hvoted, hfed, hfinal⟩
  · rcases hconsensus with hconsensus | ⟨p, hconsensus⟩
    · refine h.same ?_ ?_ (by rw [hrpc]; rfl) hprogress
      · rw [hconsensus]
        exact hmade
      · rw [hconsensus, hpending]
        exact h.delivered
    · refine h.same ?_ ?_ (by rw [hrpc]; rfl) hprogress
      · rw [hconsensus]
        exact hmade.receiveProposal env p
      · rw [hconsensus, (pendingFinalized_receiveProposal _ env p).1, hpending]
        exact h.delivered
  · have hheld := hmade.receiveProposal env p
    rw [hheard] at hheld
    have hcounted := hheld.receiveVote env prevote
    rw [hvoted] at hcounted
    have hlast := hcounted.feedBack env reply
    rw [hfed] at hlast
    exact h.finalizeIfReady hfinal hlast rfl rfl

omit [Crypto] in
theorem Consistent.prepared {due : DueEvents} (h : n.Consistent) : (n.prepared due).Consistent := by
  obtain ⟨validatorPeerIds, hprepared⟩ := n.prepared_eq due
  rw [hprepared]
  exact ⟨h.chain, h.delivered, h.current, h.active, h.bounded.tracked, h.bounded.height⟩

theorem Consistent.proposerTick {due : DueEvents} (h : n.Consistent)
    (hok : n.proposerTick settings env due = .ok n') : n'.Consistent ∧ NotBehind n n' := by
  have hbase : NotBehind n (n.prepared due) := by
    obtain ⟨validatorPeerIds, hprepared⟩ := n.prepared_eq due
    rw [hprepared]
    exact ⟨le_rfl, le_rfl⟩
  unfold NodeLoop.proposerTick at hok
  split_ifs at hok
  · simp only [check_bind_eq_ok] at hok
    obtain ⟨-, hok⟩ := hok
    split_ifs at hok
    · obtain ⟨hconsistent, hnot⟩ := h.prepared.propose hok
      exact ⟨hconsistent, hbase.trans hnot⟩
    · cases hok
      exact ⟨h.prepared, hbase⟩
  · cases hok
    exact ⟨h, .refl n⟩

theorem Consistent.proposalReceived {p : SignedProposal} (h : n.Consistent)
    (hok : n.proposalReceived env p = .ok n') : n'.Consistent ∧ NotBehind n n' := by
  have hheld := h.shows.receiveProposal env p
  rcases proposalReceived_cases hok with rfl | ⟨rt, prevote, rt', reply, rt'', hheard, hvoted,
    hfollowed, hfinal⟩
  · refine h.same hheld ?_ rfl rfl
    exact (n.consensus.pendingFinalized_receiveProposal env p).1.trans h.delivered
  · rw [hheard] at hheld
    have hcounted := hheld.receiveVote env prevote
    rw [hvoted] at hcounted
    have hlast : (rt'.followUp env reply).1.Shows n.rpc.chain :=
      (showsReplay env n.rpc.chain).followUp hcounted fun _ _ => trivial
    rw [hfollowed] at hlast
    exact h.finalizeIfReady hfinal hlast rfl rfl

theorem Consistent.consensusReceived {message : ConsensusMessage} (h : n.Consistent)
    (hok : n.consensusReceived env message = .ok n') : n'.Consistent ∧ NotBehind n n' := by
  have hlast : (n.consensus.consensusReceived env message).1.Shows n.rpc.chain :=
    (showsReplay env n.rpc.chain).consensusReceived h.shows trivial
  unfold NodeLoop.consensusReceived at hok
  generalize n.consensus.consensusReceived env message = received at *
  obtain ⟨rt, result⟩ := received
  cases result with
  | error e => cases hok
  | ok u =>
      have hrun : (rt.run env .takeEvidence).1 = rt.takeEvidence.1 := rfl
      have htaken : rt.takeEvidence.1.Shows n.rpc.chain := hlast.same .takeEvidence hrun rfl rfl
      exact h.finalizeIfReady hok htaken rfl rfl

theorem Consistent.handle {step : Env × NodeEvent} (h : n.Consistent)
    (hok : n.handle settings step = .ok n') : n'.Consistent ∧ NotBehind n n' := by
  obtain ⟨env, event⟩ := step
  cases event with
  | timeoutTick => exact h.timeoutTick hok
  | proposerTick due => exact h.proposerTick hok
  | submitted t =>
      cases hok
      exact h.same h.shows h.delivered rfl rfl
  | transactionReceived t =>
      cases hok
      exact h.same h.shows h.delivered rfl rfl
  | proposalReceived p =>
      unfold NodeLoop.handle at hok
      dsimp only at hok
      split_ifs at hok
      · exact h.proposalReceived hok
      · cases hok
        exact ⟨h, .refl n⟩
  | consensusReceived message =>
      unfold NodeLoop.handle at hok
      dsimp only at hok
      split_ifs at hok
      · exact h.consensusReceived hok
      · cases hok
        exact ⟨h, .refl n⟩
  | roundChangeReceived message =>
      unfold NodeLoop.handle at hok
      dsimp only at hok
      split_ifs at hok
      · cases hok
        have hpending := n.consensus.pendingFinalized_receiveRoundChange env message
        have hchain := (n.consensus.receiveRoundChange_cases env message).1.chain
        have hshows : (n.consensus.receiveRoundChange env message).1.Shows n.rpc.chain :=
          h.shows.same (.receiveRoundChange message) rfl hpending hchain
        exact h.same hshows (hpending.trans h.delivered) rfl rfl
      · cases hok
        exact ⟨h, .refl n⟩

/-! ## Syncing -/

omit [Crypto] in
theorem Consistent.beginSync (h : n.Consistent) (highest : ℕ) :
    (n.beginSync highest).Consistent ∧ NotBehind n (n.beginSync highest) :=
  ⟨⟨h.chain, h.delivered, rfl, rfl, h.bounded⟩, le_rfl, le_max_left _ _⟩

/-- The certificate after the tip takes the node to the height after it. -/
theorem applySyncCertificates_next {rt : ConsensusRuntime} (hbounded : Bounded rt)
    {c : FinalityCertificate} (hacceptable : rt.Acceptable env rt.chain c) {chain : Blockchain}
    (happly : rt.chain.applyBlock c.block = .ok chain) :
    rt.applySyncCertificates env [c] =
      (({ rt with chain, finalized := rt.finalized ++ [c] }.openNextHeight env).1, .ok 1) := by
  have hnext := (Blockchain.applyBlock_eq_ok.1 happly).1
  have hone := applySyncCertificate_of_acceptable hacceptable
  have hoffer : rt.chain.offer c.block = chain := by rw [Blockchain.offer, happly]
  rw [if_neg (by omega), hoffer] at hone
  have htip := Blockchain.tipHeight_applyBlock happly
  have hheight := hbounded.height
  unfold ConsensusRuntime.applySyncCertificates applySyncLoop
  rw [hone]
  unfold applySyncLoop openNextHeight
  dsimp only
  rw [BftConsensus.startRound_of_le (.inl (by omega))]
  rfl

/-- One certificate is refused, known already, or the next one. Then the node goes on to the height
after it. -/
theorem applySyncCertificates_one {rt : ConsensusRuntime} (hbounded : Bounded rt) (env : Env)
    (c : FinalityCertificate) :
    (∃ e, rt.applySyncCertificates env [c] = (rt, .error e)) ∨
      rt.applySyncCertificates env [c] = (rt, .ok 0) ∨
      ∃ chain, rt.chain.applyBlock c.block = .ok chain ∧
        rt.applySyncCertificates env [c] =
          (({ rt with chain, finalized := rt.finalized ++ [c] }.openNextHeight env).1, .ok 1) := by
  cases hone : rt.applySyncCertificate env c with
  | error e =>
      refine .inl ⟨e, ?_⟩
      unfold ConsensusRuntime.applySyncCertificates applySyncLoop
      rw [hone]
  | ok result =>
      have hacceptable := acceptable_of_applySyncCertificate hone
      have hwhich := applySyncCertificate_of_acceptable hacceptable
      by_cases hknown : c.block.height ≤ rt.chain.tipHeight
      · rw [if_pos hknown] at hwhich
        refine .inr (.inl ?_)
        unfold ConsensusRuntime.applySyncCertificates applySyncLoop
        rw [hwhich]
        rfl
      · obtain ⟨-, hnext⟩ := id hacceptable
        rw [if_neg hknown] at hnext
        obtain ⟨-, -, chain, happly⟩ := hnext
        exact .inr (.inr ⟨chain, happly, applySyncCertificates_next hbounded hacceptable happly⟩)

theorem Consistent.applyCertificates {certificates : List FinalityCertificate} {applied applied' : ℕ}
    {commands : List SyncCommand} (h : n.Consistent)
    (hrun : applyCertificates env certificates n applied = (n', applied', commands)) :
    (n'.Consistent ∧ NotBehind n n') ∧
      ∀ command ∈ commands, command = .requestSync (n'.consensus.chain.tipHeight + 1) := by
  induction certificates generalizing n applied with
  | nil =>
      cases hrun
      exact ⟨⟨h, .refl _⟩, List.forall_mem_nil _⟩
  | cons c rest ih =>
      have hbounded := (run_tracking h.bounded env (.applySyncCertificates [c])).bounded h.bounded
      have happlied : (n.consensus.run env (.applySyncCertificates [c])).1 =
        (n.consensus.applySyncCertificates env [c]).1 := rfl
      rw [happlied] at hbounded
      unfold NodeLoop.applyCertificates at hrun
      rcases applySyncCertificates_one h.bounded env c with ⟨e, hcase⟩ | hcase |
        ⟨chain, happly, hcase⟩
      · rw [hcase] at hrun
        cases hrun
        exact ⟨⟨h, .refl n⟩, fun _ => List.mem_singleton.1⟩
      · rw [hcase] at hrun
        exact ih h hrun
      · rw [hcase] at hrun hbounded
        have hgrown : (openNextHeight { n.consensus with
            chain, finalized := n.consensus.finalized ++ [c] } env).1.chain = chain :=
          (openNextHeight_cases _ env).1.chain
        have hpending : (openNextHeight { n.consensus with
            chain, finalized := n.consensus.finalized ++ [c] } env).1.pendingFinalized = [] :=
          (pendingFinalized_openNextHeight _ env).trans h.delivered
        generalize (openNextHeight { n.consensus with
          chain, finalized := n.consensus.finalized ++ [c] } env).1 = rt at *
        have hone : (n.withSynced rt).Consistent ∧ NotBehind n (n.withSynced rt) := by
          refine Consistent.installed rfl hpending hbounded rfl ?_
          have htip := Blockchain.tipHeight_applyBlock happly
          rw [← hgrown] at htip
          exact htip ▸ Nat.le_succ _
        obtain ⟨⟨hconsistent, hnot⟩, hcommands⟩ := ih hone.1 hrun
        exact ⟨⟨hconsistent, hone.2.trans hnot⟩, hcommands⟩

/-- Both chains continue from the same snapshot. -/
theorem Consistent.installCertifiedSnapshot {snapshot : StateSnapshot}
    {certificate : SnapshotCertificate} (h : n.Consistent)
    (hhigher : n.consensus.chain.tipHeight < snapshot.height)
    (hok : n.installCertifiedSnapshot env snapshot certificate = .ok n') :
    n'.Consistent ∧ NotBehind n n' := by
  have hbounded := (perform_tracking h.bounded env
    (.installCertifiedSnapshot snapshot certificate)).bounded h.bounded
  simp only [NodeLoop.installCertifiedSnapshot, bind_eq_ok] at hok
  obtain ⟨rpc, hrpc, hok⟩ := hok
  simp only [RpcState.installCertifiedSnapshot, check_bind_eq_ok] at hrpc
  obtain ⟨-, -, hrpc⟩ := hrpc
  simp only [bind_eq_ok, pure_eq_ok] at hrpc
  obtain ⟨shown, hshown, -, -, rfl⟩ := hrpc
  simp only [perform, ConsensusRuntime.installCertifiedSnapshot] at hok hbounded
  cases hrestored : n.consensus.restoreSnapshot snapshot certificate with
  | error e =>
      rw [hrestored] at hok
      cases hok
  | ok restored =>
      rw [hrestored] at hok hbounded
      cases restored with
      | none => exact absurd hhigher (not_lt.2 (restoreSnapshot_eq_none hrestored).2)
      | some chain =>
          obtain ⟨-, -, -, hfrom, -⟩ := restoreSnapshot_eq_some.1 hrestored
          obtain rfl : chain = shown := Except.ok.inj (hfrom.symm.trans hshown)
          have htip := (fromSnapshotWithStaking_spec hfrom).1
          dsimp only at hok hbounded
          generalize n.consensus.consensus.startRound (snapshot.height + 1) 0 = started at *
          obtain ⟨consensus, outcome⟩ := started
          cases outcome with
          | error e => cases hok
          | ok u =>
              cases hok
              exact Consistent.installed rfl h.delivered hbounded rfl (htip ▸ hhigher.le)

/-- A loop at its start: the interface shows the chain that the consensus starts from. -/
structure Launched (n : NodeLoop) : Prop where
  consensus : ∃ validators rt certificates, Prepared validators rt ∧
    n.consensus = (rt.importCertificateHistory certificates).1
  chain : n.rpc.chain = n.consensus.chain
  progress : n.progress = ⟨n.rpc.chain.tipHeight, n.rpc.chain.tipHeight, false⟩

theorem Launched.consistent (h : Launched n) : n.Consistent := by
  obtain ⟨validators, rt, certificates, hprepared, hconsensus⟩ := h.consensus
  have hbounded := bounded_prepared hprepared
  obtain ⟨finalized, himported⟩ := rt.importCertificateHistory_eq certificates
  have hpending : rt.pendingFinalized = [] := by
    obtain ⟨_, _, _, _, _, _, _, _, _, _, hbase, rfl⟩ := hprepared
    simp only [withSigner, bind_eq_ok, pure_eq_ok] at hbase
    obtain ⟨_, -, rfl⟩ := hbase
    rfl
  refine ⟨h.chain, ?_, ?_, ?_, ?_⟩
  · rw [hconsensus, himported]
    exact hpending
  · rw [h.progress]
  · simp [h.progress]
  · rw [hconsensus, himported]
    exact ⟨hbounded.tracked, hbounded.height⟩

end

end NodeLoop

namespace SyncingNode

open NodeLoop

section
variable [Crypto] {settings : NodeSettings} {s s' : SyncingNode} {env : Env}
  {commands : List SyncCommand}

theorem consistent_snapshotReceived {source : String} {tip : SyncTip} {snapshot : StateSnapshot}
    {a : SnapshotAttestation} (h : s.loop.Consistent)
    (hok : s.snapshotReceived env source tip snapshot a = .ok (s', commands)) :
    s'.loop.Consistent ∧ NotBehind s.loop s'.loop := by
  obtain ⟨hbegun, hnot⟩ := h.beginSync tip.height
  unfold snapshotReceived at hok
  split_ifs at hok
  · cases hok
    exact ⟨h, .refl _⟩
  · simp only [bind_eq_ok] at hok
    obtain ⟨certificate, -, hok⟩ := hok
    split at hok
    · cases hok
      exact ⟨hbegun, hnot⟩
    · simp only [bind_eq_ok, pure_eq_ok] at hok
      obtain ⟨candidate, -, loop, hloop, hok⟩ := hok
      unfold adoptSnapshot at hloop
      split_ifs at hloop with hhigher
      · cases hok
        obtain ⟨hinstalled, hlater⟩ := hbegun.installCertifiedSnapshot hhigher hloop
        exact ⟨hinstalled, hnot.trans hlater⟩
      · cases hloop
        cases hok
        exact ⟨hbegun, hnot⟩

theorem consistent_certificatesReceived {source : String} {tip : SyncTip}
    {certificates : List FinalityCertificate} (h : s.loop.Consistent)
    (hok : s.certificatesReceived env source tip certificates = .ok (s', commands)) :
    s'.loop.Consistent ∧ NotBehind s.loop s'.loop := by
  unfold certificatesReceived at hok
  generalize s.syncQuorum.observe source tip = observed at hok
  obtain ⟨syncQuorum, agreed⟩ := observed
  cases agreed with
  | none =>
      cases hok
      exact ⟨h, .refl _⟩
  | some agreedTip =>
      dsimp only at hok
      obtain ⟨hbegun, hnot⟩ := h.beginSync agreedTip.height
      cases hrun : applyCertificates env certificates (s.loop.beginSync agreedTip.height) 0 with
      | mk loop rest =>
          obtain ⟨applied, more⟩ := rest
          obtain ⟨⟨happlied, hlater⟩, -⟩ := hbegun.applyCertificates hrun
          rw [hrun] at hok
          dsimp only at hok
          split_ifs at hok
          · simp only [check_bind_eq_ok, pure_eq_ok] at hok
            obtain ⟨-, hok⟩ := hok
            cases hok
            exact ⟨happlied, hnot.trans hlater⟩
          · cases hok
            exact ⟨happlied, hnot.trans hlater⟩

theorem consistent_handle {step : Env × SyncEvent} (h : s.loop.Consistent)
    (hok : s.handle settings step = .ok s') : s'.loop.Consistent ∧ NotBehind s.loop s'.loop := by
  obtain ⟨env, event⟩ := step
  cases event with
  | node event =>
      simp only [handle, bind_eq_ok, pure_eq_ok] at hok
      obtain ⟨loop, hloop, rfl⟩ := hok
      exact h.handle hloop
  | syncReceived source response =>
      simp only [handle, bind_eq_ok, pure_eq_ok] at hok
      obtain ⟨result, hreceived, hresult⟩ := hok
      obtain ⟨s'', commands⟩ := result
      cases hresult
      unfold syncReceived at hreceived
      split at hreceived
      · exact consistent_snapshotReceived h hreceived
      · exact consistent_certificatesReceived h hreceived
  | snapshotAttestationReceived shelf a =>
      simp only [handle, bind_eq_ok, pure_eq_ok] at hok
      obtain ⟨votes, -, rfl⟩ := hok
      exact ⟨h, .refl _⟩

theorem consistent_run {events : List (Env × SyncEvent)} (h : s.loop.Consistent)
    (hrun : s.run settings events = .ok s') : s'.loop.Consistent ∧ NotBehind s.loop s'.loop := by
  induction events generalizing s with
  | nil =>
      cases hrun
      exact ⟨h, .refl _⟩
  | cons e rest ih =>
      rw [SyncingNode.run, List.foldlM_cons, bind_eq_ok] at hrun
      obtain ⟨s₁, hstep, hrest⟩ := hrun
      obtain ⟨hone, hnot⟩ := consistent_handle h hstep
      obtain ⟨hlast, hlater⟩ := ih hone hrest
      exact ⟨hlast, hnot.trans hlater⟩

/-- At every moment of a run the interface shows the chain of the consensus and the distance of
this chain to the highest known tip. Neither of the two heights ever falls. -/
theorem shown_of_run {s₀ : SyncingNode} {before after : List (Env × SyncEvent)}
    (hlaunched : s₀.loop.Launched) (hbefore : s₀.run settings before = .ok s)
    (hafter : s.run settings after = .ok s') :
    (s'.loop.rpc.chain = s'.loop.consensus.chain ∧
      s'.loop.progress.current = s'.loop.rpc.chain.tipHeight ∧
      (s'.loop.progress.active = true ↔ s'.loop.rpc.chain.tipHeight < s'.loop.progress.highest)) ∧
    s.loop.rpc.chain.tipHeight ≤ s'.loop.rpc.chain.tipHeight ∧
    s.loop.progress.highest ≤ s'.loop.progress.highest := by
  obtain ⟨hfirst, -⟩ := consistent_run hlaunched.consistent hbefore
  obtain ⟨hlast, hnot⟩ := consistent_run hfirst hafter
  refine ⟨⟨hlast.chain, hlast.current, ?_⟩, ?_, hnot.highest⟩
  · rw [hlast.active, decide_eq_true_iff, hlast.current]
  · rw [hfirst.chain, hlast.chain]
    exact hnot.tip

end

end SyncingNode

/-! A node hears of two blocks and gets the first one. -/

namespace Lone

open ConsensusRuntime NodeLoop

local instance shownCrypto : Crypto := StandIn.crypto StandIn.digest

def reading : NodeSettings := { isClient := true, localIsValidator := false, blockInterval := 0 }

def launchedLoop : NodeLoop where
  consensus := (node.importCertificateHistory []).1
  rpc :=
    { chain := node.chain, pool := Mempool.default, chainId := 21005
      validators := validatorSet.validators, upgradeSchedule := node.upgradeSchedule }
  progress := { current := node.chain.tipHeight, highest := node.chain.tipHeight, active := false }
  observedTipHeight := 0
  nextBlockAt := 0
  consensusWasActive := false

theorem launched_loop : launchedLoop.Launched where
  consensus := ⟨validatorSet.validators, node, [],
    ⟨chain, _, _, _, node, _, _, _, _, _, eq_ok_get started_ok, rfl⟩, rfl⟩
  chain := rfl
  progress := rfl

/-- The node waits until two peers agree. -/
def listening : SyncingNode :=
  { loop := launchedLoop, syncQuorum := { minimumPeers := 2, votes := ∅ }
    snapshotVotes := ∅, snapshotCandidates := ∅ }

def halfWay : SyncResponse :=
  { tip := { height := 2, blockHash := "b", stateRoot := "s" }
    certificates := [certificate], snapshot := none, snapshotAttestation := none }

def heardTwice : List (Env × SyncEvent) :=
  [(env, .syncReceived "p" halfWay), (env, .syncReceived "q" halfWay)]

theorem listening_runs : ∃ s', listening.run reading heardTwice = .ok s' ∧
    s'.loop.rpc.chain.tipHeight = 1 ∧ s'.loop.progress.highest = 2 := by
  decide +kernel

theorem shown_of_run_half_way : ∃ s', listening.run reading heardTwice = .ok s' ∧
    s'.loop.rpc.chain.tipHeight = 1 ∧ s'.loop.progress.active = true ∧
    s'.loop.rpc.chain = s'.loop.consensus.chain := by
  obtain ⟨s', hrun, htip, hhighest⟩ := listening_runs
  have hstart : listening.run reading [] = .ok listening := rfl
  have hlaunched : listening.loop.Launched := launched_loop
  obtain ⟨⟨hchain, -, hactive⟩, -, -⟩ := SyncingNode.shown_of_run hlaunched hstart hrun
  exact ⟨s', hrun, htip, hactive.2 (by omega), hchain⟩

end Lone

end IeumChain
