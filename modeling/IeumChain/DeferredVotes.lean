import IeumChain.RoundChanges

/-!
# Deferred votes

A vote that comes before its phase waits in a queue of 1024. Votes that differ in the
block they name are different entries, so a single validator can fill the queue, and
each further vote pushes out the oldest. A vote waits until it is replayed or its round
is over, as long as no further vote is deferred while it is the oldest of a full queue.
-/
namespace IeumChain

open Outcome MachineWords FiniteMap

/-- Same validator, same step of the same round, same block. -/
def ConsensusMessage.SaysSame (u v : ConsensusMessage) : Prop :=
  u.height = v.height ∧ u.round = v.round ∧ u.voteType = v.voteType ∧
    u.validatorId = v.validatorId ∧ u.blockHash = v.blockHash

namespace ConsensusRuntime

/-- Deferring the one pushes out the other: it is new, and the other is the oldest in a full
queue. -/
structure PushesOut (rt : ConsensusRuntime) (u v : ConsensusMessage) : Prop where
  new : ¬∃ known ∈ rt.deferredVotes, known.SaysSame u
  full : maxDeferredVotes ≤ rt.deferredVotes.length
  oldest : rt.deferredVotes.head? = some v

/-- The node is in the round of the vote. -/
def InRound (v : ConsensusMessage) (rt : ConsensusRuntime) : Prop :=
  rt.consensus.height = v.height ∧ rt.consensus.round = v.round

variable {rt rt' : ConsensusRuntime} {u v : ConsensusMessage}

theorem deferVote_known (h : ∃ known ∈ rt.deferredVotes, known.SaysSame v) : rt.deferVote v = rt :=
  if_pos h

theorem deferVote_new (h : ¬∃ known ∈ rt.deferredVotes, known.SaysSame v) :
    rt.deferVote v = { rt with
      deferredVotes := (if maxDeferredVotes ≤ rt.deferredVotes.length then rt.deferredVotes.drop 1
        else rt.deferredVotes) ++ [v] } := if_neg h

/-- Deferring a vote leaves that vote, or one that says the same, in the queue. -/
theorem exists_deferVote (rt : ConsensusRuntime) (v : ConsensusMessage) :
    ∃ kept ∈ (rt.deferVote v).deferredVotes, kept.SaysSame v ∧
      ((¬∃ known ∈ rt.deferredVotes, known.SaysSame v) → kept = v) := by
  by_cases h : ∃ known ∈ rt.deferredVotes, known.SaysSame v
  · obtain ⟨known, hknown, hsame⟩ := h
    rw [deferVote_known ⟨known, hknown, hsame⟩]
    exact ⟨known, hknown, hsame, fun hnew => absurd ⟨known, hknown, hsame⟩ hnew⟩
  · rw [deferVote_new h]
    exact ⟨v, List.mem_append_right _ (List.mem_singleton_self v), ⟨rfl, rfl, rfl, rfl, rfl⟩,
      fun _ => rfl⟩

theorem mem_drop_one {α : Type} {a : α} {l : List α} (h : a ∈ l) (hfirst : l.head? ≠ some a) :
    a ∈ l.drop 1 := by
  cases l with
  | nil => cases h
  | cons b rest =>
      rcases List.mem_cons.1 h with rfl | h
      · exact absurd rfl hfirst
      · exact h

/-- Only the oldest vote is ever pushed out. -/
theorem mem_deferVote (h : v ∈ rt.deferredVotes) (hkeeps : ¬PushesOut rt u v) :
    v ∈ (rt.deferVote u).deferredVotes := by
  by_cases hknown : ∃ known ∈ rt.deferredVotes, known.SaysSame u
  · rw [deferVote_known hknown]
    exact h
  · rw [deferVote_new hknown]
    refine List.mem_append_left _ ?_
    split_ifs with hfull
    · exact mem_drop_one h fun hfirst => hkeeps ⟨hknown, hfull, hfirst⟩
    · exact h

theorem deferable_stageMismatch : isDeferableVoteError BftConsensus.stageMismatch = true :=
  decide_eq_true rfl

section
variable [Crypto] {env : Env}

/-- The node after a replay has handled one vote, with the node's own precommit if there is
one. -/
def afterReplayed (rt : ConsensusRuntime) (env : Env) (vote : ConsensusMessage) :
    ConsensusRuntime :=
  match rt.receiveVote env vote with
  | (rt, .ok (some precommit)) => (rt.receiveVote env precommit).1
  | (rt, _) => rt

/-- The pass gives the vote to the node, and it is not turned back as premature. -/
def Consumes (env : Env) : List ConsensusMessage → ConsensusRuntime → ConsensusMessage → Prop
  | [], _, _ => False
  | vote :: rest, rt, v =>
      vote = v ∧ (∀ e, (rt.receiveVote env vote).2 = .error e → isDeferableVoteError e = false) ∨
        Consumes env rest (rt.afterReplayed env vote) v

/-- The states between the passes of a replay. -/
def Passes (env : Env) : ConsensusRuntime → ConsensusRuntime → Prop :=
  Relation.ReflTransGen fun rt rt' => ∃ rt₁ outbound remaining outbound',
    replayPass env rt.deferredVotes { rt with deferredVotes := [] } false [] outbound =
        (rt₁, .ok (true, remaining, outbound')) ∧
      rt' = { rt₁ with deferredVotes := remaining }

/-- The replay takes the vote out of the queue. -/
def TakenUp (env : Env) (rt : ConsensusRuntime) (v : ConsensusMessage) : Prop :=
  ∃ rt₁, Passes env rt rt₁ ∧ Consumes env rt₁.deferredVotes { rt₁ with deferredVotes := [] } v

/-- A pass that ends keeps every vote that it does not consume. -/
theorem replayPass_keeps {votes remaining outbound remaining' outbound' : List ConsensusMessage}
    {rt : ConsensusRuntime} {progressed progressed' : Bool}
    (hok : (replayPass env votes rt progressed remaining outbound).2 =
      .ok (progressed', remaining', outbound')) :
    (∀ v ∈ remaining, v ∈ remaining') ∧ ∀ v ∈ votes, v ∈ remaining' ∨ Consumes env votes rt v := by
  induction votes generalizing rt progressed remaining outbound with
  | nil =>
      cases hok
      exact ⟨fun _ => id, List.forall_mem_nil _⟩
  | cons vote rest ih =>
      have hconsumes : (∀ e, (rt.receiveVote env vote).2 = .error e → isDeferableVoteError e = false) →
          Consumes env (vote :: rest) rt vote := fun h => .inl ⟨rfl, h⟩
      have hlater : ∀ v, Consumes env rest (rt.afterReplayed env vote) v →
          Consumes env (vote :: rest) rt v := fun v => .inr
      unfold afterReplayed at hlater
      unfold replayPass at hok
      generalize rt.receiveVote env vote = received at *
      obtain ⟨rt₁, result⟩ := received
      dsimp only at *
      cases result with
      | error e =>
          dsimp only at hok
          split_ifs at hok with hdeferable
          · obtain ⟨hkept, hrest⟩ := ih hok
            refine ⟨fun v hv => hkept v (List.mem_append_left _ hv), ?_⟩
            intro v hv
            rcases List.mem_cons.1 hv with rfl | hv
            · exact .inl (hkept v (List.mem_append_right _ (List.mem_singleton_self v)))
            · exact (hrest v hv).imp_right (hlater v)
          · obtain ⟨hkept, hrest⟩ := ih hok
            refine ⟨hkept, ?_⟩
            intro v hv
            rcases List.mem_cons.1 hv with rfl | hv
            · refine .inr (hconsumes ?_)
              rintro e' ⟨⟩
              exact Bool.eq_false_iff.2 hdeferable
            · exact (hrest v hv).imp_right (hlater v)
      | ok reply =>
          have hvote := hconsumes (by rintro e' ⟨⟩)
          cases reply with
          | none =>
              obtain ⟨hkept, hrest⟩ := ih hok
              refine ⟨hkept, ?_⟩
              intro v hv
              rcases List.mem_cons.1 hv with rfl | hv
              · exact .inr hvote
              · exact (hrest v hv).imp_right (hlater v)
          | some precommit =>
              dsimp only at hok hlater
              generalize rt₁.receiveVote env precommit = received at *
              obtain ⟨rt₂, result⟩ := received
              cases result with
              | error e => cases hok
              | ok reply =>
                  obtain ⟨hkept, hrest⟩ := ih hok
                  refine ⟨hkept, ?_⟩
                  intro v hv
                  rcases List.mem_cons.1 hv with rfl | hv
                  · exact .inr hvote
                  · exact (hrest v hv).imp_right (hlater v)

/-- A replay that ends keeps every vote that it does not take up. -/
theorem replayLoop_keeps {fuel : ℕ} {rt : ConsensusRuntime}
    {outbound outbound' : List ConsensusMessage}
    (hok : (replayLoop env fuel rt outbound).2 = .ok outbound') (hv : v ∈ rt.deferredVotes) :
    v ∈ (replayLoop env fuel rt outbound).1.deferredVotes ∨ TakenUp env rt v := by
  induction fuel generalizing rt outbound with
  | zero => exact .inl hv
  | succ fuel ih =>
      unfold replayLoop at hok ⊢
      cases hpass : replayPass env rt.deferredVotes { rt with deferredVotes := [] } false [] outbound with
      | mk rt₁ result =>
          rw [hpass] at hok
          cases result with
          | error e => cases hok
          | ok result =>
              obtain ⟨progressed, remaining, outbound₁⟩ := result
              obtain ⟨-, hall⟩ := @replayPass_keeps _ env rt.deferredVotes [] outbound remaining
                outbound₁ { rt with deferredVotes := [] } false progressed (by rw [hpass])
              rcases hall v hv with hmem | hconsumes
              · dsimp only at hok ⊢
                split_ifs at hok ⊢ with hprogress
                · subst hprogress
                  refine (ih hok hmem).imp_right fun htaken => ?_
                  obtain ⟨rt₂, hpasses, htaken⟩ := htaken
                  exact ⟨rt₂, .head ⟨rt₁, outbound, remaining, outbound₁, hpass, rfl⟩ hpasses, htaken⟩
                · exact .inl hmem
              · exact .inr ⟨rt, .refl, hconsumes⟩

/-! ## Votes that come too early -/

theorem receiveVote_premature (h : rt.consensus.checkVote v = .error BftConsensus.stageMismatch) :
    rt.receiveVote env v = (rt, .error BftConsensus.stageMismatch) := by
  unfold receiveVote BftConsensus.handle
  rw [h]

/-- A pass over premature votes puts them all back. -/
theorem replayPass_premature {votes : List ConsensusMessage}
    (h : ∀ u ∈ votes, rt.consensus.checkVote u = .error BftConsensus.stageMismatch)
    (progressed : Bool) (remaining outbound : List ConsensusMessage) :
    replayPass env votes rt progressed remaining outbound =
        (rt, .ok (progressed, remaining ++ votes, outbound)) ∧
      ∀ u, ¬Consumes env votes rt u := by
  induction votes generalizing remaining with
  | nil =>
      rw [List.append_nil]
      exact ⟨rfl, fun _ => id⟩
  | cons vote rest ih =>
      have hfirst := @receiveVote_premature rt vote _ env (h vote (List.mem_cons_self ..))
      obtain ⟨hpass, hconsumes⟩ := ih (fun u hu => h u (List.mem_cons_of_mem _ hu))
        (remaining ++ [vote])
      refine ⟨?_, ?_⟩
      · unfold replayPass
        rw [hfirst]
        dsimp only
        rw [if_pos deferable_stageMismatch, hpass, List.append_assoc]
        rfl
      · rintro u (⟨-, hturned⟩ | hrest)
        · rw [hfirst] at hturned
          cases deferable_stageMismatch.symm.trans (hturned _ rfl)
        · refine hconsumes u ?_
          unfold afterReplayed at hrest
          rw [hfirst] at hrest
          exact hrest

/-- Replaying premature votes changes nothing. -/
theorem replay_premature
    (h : ∀ u ∈ rt.deferredVotes, rt.consensus.checkVote u = .error BftConsensus.stageMismatch) :
    rt.replayDeferredVotes env = (rt, .ok []) ∧ ∀ u, ¬TakenUp env rt u := by
  have hpass := fun outbound => @replayPass_premature { rt with deferredVotes := [] } _ env
    rt.deferredVotes h false [] outbound
  refine ⟨?_, ?_⟩
  · unfold replayDeferredVotes replayLoop
    rw [(hpass []).1]
    rfl
  · rintro u ⟨rt₁, hpasses, hconsumes⟩
    rcases Relation.ReflTransGen.cases_head hpasses with rfl | ⟨rt₂, ⟨_, outbound, _, _, hstep, -⟩, -⟩
    · exact (hpass []).2 u hconsumes
    · rw [(hpass outbound).1] at hstep
      cases hstep

/-! ## Other operations -/

/-- The queue is as it was, or the round is over and the queue has no new votes. -/
def QueueKept (rt rt' : ConsensusRuntime) : Prop :=
  rt'.deferredVotes = rt.deferredVotes ∨ rt'.deferredVotes ⊆ rt.deferredVotes ∧
    (rt'.consensus.height ≠ rt.consensus.height ∨ rt.consensus.round < rt'.consensus.round)

theorem deferredVotes_receiveVote (rt : ConsensusRuntime) (env : Env) (vote : ConsensusMessage) :
    (rt.receiveVote env vote).1.deferredVotes = rt.deferredVotes := by
  rcases rt.receiveVote_cases env vote with ⟨c', e, -, hcase⟩ | ⟨-, -, c₁, -, hcase⟩
  · rw [hcase]
  · rw [hcase]
    have hcounted : (rt.counted env vote ((c₁.addVote vote).advancePhase vote)).deferredVotes =
        rt.deferredVotes := by
      unfold counted collectPrecommit afterPhaseChange resetDeadline
      split_ifs <;> rfl
    generalize rt.counted env vote ((c₁.addVote vote).advancePhase vote) = rt₁ at *
    rcases rt₁.afterVote_cases env with hafter | ⟨b, -, -, hafter⟩ | ⟨b, -, -, hafter⟩ |
      ⟨b, chain, -, -, -, -, -, hafter⟩ <;> rw [hafter] <;> exact hcounted

theorem queueKept_receiveProposal (rt : ConsensusRuntime) (env : Env) (p : SignedProposal) :
    QueueKept rt (rt.receiveProposal env p).1 := by
  rcases rt.receiveProposal_cases env p with ⟨c', e, -, hcase⟩ | ⟨-, -, -, hcase⟩
  · rw [hcase]
    exact .inl rfl
  · rw [hcase]
    exact .inl rfl

theorem queueKept_receiveRoundChange (rt : ConsensusRuntime) (env : Env) (m : SignedRoundChange) :
    QueueKept rt (rt.receiveRoundChange env m).1 := by
  cases hcheck : rt.checkRoundChange m with
  | error e =>
      unfold receiveRoundChange
      rw [hcheck]
      exact .inl rfl
  | ok u =>
      have hqueue : (rt.adoptRoundChangeValue env m).1.deferredVotes = rt.deferredVotes := by
        unfold adoptRoundChangeValue
        split
        · rfl
        · split
          · rfl
          · split
            · rfl
            · dsimp only
              split_ifs <;> rfl
      obtain ⟨-, hstayed⟩ := rt.adoptRoundChangeValue_frame env m
      cases hadopt : rt.adoptRoundChangeValue env m with
      | mk rt₁ result =>
          rw [hadopt] at hqueue hstayed
          cases result with
          | error e =>
              unfold receiveRoundChange
              rw [hcheck, hadopt]
              exact .inl hqueue
          | ok u =>
              obtain ⟨-, hmachine, -, -⟩ := filed_ground rt₁ m
              have hpruned : (rt₁.recordRoundChange m).pruneRoundChanges.deferredVotes =
                  rt.deferredVotes := by
                refine Eq.trans ?_ hqueue
                unfold pruneRoundChanges
                split_ifs
                · cases oldestRound (rt₁.recordRoundChange m).roundChangeVotes.keys <;> rfl
                · rfl
              rcases receiveRoundChange_adopted hcheck hadopt with
                ⟨target, -, hlt, hcase⟩ | ⟨-, hcase, -⟩
              · have hplace : (rt₁.recordRoundChange m).pruneRoundChanges.consensus.height =
                    m.height := by
                  rw [hmachine, hstayed.core.height, height_of_checkRoundChange hcheck]
                have hlater : (rt₁.recordRoundChange m).pruneRoundChanges.consensus.round ≤
                    target := by
                  rw [hmachine, hstayed.core.round]
                  exact hlt.le
                rw [hcase]
                unfold jumpToRound
                rw [BftConsensus.startRound_of_le (.inr ⟨hplace, hlater⟩)]
                refine .inr ⟨?_, .inr hlt⟩
                rw [← hpruned]
                exact List.filter_subset_self _
              · rw [hcase]
                exact .inl hpruned

theorem queueKept_timeout (rt : ConsensusRuntime) (env : Env) (now : ℕ) :
    QueueKept rt (rt.timeoutIfDueWithRoundChange env now).1 := by
  by_cases hdue : now < rt.deadline ∨ rt.consensus.phase = .finalized
  · unfold timeoutIfDueWithRoundChange
    rw [if_pos hdue]
    exact .inl rfl
  · rw [timeout_due hdue]
    cases env.sign _ with
    | error e => exact .inl rfl
    | ok signature =>
        dsimp only
        cases (rt.recordRoundChangeRequest.ownRoundChange signature).verify with
        | error e => exact .inl rfl
        | ok u =>
            have hreceived : QueueKept rt _ := rt.recordRoundChangeRequest.queueKept_receiveRoundChange
              env (rt.recordRoundChangeRequest.ownRoundChange signature)
            dsimp only
            generalize rt.recordRoundChangeRequest.receiveRoundChange env _ = received at hreceived
            obtain ⟨rt₁, result⟩ := received
            cases result with
            | error e => exact hreceived
            | ok moved =>
                obtain ⟨-, hheight, hround, -⟩ := rt₁.leaveTimedOutRound_tracker now
                  (rt.recordRoundChangeRequest.ownRoundChange signature)
                have hqueue : (rt₁.leaveTimedOutRound now
                    (rt.recordRoundChangeRequest.ownRoundChange signature)).1.deferredVotes =
                    rt₁.deferredVotes := by
                  unfold leaveTimedOutRound
                  dsimp only
                  split <;> rfl
                rcases hreceived with hsame | ⟨hsub, hother | hlt⟩
                · exact .inl (hqueue.trans hsame)
                · exact .inr ⟨by rwa [hqueue], .inl (by rw [hheight]; exact hother)⟩
                · exact .inr ⟨by rwa [hqueue], .inr (hlt.trans_le hround)⟩

omit [Crypto] in
theorem deferredVotes_openNextHeight (rt : ConsensusRuntime) (env : Env) :
    (rt.openNextHeight env).1.deferredVotes = rt.deferredVotes := by
  unfold openNextHeight
  rcases rt.consensus.startRound_cases (rt.chain.tipHeight + 1) 0 with ⟨e, hcase⟩ | ⟨-, hcase⟩
  · rw [hcase]
  · rw [hcase]
    rfl

theorem queueKept_applySyncCertificates (rt : ConsensusRuntime) (env : Env)
    (certificates : List FinalityCertificate) :
    QueueKept rt (rt.applySyncCertificates env certificates).1 := by
  left
  obtain ⟨chain, finalized, hloop⟩ := applySyncLoop_eq env certificates rt 0
  unfold applySyncCertificates
  generalize applySyncLoop env certificates rt 0 = result at hloop
  obtain ⟨rt₁, result⟩ := result
  obtain rfl : rt₁ = _ := hloop
  cases result with
  | error e => rfl
  | ok total =>
      dsimp only
      split_ifs
      · rfl
      · exact deferredVotes_openNextHeight _ env

theorem queueKept_installCertifiedSnapshot (hbounded : Bounded rt) (env : Env)
    (snapshot : StateSnapshot) (certificate : SnapshotCertificate) :
    QueueKept rt (rt.installCertifiedSnapshot env snapshot certificate).1 := by
  unfold installCertifiedSnapshot
  cases hrestored : rt.restoreSnapshot snapshot certificate with
  | error e => exact .inl rfl
  | ok restored =>
      cases restored with
      | none => exact .inl rfl
      | some chain =>
          obtain ⟨-, -, hlt, -, -⟩ := restoreSnapshot_eq_some.1 hrestored
          have hheight := hbounded.height
          dsimp only
          rw [BftConsensus.startRound_of_le (.inl (by omega))]
          refine .inr ⟨List.nil_subset _, .inl ?_⟩
          show snapshot.height + 1 ≠ rt.consensus.height
          omega

/-- Only deferring and replaying change the queue within a round. -/
theorem queueKept_perform (hbounded : Bounded rt) (env : Env) {op : Operation}
    (hdefer : ∀ u, op ≠ .call (.deferVote u)) (hreplay : op ≠ .call .replayDeferredVotes) :
    QueueKept rt (rt.perform env op) := by
  cases op with
  | call call =>
      cases call with
      | makeProposal block =>
          rcases rt.makeProposal_cases env block with hcase | ⟨_, _, _, _, _, hcase⟩
          · simp only [perform, run, hcase]
            exact .inl rfl
          · simp only [perform, run, hcase]
            exact .inl rfl
      | receiveProposal p => exact rt.queueKept_receiveProposal env p
      | receiveVote vote => exact .inl (rt.deferredVotes_receiveVote env vote)
      | deferVote vote => exact absurd rfl (hdefer vote)
      | replayDeferredVotes => exact absurd rfl hreplay
      | receiveRoundChange m => exact rt.queueKept_receiveRoundChange env m
      | timeoutIfDueWithRoundChange now => exact rt.queueKept_timeout env now
      | applySyncCertificates certificates => exact rt.queueKept_applySyncCertificates env _
      | advanceAfterFinalization =>
          rcases rt.advanceAfterFinalization_cases env with hcase | ⟨-, hcase⟩
          · simp only [perform, run, hcase]
            exact .inl rfl
          · simp only [perform, run, hcase]
            exact .inl (rt.deferredVotes_openNextHeight env)
      | restartPhaseTimeout now => exact .inl rfl
      | takeEvidence => exact .inl rfl
      | takeFinalized => exact .inl rfl
  | timeoutIfDue now => exact rt.queueKept_timeout env now
  | forceTimeoutForTest => exact .inl rfl
  | applySyncBatch blocks =>
      obtain ⟨chain, hcase, -⟩ := applySyncBatch_grown env blocks rt 0
      simp only [perform, hcase]
      exact .inl rfl
  | importCertificateHistory certificates =>
      obtain ⟨finalized, hcase⟩ := rt.importCertificateHistory_eq certificates
      simp only [perform, hcase]
      exact .inl rfl
  | installCertifiedSnapshot snapshot certificate =>
      exact queueKept_installCertifiedSnapshot hbounded env snapshot certificate
  | replaceBootstrapValidators validators =>
      rcases rt.replaceBootstrapValidators_cases env validators with hcase | ⟨-, -, c, -, hcase⟩
      · simp only [perform, hcase]
        exact .inl rfl
      · simp only [perform, hcase]
        exact .inl rfl
  | configure => exact .inl rfl

/-! ## Runs -/

/-- The discipline of the main loop: a vote is deferred when it was turned back as premature,
and the loop ends when a replay fails. -/
def Disciplined (env : Env) (rt : ConsensusRuntime) : Operation → Prop
  | .call (.deferVote v) => (rt.receiveVote env v).2 = .error BftConsensus.stageMismatch
  | .call .replayDeferredVotes => ∃ outbound, (rt.replayDeferredVotes env).2 = .ok outbound
  | _ => True

/-- The operation does not replay the vote. -/
def LeavesWaiting (v : ConsensusMessage) (env : Env) (rt : ConsensusRuntime) : Operation → Prop
  | .call .replayDeferredVotes => ∀ w ∈ rt.deferredVotes, w.SaysSame v → ¬TakenUp env rt w
  | _ => True

/-- No further vote is deferred while this one is the oldest of a full queue. -/
def KeepsDeferred (v : ConsensusMessage) (rt : ConsensusRuntime) : Operation → Prop
  | .call (.deferVote u) => ∀ w, w.SaysSame v → ¬PushesOut rt u w
  | _ => True

/-- A deferred vote survives an operation. -/
theorem mem_deferredVotes_perform (hbounded : Bounded rt) {op : Operation}
    (hdisciplined : Disciplined env rt op) (hleaves : LeavesWaiting v env rt op)
    (hkeeps : KeepsDeferred v rt op) (hbefore : InRound v rt) (hafter : InRound v (rt.perform env op))
    {kept : ConsensusMessage} (hsame : kept.SaysSame v) (hkept : kept ∈ rt.deferredVotes) :
    kept ∈ (rt.perform env op).deferredVotes := by
  by_cases hdefer : ∃ u, op = .call (.deferVote u)
  · obtain ⟨u, rfl⟩ := hdefer
    exact mem_deferVote hkept (hkeeps kept hsame)
  · by_cases hreplay : op = .call .replayDeferredVotes
    · subst hreplay
      obtain ⟨outbound, hok⟩ := hdisciplined
      exact (replayLoop_keeps hok hkept).resolve_right (hleaves kept hkept hsame)
    · rcases queueKept_perform hbounded env (fun u hu => hdefer ⟨u, hu⟩) hreplay with
        hqueue | ⟨-, hheight | hround⟩
      · rw [hqueue]
        exact hkept
      · exact absurd (hafter.1.trans hbefore.1.symm) hheight
      · exact absurd (hbefore.2.trans hafter.2.symm) hround.ne

/-- In every run under the discipline of the main loop in which no further vote is deferred
while this one is the oldest of a full queue, a deferred vote waits until it is replayed or its
round is over. -/
theorem deferredVote_waits_of_run {validators : List Validator} {rt₀ : ConsensusRuntime}
    (hstart : Prepared validators rt₀) (hrun : Operated Disciplined rt₀ rt)
    (hround : InRound v rt)
    (hlater : OperatedWhile (InRound v)
      (fun env rt op => Disciplined env rt op ∧ LeavesWaiting v env rt op ∧ KeepsDeferred v rt op)
      (rt.deferVote v) rt') :
    ∃ kept ∈ rt'.deferredVotes, kept.SaysSame v ∧
      ((¬∃ known ∈ rt.deferredVotes, known.SaysSame v) → kept = v) := by
  have hbounded := bounded_operated (bounded_prepared hstart) hrun
  obtain ⟨kept, hkept, hsame, hnew⟩ := rt.exists_deferVote v
  refine ⟨kept, ?_, hsame, hnew⟩
  have hdeferred : Bounded (rt.deferVote v) ∧ InRound v (rt.deferVote v) := by
    obtain ⟨-, hstayed⟩ := rt.frame_deferVote v
    refine ⟨(rt.kept_deferVote v).bounded hbounded, ?_, ?_⟩
    · rw [hstayed.core.height]
      exact hround.1
    · rw [hstayed.core.round]
      exact hround.2
  suffices h : Bounded rt' ∧ InRound v rt' ∧ kept ∈ rt'.deferredVotes from h.2.2
  induction hlater with
  | refl => exact ⟨hdeferred.1, hdeferred.2, hkept⟩
  | tail _ hstep ih =>
      obtain ⟨⟨env, op, ⟨hdisciplined, hleaves, hkeeps⟩, rfl⟩, hafter⟩ := hstep
      obtain ⟨hbefore, hin, hmem⟩ := ih
      exact ⟨(perform_tracking hbefore env op).bounded hbefore, hafter,
        mem_deferredVotes_perform hbefore hdisciplined hleaves hkeeps hin hafter hsame hmem⟩

end

end ConsensusRuntime

namespace BftConsensus

/-- A vote that is in order comes too early if the phase does not accept it. -/
theorem checkVote_premature [Crypto] {c : BftConsensus} {m : ConsensusMessage}
    (hheight : m.height = c.height) (hround : m.round = c.round)
    (hmember : m.validatorId ∈ c.validators) (hverify : m.verify = .ok ())
    (hphase : acceptsVote c.phase m.voteType = false) : c.checkVote m = .error stageMismatch := by
  simp [checkVote, reject, hheight, hround, hmember, hverify, hphase]
  rfl

end BftConsensus

namespace Quartet

open ConsensusRuntime

attribute [local instance] timeoutsCrypto

/-- Prevotes of the third validator for as many blocks as it likes to make up. -/
def spam (n : ℕ) : ConsensusMessage :=
  { height := 1, round := 0, validatorId := StandIn.address 3, voteType := .prevote
    blockHash := String.ofList (List.replicate n 'a')
    signature := StandIn.sign 3 (ConsensusMessage.bytesToSign 1 0 (StandIn.address 3) .prevote
      (String.ofList (List.replicate n 'a'))) }

/-- The prevote of the second validator and behind it those of the third. -/
def queue (n : ℕ) : List ConsensusMessage := prevoteOf 0 2 :: (List.range n).map spam

/-- The fresh node with deferred votes. -/
def waiting (rt : ConsensusRuntime) (votes : List ConsensusMessage) : ConsensusRuntime :=
  { rt with deferredVotes := votes }

theorem spam_injective {n k : ℕ} (h : (spam n).blockHash = (spam k).blockHash) : n = k := by
  have hlist := congrArg String.toList h
  simp only [spam, String.toList_ofList] at hlist
  simpa using congrArg List.length hlist

theorem not_says_same (n : ℕ) : ¬(spam n).SaysSame (prevoteOf 0 2) := by
  rintro ⟨-, -, -, hid, -⟩
  exact StandIn.address_ne (by decide : UInt8.ofNat 3 ≠ UInt8.ofNat 2) hid

section
variable {rt : ConsensusRuntime} {votes : List ConsensusMessage}

theorem waiting_fresh (h : started = .ok rt) : waiting rt [] = rt := by
  simp only [started, withSigner, bind_eq_ok, pure_eq_ok] at h
  obtain ⟨c, -, rfl⟩ := h
  rfl

/-- The fresh node has no proposal yet. -/
theorem checkVote_queued (h : started = .ok rt) {n : ℕ} {v : ConsensusMessage} (hv : v ∈ queue n) :
    rt.consensus.checkVote v = .error BftConsensus.stageMismatch := by
  obtain ⟨⟨hheight, hround, hphase⟩, -, -, -, hlookup⟩ := fresh_spec h
  have hmember : ∀ k ∈ [1, 2, 3, 4], StandIn.address k ∈ rt.consensus.validators := by
    intro k hk
    rw [← AList.lookup_isSome, hlookup k hk]
    rfl
  rcases List.mem_cons.1 hv with rfl | hv
  · refine BftConsensus.checkVote_premature hheight.symm hround.symm (hmember 2 (by decide))
      (StandIn.verifySignature_sign _ 2 _) ?_
    rw [hphase]
    rfl
  · obtain ⟨k, -, rfl⟩ := List.mem_map.1 hv
    refine BftConsensus.checkVote_premature hheight.symm hround.symm (hmember 3 (by decide))
      (StandIn.verifySignature_sign _ 3 _) ?_
    rw [hphase]
    rfl

theorem new_spam (n : ℕ) : ¬∃ known ∈ queue n, known.SaysSame (spam n) := by
  rintro ⟨known, hknown, hsame⟩
  rcases List.mem_cons.1 hknown with rfl | hknown
  · exact StandIn.address_ne (by decide : UInt8.ofNat 2 ≠ UInt8.ofNat 3) hsame.2.2.2.1
  · obtain ⟨k, hk, rfl⟩ := List.mem_map.1 hknown
    exact (List.mem_range.1 hk).ne (spam_injective hsame.2.2.2.2)

theorem queue_succ (n : ℕ) : queue (n + 1) = queue n ++ [spam n] := by
  rw [queue, List.range_succ, List.map_append]
  rfl

theorem length_queue (n : ℕ) : (queue n).length = n + 1 := by
  rw [queue, List.length_cons, List.length_map, List.length_range]

theorem inRound_waiting (h : started = .ok rt) : InRound (prevoteOf 0 2) (waiting rt votes) := by
  obtain ⟨⟨hheight, hround, -⟩, -⟩ := fresh_spec h
  exact ⟨hheight, hround⟩

/-- What the third validator may do while the second one's prevote waits. -/
def SpamOnly (env : Env) (rt : ConsensusRuntime) (op : Operation) : Prop :=
  Disciplined env rt op ∧ LeavesWaiting (prevoteOf 0 2) env rt op ∧
    ((∃ n, op = .call (.deferVote (spam n))) ∨ op = .call .replayDeferredVotes)

theorem disciplined_queued (h : started = .ok rt) {n : ℕ} {v : ConsensusMessage}
    (hv : v ∈ queue n) : Disciplined env (waiting rt votes) (.call (.deferVote v)) := by
  have hearly : (waiting rt votes).consensus.checkVote v = .error BftConsensus.stageMismatch :=
    checkVote_queued h hv
  exact congrArg Prod.snd (receiveVote_premature hearly)

theorem spamOnly_defer (h : started = .ok rt) (n : ℕ) :
    SpamOnly env (waiting rt votes) (.call (.deferVote (spam n))) := by
  refine ⟨@disciplined_queued _ votes h (n + 1) _ ?_, trivial, .inl ⟨n, rfl⟩⟩
  rw [queue_succ]
  exact List.mem_append_right _ (List.mem_singleton_self _)

/-- The replay after each vote leaves all of them where they are. -/
theorem spamOnly_replay (h : started = .ok rt) (n : ℕ) :
    SpamOnly env (waiting rt (queue n)) (.call .replayDeferredVotes) ∧
      (waiting rt (queue n)).perform env (.call .replayDeferredVotes) = waiting rt (queue n) := by
  have hearly : ∀ u ∈ (waiting rt (queue n)).deferredVotes,
      (waiting rt (queue n)).consensus.checkVote u = .error BftConsensus.stageMismatch :=
    fun u hu => checkVote_queued h hu
  obtain ⟨hreplay, huntaken⟩ := @replay_premature _ _ env hearly
  exact ⟨⟨⟨[], congrArg Prod.snd hreplay⟩, fun w _ _ => huntaken w, .inr rfl⟩,
    congrArg Prod.fst hreplay⟩

theorem perform_deferVote (rt : ConsensusRuntime) (v : ConsensusMessage) :
    rt.perform env (.call (.deferVote v)) = rt.deferVote v := rfl

theorem spam_fits (rt : ConsensusRuntime) {n : ℕ} (hn : n + 1 < maxDeferredVotes) :
    (waiting rt (queue n)).perform env (.call (.deferVote (spam n))) =
      waiting rt (queue (n + 1)) := by
  have hroom : ¬maxDeferredVotes ≤ (waiting rt (queue n)).deferredVotes.length := by
    have := length_queue n
    simp only [waiting]
    omega
  have hnew : ¬∃ known ∈ (waiting rt (queue n)).deferredVotes, known.SaysSame (spam n) := new_spam n
  rw [perform_deferVote, deferVote_new hnew, if_neg hroom, queue_succ]
  rfl

/-- The prevote of the second validator is the first to be deferred. -/
theorem defer_first (h : started = .ok rt) : rt.deferVote (prevoteOf 0 2) = waiting rt (queue 0) := by
  rw [← waiting_fresh h]
  rfl

/-- The third validator fills the queue. -/
theorem spam_run (h : started = .ok rt) {n : ℕ} (hn : n < maxDeferredVotes) :
    OperatedWhile (InRound (prevoteOf 0 2)) SpamOnly (waiting rt (queue 0))
      (waiting rt (queue n)) := by
  induction n with
  | zero => exact .refl
  | succ n ih =>
      obtain ⟨hreplay, hsame⟩ := spamOnly_replay h (n + 1)
      have hdefer := spam_fits rt hn
      refine .tail (.tail (ih (Nat.lt_of_succ_lt hn)) ⟨⟨env, _, spamOnly_defer h n, hdefer⟩, ?_⟩)
        ⟨⟨env, _, hreplay, hsame⟩, ?_⟩
      · exact inRound_waiting h
      · exact inRound_waiting h

end

/-- One validator that prevotes 1024 blocks pushes the prevote of another one out. -/
theorem spam_pushes_out : ∃ rt₀ rt', Prepared members rt₀ ∧ InRound (prevoteOf 0 2) rt₀ ∧
    Disciplined env rt₀ (.call (.deferVote (prevoteOf 0 2))) ∧
    OperatedWhile (InRound (prevoteOf 0 2)) SpamOnly (rt₀.deferVote (prevoteOf 0 2)) rt' ∧
    InRound (prevoteOf 0 2) rt' ∧ ¬∃ kept ∈ rt'.deferredVotes, kept.SaysSame (prevoteOf 0 2) := by
  obtain ⟨rt₀, h⟩ := started_ok
  have hfirst : Disciplined env rt₀ (.call (.deferVote (prevoteOf 0 2))) := by
    have hqueued := @disciplined_queued _ [] h 0 _ (List.mem_cons_self ..)
    rw [waiting_fresh h] at hqueued
    exact hqueued
  have hround : InRound (prevoteOf 0 2) rt₀ := by
    have hwaiting := @inRound_waiting _ [] h
    rw [waiting_fresh h] at hwaiting
    exact hwaiting
  have hnew : ¬∃ known ∈ (waiting rt₀ (queue 1023)).deferredVotes, known.SaysSame (spam 1023) :=
    new_spam 1023
  have hfull : maxDeferredVotes ≤ (waiting rt₀ (queue 1023)).deferredVotes.length := by
    simp only [waiting]
    rw [length_queue]
    decide
  have hlast : (waiting rt₀ (queue 1023)).perform env (.call (.deferVote (spam 1023))) =
      waiting rt₀ ((queue 1023).drop 1 ++ [spam 1023]) := by
    rw [perform_deferVote, deferVote_new hnew, if_pos hfull]
    rfl
  have hrun := spam_run h (by decide : 1023 < maxDeferredVotes)
  rw [← defer_first h] at hrun
  refine ⟨rt₀, _, prepared h, hround, hfirst,
    hrun.tail ⟨⟨env, _, spamOnly_defer h 1023, hlast⟩, inRound_waiting h⟩, inRound_waiting h, ?_⟩
  rintro ⟨kept, hkept, hsame⟩
  have hspam : ∃ n, kept = spam n := by
    rcases List.mem_append.1 hkept with hkept | hkept
    · obtain ⟨n, -, hn⟩ := List.mem_map.1 (show kept ∈ (List.range 1023).map spam from hkept)
      exact ⟨n, hn.symm⟩
    · exact ⟨1023, List.mem_singleton.1 hkept⟩
  obtain ⟨n, rfl⟩ := hspam
  exact not_says_same n hsame

/-- The prevote of the second validator next to one of the third. -/
theorem deferredVote_waits_of_run_spam : ∃ rt₀ rt', Prepared members rt₀ ∧
    OperatedWhile (InRound (prevoteOf 0 2))
      (fun env rt op => Disciplined env rt op ∧ LeavesWaiting (prevoteOf 0 2) env rt op ∧
        KeepsDeferred (prevoteOf 0 2) rt op) (rt₀.deferVote (prevoteOf 0 2)) rt' ∧
    ∃ kept ∈ rt'.deferredVotes, kept.SaysSame (prevoteOf 0 2) := by
  obtain ⟨rt₀, h⟩ := started_ok
  have hround : InRound (prevoteOf 0 2) rt₀ := by
    have hwaiting := @inRound_waiting _ [] h
    rw [waiting_fresh h] at hwaiting
    exact hwaiting
  obtain ⟨hdisciplined, hleaves, -⟩ := @spamOnly_defer _ (queue 0) h 0
  have hkeeps : KeepsDeferred (prevoteOf 0 2) (waiting rt₀ (queue 0)) (.call (.deferVote (spam 0))) := by
    intro w _ hpushes
    exact absurd hpushes.full (by decide : ¬maxDeferredVotes ≤ (queue 0).length)
  have hrun : OperatedWhile (InRound (prevoteOf 0 2))
      (fun env rt op => Disciplined env rt op ∧ LeavesWaiting (prevoteOf 0 2) env rt op ∧
        KeepsDeferred (prevoteOf 0 2) rt op) (rt₀.deferVote (prevoteOf 0 2))
      (waiting rt₀ (queue 1)) := by
    rw [defer_first h]
    exact .single ⟨⟨env, _, ⟨hdisciplined, hleaves, hkeeps⟩,
      spam_fits rt₀ (by decide : 0 + 1 < maxDeferredVotes)⟩, inRound_waiting h⟩
  obtain ⟨kept, hkept, hsame, -⟩ := deferredVote_waits_of_run (prepared h) .refl hround hrun
  exact ⟨rt₀, _, prepared h, hrun, kept, hkept, hsame⟩

end Quartet

end IeumChain
