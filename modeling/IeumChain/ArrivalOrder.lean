import IeumChain.Tallies
import IeumChain.OwnProposals

/-!
# The order in which votes arrive

The main loop gives the node a proposal and votes as they come, hands the node's own
votes back to it, defers a vote that comes too early and replays the deferred votes after
every event. Whatever the order, the node ends with the same votes counted, hence in the
same phase and on the same chain, unless the queue of deferred votes overflows and loses
a vote that was waiting for the block.
-/
namespace IeumChain

open Outcome MachineWords FiniteMap

namespace ConsensusRuntime

section
variable [Crypto]

/-- The node hears its own precommit. -/
def feedBack (rt : ConsensusRuntime) (env : Env) :
    Option ConsensusMessage → ConsensusRuntime × Except String Unit
  | none => (rt, .ok ())
  | some precommit =>
      match rt.receiveVote env precommit with
      | (rt, .error e) => (rt, .error e)
      | (rt, .ok _) => (rt, .ok ())

variable {rt rt' start : ConsensusRuntime} {env : Env} {b : Block} {next : Blockchain}
  {voter : VoteType → String → Prop} {v : ConsensusMessage}

/-- A round in progress between two events: the node's own votes are counted. -/
structure Settled (start : ConsensusRuntime) (b : Block) (next : Blockchain)
    (voter : VoteType → String → Prop) (rt : ConsensusRuntime) : Prop where
  voting : Voting start b next voter rt
  ownPrevote : start.validator ∈ rt.consensus.tally .prevote b.hash
  ownPrecommit : rt.consensus.phase ≠ .prevote →
    start.validator ∈ rt.consensus.tally .precommit b.hash
  waits : rt.consensus.phase = .prevote →
    ¬rt.consensus.Enough (rt.consensus.tally .prevote b.hash)

/-- Votes are only ever added to the count, and the phase only ever advances. -/
structure Gains (b : Block) (rt rt' : ConsensusRuntime) : Prop where
  tally : ∀ t, rt.consensus.tally t b.hash ⊆ rt'.consensus.tally t b.hash
  onward : rt.consensus.phase ≠ .prevote → rt'.consensus.phase ≠ .prevote

omit [Crypto] in
theorem Gains.refl (b : Block) (rt : ConsensusRuntime) : Gains b rt rt :=
  ⟨fun _ => subset_rfl, id⟩

omit [Crypto] in
theorem Gains.trans {rt'' : ConsensusRuntime} (h : Gains b rt rt') (h' : Gains b rt' rt'') :
    Gains b rt rt'' :=
  ⟨fun t => (h.tally t).trans (h'.tally t), fun hphase => h'.onward (h.onward hphase)⟩

omit [Crypto] in
theorem Counts.gains (h : Counts b v rt rt') : Gains b rt rt' := by
  refine ⟨fun t => ?_, h.onward⟩
  by_cases ht : t = v.voteType
  · subst ht
    rw [h.self]
    exact Finset.subset_insert _ _
  · rw [h.other t ht]

omit [Crypto] in
theorem Unmoved.gains (h : Unmoved rt rt') : Gains b rt rt' := by
  refine ⟨fun t => ?_, ?_⟩
  · unfold BftConsensus.tally
    rw [h.votes]
  · rw [h.phase]
    exact id

/-- A vote that the phase accepts is counted, together with the precommit that it calls for. -/
theorem Voting.absorb (h : Voting start b next voter rt)
    (hself : start.validator ∈ start.consensus.validators) (hsigner : start.SignerWorks env)
    (happly : start.chain.applyBlock b = .ok next) (howns : ∀ t, voter t start.validator)
    (hbacks : start.consensus.Backs b.hash v) (hvoter : voter v.voteType v.validatorId)
    (haccepts : BftConsensus.acceptsVote rt.consensus.phase v.voteType = true)
    (hprevote : start.validator ∈ rt.consensus.tally .prevote b.hash ∨
      v.voteType = .prevote ∧ v.validatorId = start.validator)
    (hprecommit : rt.consensus.phase ≠ .prevote →
      start.validator ∈ rt.consensus.tally .precommit b.hash) :
    ∃ rt₁ rt₂ reply, rt.receiveVote env v = (rt₁, .ok reply) ∧
      rt₁.feedBack env reply = (rt₂, .ok ()) ∧ Settled start b next voter rt₂ ∧ Gains b rt rt₂ ∧
      v.validatorId ∈ rt₂.consensus.tally v.voteType b.hash ∧
      rt₂.deferredVotes = rt.deferredVotes := by
  obtain ⟨rt₁, reply, hreceive, hvoting₁, hcounts, hanswers⟩ :=
    h.receive hself hsigner happly hbacks hvoter haccepts
  have hgains := hcounts.gains
  have hcounted : v.validatorId ∈ rt₁.consensus.tally v.voteType b.hash := by
    rw [hcounts.self]
    exact Finset.mem_insert_self _ _
  have hprevote₁ : start.validator ∈ rt₁.consensus.tally .prevote b.hash := by
    rcases hprevote with hprevote | ⟨htype, hid⟩
    · exact hgains.tally _ hprevote
    · rw [← htype, ← hid]
      exact hcounted
  cases reply with
  | none =>
      refine ⟨rt₁, rt₁, none, hreceive, rfl, ⟨hvoting₁, hprevote₁, fun hphase => ?_, fun hphase => ?_⟩,
        hgains, hcounted, hcounts.deferredVotes⟩
      · refine hgains.tally _ (hprecommit fun hbefore => ?_)
        cases hvoting₁.stage with
        | prevote hother => exact hphase hother
        | precommit hother => exact absurd (hanswers.precommit hother) Bool.false_ne_true
        | finalized hother => exact hcounts.step hbefore hother
      · refine hcounts.open_ ?_ hphase
        have hbefore : rt.consensus.phase = .prevote :=
          by_contra fun hbefore => hcounts.onward hbefore hphase
        cases hvote : v.voteType with
        | prevote => rfl
        | precommit =>
            rw [hbefore, hvote] at haccepts
            cases haccepts
  | some m =>
      obtain ⟨hphase, htype, hid, hown⟩ := hanswers.own m rfl
      obtain ⟨rt₂, reply', hreceive', hvoting₂, hcounts', -⟩ := @Voting.receive _ rt₁ env start b
        next voter m hvoting₁ hself hsigner happly hown (by rw [hid]; exact howns _) (by
          rw [hphase, htype]
          rfl)
      have hlater : rt₂.consensus.phase ≠ .prevote :=
        hcounts'.onward (by rw [hphase]; exact ConsensusPhase.noConfusion)
      refine ⟨rt₁, rt₂, some m, hreceive, ?_, ⟨hvoting₂, hcounts'.gains.tally _ hprevote₁,
        fun _ => ?_, fun hother => absurd hother hlater⟩, hgains.trans hcounts'.gains,
        hcounts'.gains.tally _ hcounted, hcounts'.deferredVotes.trans hcounts.deferredVotes⟩
      · simp only [feedBack, hreceive']
      · rw [← htype, hcounts'.self, hid]
        exact Finset.mem_insert_self _ _

/-! ## Replays -/

theorem replayPass_cons_ok {rt₁ rt₂ : ConsensusRuntime} {reply : Option ConsensusMessage}
    (hreceive : rt.receiveVote env v = (rt₁, .ok reply))
    (hfeed : rt₁.feedBack env reply = (rt₂, .ok ())) (rest : List ConsensusMessage)
    (progressed : Bool) (remaining outbound : List ConsensusMessage) :
    replayPass env (v :: rest) rt progressed remaining outbound =
      replayPass env rest rt₂ true remaining (outbound ++ reply.toList) := by
  cases reply with
  | none =>
      cases hfeed
      rw [replayPass, hreceive, Option.toList_none, List.append_nil]
  | some m =>
      unfold feedBack at hfeed
      rw [replayPass, hreceive, Option.toList_some]
      cases hanswer : rt₁.receiveVote env m with
      | mk rt₃ result =>
          simp only [hanswer] at hfeed
          cases result with
          | error e => cases hfeed
          | ok reply' =>
              cases hfeed
              simp only [hanswer]

theorem replayPass_cons_error {rt₁ : ConsensusRuntime} {e : String}
    (hreceive : rt.receiveVote env v = (rt₁, .error e)) (rest : List ConsensusMessage)
    (progressed : Bool) (remaining outbound : List ConsensusMessage) :
    replayPass env (v :: rest) rt progressed remaining outbound =
      replayPass env rest rt₁ progressed
        (remaining ++ if isDeferableVoteError e then [v] else []) outbound := by
  rw [replayPass, hreceive]
  dsimp only
  split_ifs
  · rfl
  · rw [List.append_nil]

/-- A pass over votes, none of which is lost: what is not counted is a precommit that is still
too early and stays. -/
theorem Settled.pass (hself : start.validator ∈ start.consensus.validators)
    (hsigner : start.SignerWorks env) (happly : start.chain.applyBlock b = .ok next)
    (howns : ∀ t, voter t start.validator) {votes : List ConsensusMessage}
    (hloyal : ∀ v ∈ votes, Loyal start b voter v) (h : Settled start b next voter rt)
    (progressed : Bool) (remaining outbound : List ConsensusMessage) :
    ∃ rt' progressed' kept outbound', replayPass env votes rt progressed remaining outbound =
        (rt', .ok (progressed', remaining ++ kept, outbound')) ∧
      Settled start b next voter rt' ∧ Gains b rt rt' ∧ rt'.deferredVotes = rt.deferredVotes ∧
      kept.Sublist votes ∧
      (∀ v ∈ votes, start.consensus.Backs b.hash v →
        v.validatorId ∈ rt'.consensus.tally v.voteType b.hash ∨ v ∈ kept) ∧
      (progressed' = true → progressed = true ∨ kept.length < votes.length) ∧
      (progressed' = false → progressed = false ∧ rt'.consensus.phase = rt.consensus.phase ∧
        ∀ v ∈ votes, start.consensus.Backs b.hash v →
          BftConsensus.acceptsVote rt.consensus.phase v.voteType = false) := by
  induction votes generalizing rt progressed remaining outbound with
  | nil =>
      exact ⟨rt, progressed, [], outbound, by rw [List.append_nil]; rfl, h, .refl b rt, rfl, .slnil,
        List.forall_mem_nil _, .inl, fun hno => ⟨hno, rfl, List.forall_mem_nil _⟩⟩
  | cons v rest ih =>
      have hrest := fun w hw => hloyal w (List.mem_cons_of_mem v hw)
      have hfirst := hloyal v (List.mem_cons_self ..)
      by_cases hbacks : start.consensus.Backs b.hash v
      · cases haccepts : BftConsensus.acceptsVote rt.consensus.phase v.voteType with
        | true =>
            obtain ⟨rt₁, rt₂, reply, hreceive, hfeed, hsettled, hgains, hcounted, hqueue⟩ :=
              h.voting.absorb hself hsigner happly howns hbacks (hfirst.voter hbacks) haccepts
                (.inl h.ownPrevote) h.ownPrecommit
            obtain ⟨rt', progressed', kept, outbound', hpass, hsettled', hgains', hqueue', hsub,
              hkept, -, hstill⟩ := ih hrest hsettled true remaining (outbound ++ reply.toList)
            refine ⟨rt', progressed', kept, outbound', ?_, hsettled', hgains.trans hgains',
              hqueue'.trans hqueue, hsub.cons v, ?_, fun _ => .inr ?_, fun hno => ?_⟩
            · rw [replayPass_cons_ok hreceive hfeed, hpass]
            · intro w hw hback
              rcases List.mem_cons.1 hw with rfl | hw
              · exact .inl (hgains'.tally _ hcounted)
              · exact hkept w hw hback
            · exact Nat.lt_succ_of_le hsub.length_le
            · exact absurd (hstill hno).1 (by decide)
        | false =>
            have hreceive := @Voting.premature _ rt env start b next voter v h.voting hbacks haccepts
            obtain ⟨rt', progressed', kept, outbound', hpass, hsettled', hgains', hqueue', hsub,
              hkept, hmore, hstill⟩ := ih hrest h progressed (remaining ++ [v]) outbound
            refine ⟨rt', progressed', v :: kept, outbound', ?_, hsettled', hgains', hqueue',
              hsub.cons_cons v, ?_, ?_, fun hno => ?_⟩
            · rw [replayPass_cons_error hreceive, if_pos deferable_stageMismatch, hpass,
                List.append_assoc]
              rfl
            · intro w hw hback
              rcases List.mem_cons.1 hw with rfl | hw
              · exact .inr (List.mem_cons_self ..)
              · exact (hkept w hw hback).imp_right (List.mem_cons_of_mem _)
            · exact fun hyes => (hmore hyes).imp_right Nat.succ_lt_succ
            · obtain ⟨hbefore, hphase, hall⟩ := hstill hno
              refine ⟨hbefore, hphase, fun w hw hback => ?_⟩
              rcases List.mem_cons.1 hw with rfl | hw
              · exact haccepts
              · exact hall w hw hback
      · obtain ⟨rt₁, e, hreceive, hvoting, hunmoved⟩ := h.voting.other env hfirst hbacks
        have hsettled : Settled start b next voter rt₁ := by
          have htally : ∀ t, rt₁.consensus.tally t b.hash = rt.consensus.tally t b.hash := by
            intro t
            unfold BftConsensus.tally
            rw [hunmoved.votes]
          have henough : ∀ s, rt₁.consensus.Enough s ↔ rt.consensus.Enough s := fun s =>
            BftConsensus.Enough.congr
              (hvoting.ground.validators.trans h.voting.ground.validators.symm)
              (hvoting.ground.totalPower.trans h.voting.ground.totalPower.symm)
          refine ⟨hvoting, ?_, ?_, ?_⟩
          · rw [htally]
            exact h.ownPrevote
          · rw [htally, hunmoved.phase]
            exact h.ownPrecommit
          · rw [htally, hunmoved.phase, henough]
            exact h.waits
        obtain ⟨rt', progressed', kept, outbound', hpass, hsettled', hgains', hqueue', hsub,
          hkept, hmore, hstill⟩ := ih hrest hsettled progressed
            (remaining ++ if isDeferableVoteError e then [v] else []) outbound
        refine ⟨rt', progressed', (if isDeferableVoteError e then [v] else []) ++ kept, outbound', ?_,
          hsettled', hunmoved.gains.trans hgains', hqueue'.trans hunmoved.deferredVotes, ?_, ?_,
          fun hyes => (hmore hyes).imp_right fun hlt => ?_, fun hno => ?_⟩
        · rw [replayPass_cons_error hreceive, hpass, List.append_assoc]
        · split_ifs
          · exact hsub.cons_cons v
          · exact hsub.cons v
        · intro w hw hback
          rcases List.mem_cons.1 hw with rfl | hw
          · exact absurd hback hbacks
          · exact (hkept w hw hback).imp_right (List.mem_append_right _)
        · split_ifs
          · exact Nat.succ_lt_succ hlt
          · exact Nat.lt_succ_of_lt hlt
        · obtain ⟨hbefore, hphase, hall⟩ := hstill hno
          refine ⟨hbefore, hphase.trans hunmoved.phase, fun w hw hback => ?_⟩
          rcases List.mem_cons.1 hw with rfl | hw
          · exact absurd hback hbacks
          · rw [← hunmoved.phase]
            exact hall w hw hback

/-- The passes of the source, as many as it takes. -/
inductive Replays (env : Env) : ConsensusRuntime → List ConsensusMessage →
    ConsensusRuntime × Except String (List ConsensusMessage) → Prop
  | fails {rt rt' : ConsensusRuntime} {outbound : List ConsensusMessage} {e : String}
      (pass : replayPass env rt.deferredVotes { rt with deferredVotes := [] } false [] outbound =
        (rt', .error e)) : Replays env rt outbound (rt', .error e)
  | stops {rt rt' : ConsensusRuntime} {outbound remaining outbound' : List ConsensusMessage}
      (pass : replayPass env rt.deferredVotes { rt with deferredVotes := [] } false [] outbound =
        (rt', .ok (false, remaining, outbound'))) :
      Replays env rt outbound ({ rt' with deferredVotes := remaining }, .ok outbound')
  | again {rt rt' : ConsensusRuntime} {outbound remaining outbound' : List ConsensusMessage}
      {result : ConsensusRuntime × Except String (List ConsensusMessage)}
      (pass : replayPass env rt.deferredVotes { rt with deferredVotes := [] } false [] outbound =
        (rt', .ok (true, remaining, outbound')))
      (rest : Replays env { rt' with deferredVotes := remaining } outbound' result) :
      Replays env rt outbound result

/-- A pass keeps some of the votes it is given, and fewer if one of them made progress. -/
theorem replayPass_queue (env : Env) (votes : List ConsensusMessage) (rt : ConsensusRuntime)
    (progressed : Bool) (remaining outbound : List ConsensusMessage) :
    (replayPass env votes rt progressed remaining outbound).1.deferredVotes = rt.deferredVotes ∧
      ∀ progressed' kept outbound', (replayPass env votes rt progressed remaining outbound).2 =
        .ok (progressed', kept, outbound') → kept.Sublist (remaining ++ votes) ∧
          (progressed' = true →
            progressed = true ∨ kept.length < remaining.length + votes.length) := by
  induction votes generalizing rt progressed remaining outbound with
  | nil =>
      refine ⟨rfl, ?_⟩
      rintro _ _ _ ⟨⟩
      rw [List.append_nil]
      exact ⟨.refl _, .inl⟩
  | cons vote rest ih =>
      have hqueue := rt.deferredVotes_receiveVote env vote
      have hskip : ∀ {kept : List ConsensusMessage}, kept.Sublist (remaining ++ rest) →
          kept.Sublist (remaining ++ vote :: rest) ∧
            kept.length < remaining.length + (vote :: rest).length := by
        intro kept hsub
        have hlength := hsub.length_le
        rw [List.length_append] at hlength
        rw [List.length_cons]
        exact ⟨hsub.trans (.append (.refl _) (List.sublist_cons_self _ _)), by omega⟩
      rw [replayPass]
      cases hreceive : rt.receiveVote env vote with
      | mk rt₁ result =>
          rw [hreceive] at hqueue
          cases result with
          | error e =>
              dsimp only
              split_ifs
              · obtain ⟨hsame, hkept⟩ := ih rt₁ progressed (remaining ++ [vote]) outbound
                rw [List.append_assoc, List.length_append] at hkept
                refine ⟨hsame.trans hqueue, fun progressed' kept outbound' h => ?_⟩
                obtain ⟨hsub, hmore⟩ := hkept progressed' kept outbound' h
                rw [List.length_cons, Nat.add_comm rest.length, ← Nat.add_assoc]
                exact ⟨hsub, hmore⟩
              · obtain ⟨hsame, hkept⟩ := ih rt₁ progressed remaining outbound
                refine ⟨hsame.trans hqueue, fun progressed' kept outbound' h => ?_⟩
                obtain ⟨hsub, hmore⟩ := hskip (hkept progressed' kept outbound' h).1
                exact ⟨hsub, fun _ => .inr hmore⟩
          | ok reply =>
              cases reply with
              | none =>
                  obtain ⟨hsame, hkept⟩ := ih rt₁ true remaining outbound
                  refine ⟨hsame.trans hqueue, fun progressed' kept outbound' h => ?_⟩
                  obtain ⟨hsub, hmore⟩ := hskip (hkept progressed' kept outbound' h).1
                  exact ⟨hsub, fun _ => .inr hmore⟩
              | some precommit =>
                  have hqueue₁ := rt₁.deferredVotes_receiveVote env precommit
                  dsimp only
                  cases hanswer : rt₁.receiveVote env precommit with
                  | mk rt₂ result =>
                      rw [hanswer] at hqueue₁
                      cases result with
                      | error e =>
                          refine ⟨hqueue₁.trans hqueue, ?_⟩
                          rintro _ _ _ ⟨⟩
                      | ok reply =>
                          obtain ⟨hsame, hkept⟩ :=
                            ih rt₂ true remaining (outbound ++ [precommit])
                          refine ⟨hsame.trans (hqueue₁.trans hqueue),
                            fun progressed' kept outbound' h => ?_⟩
                          obtain ⟨hsub, hmore⟩ := hskip (hkept progressed' kept outbound' h).1
                          exact ⟨hsub, fun _ => .inr hmore⟩

theorem replays_replayLoop {fuel : ℕ} {outbound : List ConsensusMessage}
    (h : rt.deferredVotes.length < fuel) : Replays env rt outbound (replayLoop env fuel rt outbound) := by
  induction fuel generalizing rt outbound with
  | zero => cases h
  | succ fuel ih =>
      rw [replayLoop]
      cases hpass : replayPass env rt.deferredVotes { rt with deferredVotes := [] } false [] outbound with
      | mk rt₁ result =>
          cases result with
          | error e => exact .fails hpass
          | ok result =>
              obtain ⟨progressed, remaining, outbound'⟩ := result
              cases progressed with
              | false => exact .stops hpass
              | true =>
                  have hmore := ((replayPass_queue env rt.deferredVotes { rt with deferredVotes := [] }
                    false [] outbound).2 true remaining outbound' (by rw [hpass])).2
                  have hlt : remaining.length < rt.deferredVotes.length := by
                    simpa using hmore rfl
                  exact .again hpass (@ih { rt₁ with deferredVotes := remaining } outbound'
                    (hlt.trans_le (Nat.le_of_lt_succ h)))

/-- The replay ends. -/
theorem replays_replayDeferredVotes (rt : ConsensusRuntime) (env : Env) :
    Replays env rt [] (rt.replayDeferredVotes env) :=
  replays_replayLoop (Nat.lt_succ_self _)

/-- A replay adds no vote to the queue. -/
theorem Replays.sublist {outbound : List ConsensusMessage}
    {result : ConsensusRuntime × Except String (List ConsensusMessage)}
    (h : Replays env rt outbound result) :
    result.1.deferredVotes.Sublist rt.deferredVotes := by
  induction h with
  | @fails rt rt' outbound e hpass =>
      have hqueue := (replayPass_queue env rt.deferredVotes { rt with deferredVotes := [] } false []
        outbound).1
      rw [hpass] at hqueue
      dsimp only at hqueue ⊢
      rw [hqueue]
      exact List.nil_sublist _
  | @stops rt rt' outbound remaining outbound' hpass =>
      exact ((replayPass_queue env rt.deferredVotes { rt with deferredVotes := [] } false []
        outbound).2 false remaining outbound' (by rw [hpass])).1
  | @again rt rt' outbound remaining outbound' result hpass _ ih =>
      exact ih.trans ((replayPass_queue env rt.deferredVotes { rt with deferredVotes := [] } false []
        outbound).2 true remaining outbound' (by rw [hpass])).1

theorem Settled.queue (h : Settled start b next voter rt) (votes : List ConsensusMessage) :
    Settled start b next voter { rt with deferredVotes := votes } :=
  ⟨⟨h.voting.ground.congr rfl rfl (h.voting.ground.poised.congr rfl rfl rfl fun _ => rfl),
    h.voting.stage.congr (.refl _) rfl rfl⟩, h.ownPrevote, h.ownPrecommit, h.waits⟩

/-- After a replay every vote for the block is counted or a precommit that is still too early. -/
theorem Settled.loop (hself : start.validator ∈ start.consensus.validators)
    (hsigner : start.SignerWorks env) (happly : start.chain.applyBlock b = .ok next)
    (howns : ∀ t, voter t start.validator) (hloyal : ∀ v ∈ rt.deferredVotes, Loyal start b voter v)
    (h : Settled start b next voter rt) {outbound : List ConsensusMessage}
    {result : ConsensusRuntime × Except String (List ConsensusMessage)}
    (hreplays : Replays env rt outbound result) :
    (∃ outbound', result.2 = .ok outbound') ∧ Settled start b next voter result.1 ∧
      Gains b rt result.1 ∧ result.1.deferredVotes.Sublist rt.deferredVotes ∧
      (∀ v ∈ rt.deferredVotes, start.consensus.Backs b.hash v →
        v.validatorId ∈ result.1.consensus.tally v.voteType b.hash ∨ v ∈ result.1.deferredVotes) ∧
      ∀ v ∈ result.1.deferredVotes, start.consensus.Backs b.hash v →
        BftConsensus.acceptsVote result.1.consensus.phase v.voteType = false := by
  have hpass := fun (rt : ConsensusRuntime) (h : Settled start b next voter rt)
    (hloyal : ∀ v ∈ rt.deferredVotes, Loyal start b voter v) (outbound : List ConsensusMessage) =>
      (h.queue []).pass hself hsigner happly howns hloyal false [] outbound
  induction hreplays with
  | fails hstep =>
      obtain ⟨rt', progressed, kept, outbound', heq, -⟩ := hpass _ h hloyal _
      rw [heq] at hstep
      cases hstep
  | stops hstep =>
      obtain ⟨rt', progressed, kept, outbound', heq, hsettled, hgains, -, hsub, hkept, -, hstill⟩ :=
        hpass _ h hloyal _
      rw [heq] at hstep
      cases hstep
      obtain ⟨-, hphase, hall⟩ := hstill rfl
      refine ⟨⟨_, rfl⟩, hsettled.queue _, ⟨hgains.tally, hgains.onward⟩, hsub, hkept,
        fun v hv hback => ?_⟩
      exact hphase ▸ hall v (hsub.subset hv) hback
  | again hstep hrest ih =>
      obtain ⟨rt', progressed, kept, outbound', heq, hsettled, hgains, -, hsub, hkept, -, -⟩ :=
        hpass _ h hloyal _
      rw [heq] at hstep
      cases hstep
      obtain ⟨hok, hsettled', hgains', hsub', hkept', hstill⟩ :=
        ih (fun v hv => hloyal v (hsub.subset hv)) (hsettled.queue _)
      refine ⟨hok, hsettled', ⟨fun t => (hgains.tally t).trans (hgains'.tally t),
        fun hphase => hgains'.onward (hgains.onward hphase)⟩, hsub'.trans hsub,
        fun v hv hback => ?_, hstill⟩
      rcases hkept v hv hback with hcounted | hmem
      · exact .inl (hgains'.tally _ hcounted)
      · exact hkept' v hmem hback

/-! ## The main loop -/

def publishReplayedVotes (rt : ConsensusRuntime) (env : Env) : ConsensusRuntime × Except String Unit :=
  match rt.replayDeferredVotes env with
  | (rt, .error e) => (rt, .error e)
  | (rt, .ok _) => (rt, .ok ())

/-- The node's answer to an event is fed back before the replay. -/
def followUp (rt : ConsensusRuntime) (env : Env) (reply : Option ConsensusMessage) :
    ConsensusRuntime × Except String Unit :=
  match rt.feedBack env reply with
  | (rt, .error e) => (rt, .error e)
  | (rt, .ok ()) => rt.publishReplayedVotes env

/-- A proposal that is refused is only logged. -/
def proposalReceived (rt : ConsensusRuntime) (env : Env) (p : SignedProposal) :
    ConsensusRuntime × Except String Unit :=
  match rt.receiveProposal env p with
  | (rt, .error _) => (rt, .ok ())
  | (rt, .ok prevote) =>
      match rt.receiveVote env prevote with
      | (rt, .error e) => (rt, .error e)
      | (rt, .ok reply) => rt.followUp env reply

/-- A vote that comes too early is deferred, and one that is refused is only logged. -/
def consensusReceived (rt : ConsensusRuntime) (env : Env) (message : ConsensusMessage) :
    ConsensusRuntime × Except String Unit :=
  match rt.receiveVote env message with
  | (rt, .ok reply) => rt.followUp env reply
  | (rt, .error e) =>
      (if isDeferableVoteError e then rt.deferVote message else rt).publishReplayedVotes env

/-- What the network delivers. -/
inductive Delivery
  | proposal (p : SignedProposal)
  | vote (v : ConsensusMessage)

def Delivery.asVote : Delivery → Option ConsensusMessage
  | .vote v => some v
  | .proposal _ => none

def Delivery.asProposal : Delivery → Option SignedProposal
  | .vote _ => none
  | .proposal p => some p

def deliver (rt : ConsensusRuntime) (env : Env) : Delivery → ConsensusRuntime × Except String Unit
  | .proposal p => rt.proposalReceived env p
  | .vote v => rt.consensusReceived env v

/-- An error of one of the node's own votes ends the loop. -/
def deliverAll : List (Env × Delivery) → ConsensusRuntime → ConsensusRuntime × Except String Unit
  | [], rt => (rt, .ok ())
  | (env, delivery) :: rest, rt =>
      match rt.deliver env delivery with
      | (rt, .error e) => (rt, .error e)
      | (rt, .ok ()) => deliverAll rest rt

/-! ## The queue between two events -/

/-- The vote behind the block that a validator casts: the node's own, one that waits, or one
that is delivered. -/
def Backer (start : ConsensusRuntime) (b : Block) (votes : List ConsensusMessage)
    (voteType : VoteType) (id : String) : Prop :=
  id = start.validator ∨ ∃ v ∈ start.deferredVotes ++ votes,
    start.consensus.Backs b.hash v ∧ v.voteType = voteType ∧ v.validatorId = id

/-- Who votes for the block has voted for nothing else in the round, neither in a vote that
waits nor in one on file. -/
structure NonEquivocating (start : ConsensusRuntime) (b : Block) (votes : List ConsensusMessage) :
    Prop where
  waiting : ∀ v ∈ start.deferredVotes, v.height = start.consensus.height →
    v.round = start.consensus.round → Backer start b votes v.voteType v.validatorId →
      v.blockHash = b.hash
  filed : ∀ t id, Backer start b votes t id → ∀ y, start.consensus.voteHistory.lookup
    (start.consensus.height, start.consensus.round, t, id) = some y → y = b.hash

/-- The vote, if it comes too early, pushes no vote for the block out of the queue. -/
def Spares (start : ConsensusRuntime) (b : Block) (env : Env) (v : ConsensusMessage)
    (rt : ConsensusRuntime) : Prop :=
  (rt.receiveVote env v).2 = .error BftConsensus.stageMismatch →
    ∀ w, start.consensus.Backs b.hash w → ¬PushesOut rt v w

/-- No vote for the block is pushed out of the queue. -/
def KeepsWaiting (start : ConsensusRuntime) (b : Block) :
    List (Env × Delivery) → ConsensusRuntime → Prop
  | [], _ => True
  | (env, delivery) :: rest, rt =>
      (∀ v, delivery = .vote v → Spares start b env v rt) ∧
        KeepsWaiting start b rest (rt.deliver env delivery).1

/-- Between two events, with some votes still to come: every vote for the block is one of them,
is counted or waits. -/
structure Underway (start : ConsensusRuntime) (b : Block) (votes todo : List ConsensusMessage)
    (rt : ConsensusRuntime) : Prop where
  known : ∀ v ∈ rt.deferredVotes, v ∈ start.deferredVotes ++ votes
  heard : ∀ v ∈ start.deferredVotes ++ votes, start.consensus.Backs b.hash v → v ∈ todo ∨
    v.validatorId ∈ rt.consensus.tally v.voteType b.hash ∨
    ∃ w ∈ rt.deferredVotes, start.consensus.Backs b.hash w ∧ w.voteType = v.voteType ∧
      w.validatorId = v.validatorId

omit [Crypto] in
theorem deferVote_eq (rt : ConsensusRuntime) (v : ConsensusMessage) :
    rt.deferVote v = { rt with deferredVotes := (rt.deferVote v).deferredVotes } := by
  unfold deferVote
  split_ifs <;> rfl

omit [Crypto] in
theorem mem_of_mem_deferVote {w : ConsensusMessage} (h : w ∈ (rt.deferVote v).deferredVotes) :
    w ∈ rt.deferredVotes ∨ w = v := by
  by_cases hsaid : ∃ known ∈ rt.deferredVotes, known.SaysSame v
  · rw [deferVote_known hsaid] at h
    exact .inl h
  · rw [deferVote_new hsaid] at h
    rcases List.mem_append.1 h with h | h
    · split_ifs at h
      · exact .inl (List.mem_of_mem_drop h)
      · exact .inl h
    · exact .inr (List.mem_singleton.1 h)

theorem underway_start {votes todo : List ConsensusMessage} (h : ∀ v ∈ votes, v ∈ todo) :
    Underway start b votes todo start := by
  refine ⟨fun v hv => List.mem_append_left _ hv, fun v hv hback => ?_⟩
  rcases List.mem_append.1 hv with hwaits | hsent
  · exact .inr (.inr ⟨v, hwaits, hback, rfl, rfl⟩)
  · exact .inl (h v hsent)

/-- A vote that is deferred waits, and so does every other one that it does not push out. -/
theorem Underway.deferVote {votes todo : List ConsensusMessage}
    (h : Underway start b votes (v :: todo) rt) (hmem : v ∈ votes)
    (hverified : ∀ w ∈ start.deferredVotes, w.verify = .ok ())
    (hbacked : ∀ w ∈ votes, start.consensus.Backs b.hash w)
    (hspares : ∀ w, start.consensus.Backs b.hash w → ¬PushesOut rt v w) :
    Underway start b votes todo (rt.deferVote v) := by
  have hknown : ∀ w ∈ (rt.deferVote v).deferredVotes, w ∈ start.deferredVotes ++ votes := by
    intro w hw
    rcases mem_of_mem_deferVote hw with hw | rfl
    · exact h.known w hw
    · exact List.mem_append_right _ hmem
  have hmachine : (rt.deferVote v).consensus = rt.consensus := by rw [deferVote_eq]
  refine ⟨hknown, fun u hu hubacks => ?_⟩
  rw [hmachine]
  rcases h.heard u hu hubacks with hlater | hcounted | ⟨w, hw, hback, hsame⟩
  · rcases List.mem_cons.1 hlater with rfl | hlater
    · obtain ⟨w, hw, ⟨hheight, hround, htype, hid, hhash⟩, -⟩ := rt.exists_deferVote u
      have hverify : w.verify = .ok () := by
        rcases List.mem_append.1 (hknown w hw) with hwaits | hsent
        · exact hverified w hwaits
        · exact (hbacked w hsent).verify
      exact .inr (.inr ⟨w, hw, ⟨hheight.trans hubacks.height, hround.trans hubacks.round,
        hhash.trans hubacks.block, hverify, hid ▸ hubacks.member⟩, htype, hid⟩)
    · exact .inl hlater
  · exact .inr (.inl hcounted)
  · exact .inr (.inr ⟨w, mem_deferVote hw (hspares w hback), hback, hsame⟩)

/-- From the oldest vote for the block on, the queue has room for more votes. -/
def HasRoom (start : ConsensusRuntime) (b : Block) (queue : List ConsensusMessage) (more : ℕ) :
    Prop :=
  ∃ front back, queue = front ++ back ∧ (∀ v ∈ front, ¬start.consensus.Backs b.hash v) ∧
    back.length + more ≤ maxDeferredVotes

theorem HasRoom.sublist {queue queue' : List ConsensusMessage} {more : ℕ}
    (h : HasRoom start b queue more) (hsub : queue'.Sublist queue) :
    HasRoom start b queue' more := by
  obtain ⟨front, back, rfl, hfront, hroom⟩ := h
  obtain ⟨front', back', rfl, hfront', hback'⟩ := List.sublist_append_iff.1 hsub
  refine ⟨front', back', rfl, fun v hv => hfront v (hfront'.subset hv), ?_⟩
  have := hback'.length_le
  omega

theorem HasRoom.fewer {queue : List ConsensusMessage} {more fewer : ℕ}
    (h : HasRoom start b queue more) (hle : fewer ≤ more) : HasRoom start b queue fewer := by
  obtain ⟨front, back, hqueue, hfront, hroom⟩ := h
  exact ⟨front, back, hqueue, hfront, by omega⟩

/-- The oldest vote of a full queue with room is not for the block. -/
theorem HasRoom.spares {more : ℕ} (h : HasRoom start b rt.deferredVotes (more + 1)) :
    Spares start b env v rt := by
  rintro - w hback ⟨-, hfull, holdest⟩
  obtain ⟨front, back, hqueue, hfront, hroom⟩ := h
  rw [hqueue] at hfull holdest
  cases front with
  | nil =>
      rw [List.nil_append] at hfull
      omega
  | cons first rest =>
      obtain rfl : first = w := Option.some.inj holdest
      exact hfront first (List.mem_cons_self ..) hback

/-- Deferring a vote takes up the room of one vote. -/
theorem HasRoom.deferVote {more : ℕ} (h : HasRoom start b rt.deferredVotes (more + 1)) :
    HasRoom start b (rt.deferVote v).deferredVotes more := by
  by_cases hsaid : ∃ known ∈ rt.deferredVotes, known.SaysSame v
  · rw [deferVote_known hsaid]
    exact h.fewer (Nat.le_succ more)
  · have hkept : HasRoom start b (if maxDeferredVotes ≤ rt.deferredVotes.length then
        rt.deferredVotes.drop 1 else rt.deferredVotes) (more + 1) := by
      split_ifs
      · exact h.sublist (List.drop_sublist 1 _)
      · exact h
    rw [deferVote_new hsaid]
    obtain ⟨front, back, hqueue, hfront, hroom⟩ := hkept
    refine ⟨front, back ++ [v], ?_, hfront, ?_⟩
    · dsimp only
      rw [hqueue, List.append_assoc]
    · rw [List.length_append, List.length_singleton]
      omega

theorem deferredVotes_feedBack (rt : ConsensusRuntime) (env : Env) (reply : Option ConsensusMessage) :
    (rt.feedBack env reply).1.deferredVotes = rt.deferredVotes := by
  cases reply with
  | none => rfl
  | some m =>
      have hqueue := rt.deferredVotes_receiveVote env m
      unfold feedBack
      dsimp only
      generalize rt.receiveVote env m = received at hqueue
      obtain ⟨rt₁, result⟩ := received
      cases result <;> exact hqueue

theorem publishReplayedVotes_sublist (rt : ConsensusRuntime) (env : Env) :
    (rt.publishReplayedVotes env).1.deferredVotes.Sublist rt.deferredVotes := by
  have hsub := (replays_replayDeferredVotes rt env).sublist
  unfold publishReplayedVotes
  generalize rt.replayDeferredVotes env = replayed at hsub
  obtain ⟨rt₁, result⟩ := replayed
  cases result <;> exact hsub

theorem followUp_sublist (rt : ConsensusRuntime) (env : Env) (reply : Option ConsensusMessage) :
    (rt.followUp env reply).1.deferredVotes.Sublist rt.deferredVotes := by
  have hqueue := rt.deferredVotes_feedBack env reply
  unfold followUp
  generalize rt.feedBack env reply = fed at hqueue
  obtain ⟨rt₁, result⟩ := fed
  rw [← hqueue]
  cases result with
  | error e => exact .refl _
  | ok u => exact rt₁.publishReplayedVotes_sublist env

/-- A proposal adds nothing to the queue. -/
theorem proposalReceived_sublist (rt : ConsensusRuntime) (env : Env) (p : SignedProposal) :
    (rt.proposalReceived env p).1.deferredVotes.Sublist rt.deferredVotes := by
  have hqueue : (rt.receiveProposal env p).1.deferredVotes = rt.deferredVotes := by
    rcases rt.receiveProposal_cases env p with ⟨c', e, -, hcase⟩ | ⟨-, -, -, hcase⟩
    · rw [hcase]
    · rw [hcase]
      rfl
  unfold proposalReceived
  generalize rt.receiveProposal env p = received at hqueue
  obtain ⟨rt₁, result⟩ := received
  cases result with
  | error e =>
      dsimp only at hqueue ⊢
      rw [hqueue]
  | ok prevote =>
      have hvote := rt₁.deferredVotes_receiveVote env prevote
      dsimp only at hqueue ⊢
      generalize rt₁.receiveVote env prevote = heard at hvote
      obtain ⟨rt₂, result⟩ := heard
      rw [← hqueue, ← hvote]
      cases result with
      | error e => exact .refl _
      | ok reply => exact rt₂.followUp_sublist env reply

omit [Crypto] in
theorem deferVote_queue (h : rt'.deferredVotes = rt.deferredVotes) (v : ConsensusMessage) :
    (rt'.deferVote v).deferredVotes = (rt.deferVote v).deferredVotes := by
  unfold deferVote
  rw [h]
  split_ifs
  · exact h
  · rfl
  · rfl

/-- A vote adds at most itself. -/
theorem consensusReceived_sublist (rt : ConsensusRuntime) (env : Env) (v : ConsensusMessage) :
    (rt.consensusReceived env v).1.deferredVotes.Sublist rt.deferredVotes ∨
      (rt.consensusReceived env v).1.deferredVotes.Sublist (rt.deferVote v).deferredVotes := by
  have hqueue := rt.deferredVotes_receiveVote env v
  unfold consensusReceived
  generalize rt.receiveVote env v = received at hqueue
  obtain ⟨rt₁, result⟩ := received
  cases result with
  | ok reply =>
      rw [← hqueue]
      exact .inl (rt₁.followUp_sublist env reply)
  | error e =>
      dsimp only
      split_ifs
      · rw [← deferVote_queue hqueue]
        exact .inr (publishReplayedVotes_sublist _ env)
      · rw [← hqueue]
        exact .inl (rt₁.publishReplayedVotes_sublist env)

/-- A queue with room for all votes that come loses no vote for the block. -/
theorem keepsWaiting_of_hasRoom {events : List (Env × Delivery)}
    (h : HasRoom start b rt.deferredVotes (events.filterMap (·.2.asVote)).length) :
    KeepsWaiting start b events rt := by
  induction events generalizing rt with
  | nil => trivial
  | cons e rest ih =>
      obtain ⟨env, delivery⟩ := e
      cases delivery with
      | proposal p => exact ⟨nofun, ih (h.sublist (rt.proposalReceived_sublist env p))⟩
      | vote v =>
          have hroom : HasRoom start b rt.deferredVotes
              ((rest.filterMap (·.2.asVote)).length + 1) := h
          refine ⟨fun _ _ => hroom.spares, ih ?_⟩
          rcases rt.consensusReceived_sublist env v with hsub | hsub
          · exact (hroom.sublist hsub).fewer (Nat.le_succ _)
          · exact hroom.deferVote.sublist hsub

/-- A replay that counts or keeps every vote for the block. -/
theorem Underway.replayed {votes todo : List ConsensusMessage}
    (h : Underway start b votes todo rt)
    (hgains : ∀ t, rt.consensus.tally t b.hash ⊆ rt'.consensus.tally t b.hash)
    (hsub : rt'.deferredVotes.Sublist rt.deferredVotes)
    (hkept : ∀ v ∈ rt.deferredVotes, start.consensus.Backs b.hash v →
      v.validatorId ∈ rt'.consensus.tally v.voteType b.hash ∨ v ∈ rt'.deferredVotes) :
    Underway start b votes todo rt' := by
  refine ⟨fun v hv => h.known v (hsub.subset hv), fun v hv hback => ?_⟩
  rcases h.heard v hv hback with hmem | hcounted | ⟨w, hw, hwback, htype, hid⟩
  · exact .inl hmem
  · exact .inr (.inl (hgains _ hcounted))
  · rcases hkept w hw hwback with hcounted | hmem
    · rw [htype, hid] at hcounted
      exact .inr (.inl hcounted)
    · exact .inr (.inr ⟨w, hmem, hwback, htype, hid⟩)

/-! ## Before the proposal -/

/-- Without a proposal no vote is accepted. -/
theorem receiveVote_propose (hphase : rt.consensus.phase = .propose) (env : Env)
    (v : ConsensusMessage) :
    ∃ e, rt.receiveVote env v = (rt, .error e) ∧
      (rt.consensus.Backs v.blockHash v → e = BftConsensus.stageMismatch) := by
  cases hcheck : rt.consensus.checkVote v with
  | error e =>
      refine ⟨e, ?_, fun hbacks => ?_⟩
      · unfold receiveVote BftConsensus.handle
        rw [hcheck]
      · have hearly := BftConsensus.checkVote_premature hbacks.height hbacks.round hbacks.member
          hbacks.verify (by rw [hphase]; rfl)
        rw [hcheck] at hearly
        exact Except.error.inj hearly
  | ok u =>
      obtain ⟨-, -, -, -, haccepts⟩ := BftConsensus.checkVote_eq_ok hcheck
      rw [hphase] at haccepts
      cases haccepts

theorem replayPass_propose (hphase : rt.consensus.phase = .propose)
    (votes remaining outbound : List ConsensusMessage) :
    ∃ kept, replayPass env votes rt false remaining outbound =
        (rt, .ok (false, remaining ++ kept, outbound)) ∧ kept.Sublist votes ∧
      ∀ v ∈ votes, rt.consensus.Backs v.blockHash v → v ∈ kept := by
  induction votes generalizing remaining with
  | nil => exact ⟨[], by rw [List.append_nil]; rfl, .slnil, List.forall_mem_nil _⟩
  | cons v rest ih =>
      obtain ⟨e, hreceive, hearly⟩ := receiveVote_propose hphase env v
      obtain ⟨kept, hpass, hsub, hkept⟩ :=
        ih (remaining ++ if isDeferableVoteError e then [v] else [])
      refine ⟨(if isDeferableVoteError e then [v] else []) ++ kept, ?_, ?_, fun w hw hbacks => ?_⟩
      · rw [replayPass_cons_error hreceive, hpass, List.append_assoc]
      · split_ifs
        · exact hsub.cons_cons v
        · exact hsub.cons v
      · rcases List.mem_cons.1 hw with rfl | hw
        · rw [hearly hbacks, if_pos deferable_stageMismatch]
          exact List.mem_append_left _ (List.mem_singleton_self _)
        · exact List.mem_append_right _ (hkept w hw hbacks)

/-- A replay before the proposal only drops votes that are of no use in this round. -/
theorem replay_propose (hphase : rt.consensus.phase = .propose) (env : Env) :
    ∃ kept, rt.publishReplayedVotes env = ({ rt with deferredVotes := kept }, .ok ()) ∧
      kept.Sublist rt.deferredVotes ∧
      ∀ v ∈ rt.deferredVotes, rt.consensus.Backs v.blockHash v → v ∈ kept := by
  obtain ⟨kept, hpass, hsub, hkept⟩ := @replayPass_propose _ { rt with deferredVotes := [] } env
    hphase rt.deferredVotes [] []
  refine ⟨kept, ?_, hsub, hkept⟩
  unfold publishReplayedVotes replayDeferredVotes replayLoop
  rw [hpass]
  rfl

/-- Nothing but the queue has changed since the start. -/
def Opening (start rt : ConsensusRuntime) : Prop := ∃ queue, rt = { start with deferredVotes := queue }

/-- A vote for the current round that comes before the proposal is deferred. -/
theorem consensusReceived_propose (hphase : rt.consensus.phase = .propose)
    (hbacks : rt.consensus.Backs v.blockHash v) (env : Env) :
    (rt.receiveVote env v).2 = .error BftConsensus.stageMismatch ∧
      ∃ kept, rt.consensusReceived env v = ({ rt with deferredVotes := kept }, .ok ()) ∧
        kept.Sublist (rt.deferVote v).deferredVotes ∧
        ∀ w ∈ (rt.deferVote v).deferredVotes, rt.consensus.Backs w.blockHash w → w ∈ kept := by
  obtain ⟨e, hreceive, hearly⟩ := receiveVote_propose hphase env v
  obtain rfl := hearly hbacks
  have hqueued := deferVote_eq rt v
  have hmachine : (rt.deferVote v).consensus = rt.consensus := by rw [hqueued]
  obtain ⟨kept, hreplay, hsub, hkept⟩ :=
    @replay_propose _ (rt.deferVote v) (by rw [hmachine]; exact hphase) env
  refine ⟨by rw [hreceive], kept, ?_, hsub, fun w hw hback => hkept w hw (by rwa [hmachine])⟩
  unfold consensusReceived
  rw [hreceive]
  dsimp only
  rw [if_pos deferable_stageMismatch, hreplay, hqueued]

/-- A vote for the block that comes before the proposal waits for it. -/
theorem Opening.vote {votes todo : List ConsensusMessage} (hopening : Opening start rt)
    (hphase : start.consensus.phase = .propose) (h : Underway start b votes (v :: todo) rt)
    (hmem : v ∈ votes) (hverified : ∀ w ∈ start.deferredVotes, w.verify = .ok ())
    (hbacked : ∀ w ∈ votes, start.consensus.Backs b.hash w) (hspares : Spares start b env v rt) :
    ∃ rt', rt.consensusReceived env v = (rt', .ok ()) ∧ Opening start rt' ∧
      Underway start b votes todo rt' := by
  obtain ⟨queue, rfl⟩ := hopening
  obtain ⟨hpremature, kept, hreceived, hsub, hkept⟩ :=
    @consensusReceived_propose _ { start with deferredVotes := queue } v hphase
      ((hbacked v hmem).block ▸ hbacked v hmem) env
  have hdeferred := h.deferVote hmem hverified hbacked (hspares hpremature)
  rw [deferVote_eq] at hdeferred
  exact ⟨_, hreceived, ⟨kept, rfl⟩, hdeferred.replayed (fun _ => subset_rfl) hsub
    fun w hw hback => .inr (hkept w hw (hback.block ▸ hback))⟩

/-! ## The proposal -/

/-- A proposal that is accepted puts the node on its block and is answered with a prevote. -/
theorem receiveProposal_accepted (hsigner : rt.SignerWorks env) {p : SignedProposal}
    (h : ∃ vote, (rt.receiveProposal env p).2 = .ok vote) :
    ∃ rt₁ prevote, rt.receiveProposal env p = (rt₁, .ok prevote) ∧
      (rt₁.consensus = rt.accepted p ∧ rt₁.pending = some p.block ∧ rt₁.chain = rt.chain ∧
        rt₁.validator = rt.validator ∧ rt₁.deferredVotes = rt.deferredVotes) ∧
      prevote.verify = .ok () ∧ prevote.height = rt.consensus.height ∧
      prevote.round = rt.consensus.round ∧ prevote.voteType = .prevote ∧
      prevote.blockHash = p.block.hash ∧ prevote.validatorId = rt.validator := by
  obtain ⟨hblock, hcheck, hpropose⟩ := (receiveProposal_ok_iff hsigner).1 h
  obtain ⟨hheight, hround, -⟩ := BftConsensus.checkProposal_eq_ok hcheck
  have hhandled := BftConsensus.handleProposal_ok_iff.2 ⟨hcheck, hpropose⟩
  rcases rt.consensus.handleProposal_cases p with ⟨c', e, hcase, -⟩ | ⟨-, -, -, hcase⟩
  · rw [hcase] at hhandled
    cases hhandled
  · have hworks : ({ rt with consensus := rt.accepted p, pending := some p.block }.resetDeadline
        env).SignerWorks env := hsigner
    obtain ⟨vote, hverify, ⟨hvheight, hvround, htype, hvblock, hid⟩, hsigned⟩ :=
      signVote_signed hworks p.height p.round .prevote p.block.hash
    refine ⟨({ rt with consensus := rt.accepted p, pending := some p.block }.resetDeadline
      env).record (.vote p.height p.round .prevote p.block.hash), vote, ?_,
      ⟨rfl, rfl, rfl, rfl, rfl⟩, hverify, hvheight.trans hheight, hvround.trans hround, htype,
      hvblock, hid⟩
    unfold receiveProposal
    rw [hblock, hcase]
    exact hsigned

/-- What is assumed of the node and of the votes. -/
structure Scene (start : ConsensusRuntime) (p : SignedProposal) (next : Blockchain)
    (votes : List ConsensusMessage) : Prop where
  poised : Poised start
  blank : start.consensus.Blank
  phase : start.consensus.phase = .propose
  self : start.validator ∈ start.consensus.validators
  executable : start.chain.applyBlock p.block = .ok next
  verified : ∀ v ∈ start.deferredVotes, v.verify = .ok ()
  backed : ∀ v ∈ votes, start.consensus.Backs p.block.hash v
  honest : NonEquivocating start p.block votes

/-- The signer works, and the node accepts the proposal. -/
def Serves (start : ConsensusRuntime) (p : SignedProposal) (env : Env) : Prop :=
  start.SignerWorks env ∧ ∃ vote, (start.receiveProposal env p).2 = .ok vote

/-- Every vote for the block that still waits is a precommit before its phase. -/
def Quiet (start : ConsensusRuntime) (b : Block) (rt : ConsensusRuntime) : Prop :=
  ∀ v ∈ rt.deferredVotes, start.consensus.Backs b.hash v →
    BftConsensus.acceptsVote rt.consensus.phase v.voteType = false

section
variable {p : SignedProposal} {votes todo : List ConsensusMessage}

theorem Scene.loyal (scene : Scene start p next votes) (hmem : v ∈ start.deferredVotes ++ votes) :
    Loyal start p.block (Backer start p.block votes) v := by
  refine ⟨fun hheight hround hbacker => ?_, fun hbacks => .inr ⟨v, hmem, hbacks, rfl, rfl⟩⟩
  rcases List.mem_append.1 hmem with hwaits | hsent
  · exact scene.honest.waiting v hwaits hheight hround hbacker
  · exact (scene.backed v hsent).block

/-- After an event the replay brings the round to rest. -/
theorem Settled.publish (scene : Scene start p next votes) (hsigner : start.SignerWorks env)
    (h : Settled start p.block next (Backer start p.block votes) rt)
    (hunderway : Underway start p.block votes todo rt) :
    ∃ rt', rt.publishReplayedVotes env = (rt', .ok ()) ∧
      Settled start p.block next (Backer start p.block votes) rt' ∧
      Underway start p.block votes todo rt' ∧ Quiet start p.block rt' := by
  obtain ⟨⟨outbound, hok⟩, hsettled, hgains, hsub, hkept, hquiet⟩ :=
    h.loop scene.self hsigner scene.executable (fun _ => .inl rfl)
      (fun v hv => scene.loyal (hunderway.known v hv)) (replays_replayDeferredVotes rt env)
  refine ⟨_, ?_, hsettled, hunderway.replayed hgains.tally hsub hkept, hquiet⟩
  unfold publishReplayedVotes
  generalize rt.replayDeferredVotes env = result at *
  obtain ⟨rt', result⟩ := result
  dsimp only at hok
  rw [hok]

theorem Opening.proposal (scene : Scene start p next votes) (hserves : Serves start p env)
    (hopening : Opening start rt) (h : Underway start p.block votes todo rt) :
    ∃ rt', rt.proposalReceived env p = (rt', .ok ()) ∧
      Settled start p.block next (Backer start p.block votes) rt' ∧
      Underway start p.block votes todo rt' ∧ Quiet start p.block rt' := by
  obtain ⟨hsigner, haccepted⟩ := hserves
  obtain ⟨queue, rfl⟩ := hopening
  have hworks : ({ start with deferredVotes := queue } : ConsensusRuntime).SignerWorks env := hsigner
  have haccepted' : ∃ vote,
      (({ start with deferredVotes := queue } : ConsensusRuntime).receiveProposal env p).2 =
        .ok vote := by
    have hchecks := (receiveProposal_ok_iff hsigner).1 haccepted
    exact (receiveProposal_ok_iff hworks).2 hchecks
  obtain ⟨rt₁, prevote, hreceive, ⟨hconsensus, hpending, hchain, hvalidator, hqueue⟩, hverify,
    hheight, hround, htype, hblock, hid⟩ := receiveProposal_accepted hworks haccepted'
  have hcore := start.consensus.sameCore_noteValidRound p
  have hhistory : (start.consensus.noteValidRound p).voteHistory = start.consensus.voteHistory := by
    unfold BftConsensus.noteValidRound
    split <;> rfl
  have htally : ∀ t, rt₁.consensus.tally t p.block.hash = ∅ := by
    intro t
    rw [hconsensus, BftConsensus.tally, accepted, hcore.votes]
    exact scene.blank (.inl scene.phase) t p.block.hash
  have hpoised : Poised rt₁ := by
    have hstart : Poised { start with deferredVotes := queue } :=
      scene.poised.congr rfl rfl rfl fun _ => rfl
    have hafter := hstart.receiveProposal env p
    rw [hreceive] at hafter
    exact hafter
  have hground : Grounded start p.block (Backer start p.block votes) rt₁ := by
    refine ⟨hpoised, hvalidator, ?_, ?_, ?_, ?_, ?_, ?_, ?_⟩
    · rw [hconsensus]
      exact hcore.height
    · rw [hconsensus]
      exact hcore.round
    · rw [hconsensus]
      exact hcore.validators
    · rw [hconsensus]
      exact hcore.totalPower
    · rw [hconsensus]
      rfl
    · intro t id hbacker y hy
      rw [hconsensus, accepted, hhistory] at hy
      exact scene.honest.filed t id hbacker y hy
    · intro t id hid
      rw [htally] at hid
      cases hid
  have hstage : Stage start p.block next rt₁ := by
    refine .prevote (by rw [hconsensus]; rfl) (htally _) ⟨hpending, hchain, ?_⟩
    rw [hconsensus]
    exact hcore.finalized
  have hphase : rt₁.consensus.phase = .prevote := by
    rw [hconsensus]
    rfl
  have hback : start.consensus.Backs p.block.hash prevote :=
    ⟨hheight, hround, hblock, hverify, by rw [hid]; exact scene.self⟩
  obtain ⟨rt₂, rt₃, reply, hvote, hfeed, hsettled, hgains, -, hqueue₃⟩ :=
    (Voting.mk hground hstage).absorb scene.self hsigner scene.executable (fun _ => .inl rfl)
      hback (.inl hid) (by rw [hphase, htype]; rfl) (.inr ⟨htype, hid⟩)
      fun hother => absurd hphase hother
  have hunderway : Underway start p.block votes todo rt₃ := by
    have hsame : rt₃.deferredVotes = queue := hqueue₃.trans hqueue
    refine h.replayed (fun t => ?_) ?_ fun v hv _ => .inr ?_
    · have hnone : ({ start with deferredVotes := queue } : ConsensusRuntime).consensus.tally t
          p.block.hash = ∅ := scene.blank (.inl scene.phase) t p.block.hash
      rw [hnone]
      exact Finset.empty_subset _
    · rw [hsame]
    · rw [hsame]
      exact hv
  obtain ⟨rt', hpublish, hresult⟩ := hsettled.publish scene hsigner hunderway
  refine ⟨rt', ?_, hresult⟩
  unfold proposalReceived
  rw [hreceive]
  dsimp only
  rw [hvote]
  dsimp only [followUp]
  rw [hfeed]
  exact hpublish

/-! ## Votes after the proposal -/

theorem Settled.vote (scene : Scene start p next votes) (hsigner : start.SignerWorks env)
    (h : Settled start p.block next (Backer start p.block votes) rt)
    (hunderway : Underway start p.block votes (v :: todo) rt) (hmem : v ∈ votes)
    (hspares : BftConsensus.acceptsVote rt.consensus.phase v.voteType = false →
      Spares start p.block env v rt) :
    ∃ rt', rt.consensusReceived env v = (rt', .ok ()) ∧
      Settled start p.block next (Backer start p.block votes) rt' ∧
      Underway start p.block votes todo rt' ∧ Quiet start p.block rt' := by
  have hback := scene.backed v hmem
  have hloyal := scene.loyal (List.mem_append_right start.deferredVotes hmem)
  cases haccepts : BftConsensus.acceptsVote rt.consensus.phase v.voteType with
  | true =>
      obtain ⟨rt₁, rt₂, reply, hreceive, hfeed, hsettled, hgains, hcounted, hqueue⟩ :=
        h.voting.absorb scene.self hsigner scene.executable (fun _ => .inl rfl) hback
          (hloyal.voter hback) haccepts (.inl h.ownPrevote) h.ownPrecommit
      have hheard : Underway start p.block votes todo rt₂ := by
        refine ⟨by rw [hqueue]; exact hunderway.known, fun u hu hubacks => ?_⟩
        rw [hqueue]
        rcases hunderway.heard u hu hubacks with hlater | hold | hwaits
        · rcases List.mem_cons.1 hlater with rfl | hlater
          · exact .inr (.inl hcounted)
          · exact .inl hlater
        · exact .inr (.inl (hgains.tally _ hold))
        · exact .inr (.inr hwaits)
      obtain ⟨rt', hpublish, hresult⟩ := hsettled.publish scene hsigner hheard
      refine ⟨rt', ?_, hresult⟩
      unfold consensusReceived
      rw [hreceive]
      dsimp only [followUp]
      rw [hfeed]
      exact hpublish
  | false =>
      have hreceive := @Voting.premature _ rt env start p.block next _ v h.voting hback haccepts
      have hdeferred := hunderway.deferVote hmem scene.verified scene.backed
        (hspares haccepts (by rw [hreceive]))
      have hsettled : Settled start p.block next (Backer start p.block votes) (rt.deferVote v) := by
        rw [deferVote_eq]
        exact h.queue _
      obtain ⟨rt', hpublish, hresult⟩ := hsettled.publish scene hsigner hdeferred
      refine ⟨rt', ?_, hresult⟩
      unfold consensusReceived
      rw [hreceive]
      dsimp only
      rw [if_pos deferable_stageMismatch]
      exact hpublish

/-! ## All events -/

theorem deliverAll_cons {rt₁ : ConsensusRuntime} {delivery : Delivery}
    (h : rt.deliver env delivery = (rt₁, .ok ())) (rest : List (Env × Delivery)) :
    deliverAll ((env, delivery) :: rest) rt = deliverAll rest rt₁ := by
  rw [deliverAll, h]

/-- Once the proposal is there, the votes that are left are taken in one by one. -/
theorem Settled.deliverAll (scene : Scene start p next votes) {events : List (Env × Delivery)}
    (hserves : ∀ e ∈ events, Serves start p e.1)
    (hvotes : ∀ v ∈ events.filterMap (·.2.asVote), v ∈ votes)
    (hnone : events.filterMap (·.2.asProposal) = [])
    (hkeeps : KeepsWaiting start p.block events rt)
    (h : Settled start p.block next (Backer start p.block votes) rt)
    (hunderway : Underway start p.block votes (events.filterMap (·.2.asVote)) rt)
    (hquiet : Quiet start p.block rt) :
    ∃ rt', ConsensusRuntime.deliverAll events rt = (rt', .ok ()) ∧
      Settled start p.block next (Backer start p.block votes) rt' ∧
      Underway start p.block votes [] rt' ∧ Quiet start p.block rt' := by
  induction events generalizing rt with
  | nil => exact ⟨rt, rfl, h, hunderway, hquiet⟩
  | cons e rest ih =>
      obtain ⟨env, delivery⟩ := e
      cases delivery with
      | proposal p' => cases hnone
      | vote v =>
          obtain ⟨rt₁, hone, hsettled, hunderway₁, hquiet₁⟩ := h.vote scene
            (hserves _ (List.mem_cons_self ..)).1 hunderway (hvotes v (List.mem_cons_self ..))
            fun _ => hkeeps.1 v rfl
          have hstep : rt.deliver env (.vote v) = (rt₁, .ok ()) := hone
          have hkeeps₁ := hkeeps.2
          rw [hstep] at hkeeps₁
          obtain ⟨rt', hall, hresult⟩ := ih (fun e he => hserves e (List.mem_cons_of_mem _ he))
            (fun w hw => hvotes w (List.mem_cons_of_mem _ hw)) hnone hkeeps₁ hsettled hunderway₁
            hquiet₁
          exact ⟨rt', (deliverAll_cons hstep rest).trans hall, hresult⟩

/-- All votes and the proposal somewhere among them. -/
theorem Opening.deliverAll (scene : Scene start p next votes) {events : List (Env × Delivery)}
    (hserves : ∀ e ∈ events, Serves start p e.1)
    (hvotes : ∀ v ∈ events.filterMap (·.2.asVote), v ∈ votes)
    (hone : events.filterMap (·.2.asProposal) = [p])
    (hkeeps : KeepsWaiting start p.block events rt) (h : Opening start rt)
    (hunderway : Underway start p.block votes (events.filterMap (·.2.asVote)) rt) :
    ∃ rt', ConsensusRuntime.deliverAll events rt = (rt', .ok ()) ∧
      Settled start p.block next (Backer start p.block votes) rt' ∧
      Underway start p.block votes [] rt' ∧ Quiet start p.block rt' := by
  induction events generalizing rt with
  | nil => cases hone
  | cons e rest ih =>
      obtain ⟨env, delivery⟩ := e
      have hserves' := fun e he => hserves e (List.mem_cons_of_mem _ he)
      cases delivery with
      | proposal p' =>
          obtain ⟨rfl, hnone⟩ : p' = p ∧ rest.filterMap (·.2.asProposal) = [] := List.cons.inj hone
          obtain ⟨rt₁, hone, hsettled, hunderway₁, hquiet⟩ :=
            h.proposal scene (hserves _ (List.mem_cons_self ..)) hunderway
          have hstep : rt.deliver env (.proposal p') = (rt₁, .ok ()) := hone
          have hkeeps₁ := hkeeps.2
          rw [hstep] at hkeeps₁
          obtain ⟨rt', hall, hresult⟩ :=
            hsettled.deliverAll scene hserves' hvotes hnone hkeeps₁ hunderway₁ hquiet
          exact ⟨rt', (deliverAll_cons hstep rest).trans hall, hresult⟩
      | vote v =>
          obtain ⟨rt₁, hwaits, hopening, hunderway₁⟩ := h.vote scene.phase hunderway
            (hvotes v (List.mem_cons_self ..)) scene.verified scene.backed (hkeeps.1 v rfl)
          have hstep : rt.deliver env (.vote v) = (rt₁, .ok ()) := hwaits
          have hkeeps₁ := hkeeps.2
          rw [hstep] at hkeeps₁
          obtain ⟨rt', hall, hresult⟩ := ih hserves'
            (fun w hw => hvotes w (List.mem_cons_of_mem _ hw)) hone hkeeps₁ hopening hunderway₁
          exact ⟨rt', (deliverAll_cons hstep rest).trans hall, hresult⟩

/-- All deliveries, in any order. -/
theorem Scene.deliverAll (scene : Scene start p next votes) {events : List (Env × Delivery)}
    (hevents : (events.map Prod.snd).Perm (.proposal p :: votes.map .vote))
    (hserves : ∀ e ∈ events, Serves start p e.1) (hkeeps : KeepsWaiting start p.block events start) :
    ∃ rt', ConsensusRuntime.deliverAll events start = (rt', .ok ()) ∧
      Settled start p.block next (Backer start p.block votes) rt' ∧
      Underway start p.block votes [] rt' ∧ Quiet start p.block rt' := by
  have hvotes : (events.filterMap (·.2.asVote)).Perm votes := by
    have hlisted : (Delivery.proposal p :: votes.map .vote).filterMap Delivery.asVote = votes := by
      simp [List.filterMap_cons, List.filterMap_map, Delivery.asVote, Function.comp_def]
    have hperm := hevents.filterMap Delivery.asVote
    rw [List.filterMap_map, hlisted] at hperm
    exact hperm
  have hone : events.filterMap (·.2.asProposal) = [p] := by
    have hlisted : (Delivery.proposal p :: votes.map .vote).filterMap Delivery.asProposal = [p] := by
      simp [List.filterMap_map, Delivery.asProposal, Function.comp_def]
    have hperm := hevents.filterMap Delivery.asProposal
    rw [List.filterMap_map, hlisted] at hperm
    exact List.perm_singleton.1 hperm
  exact Opening.deliverAll scene hserves (fun v hv => hvotes.mem_iff.1 hv) hone hkeeps
    ⟨start.deferredVotes, rfl⟩ (underway_start fun v hv => hvotes.mem_iff.2 hv)

/-! ## One outcome -/

theorem Settled.takes_prevote (h : Settled start b next voter rt) :
    BftConsensus.acceptsVote rt.consensus.phase .prevote = true := by
  cases h.voting.stage with
  | prevote hphase => rw [hphase]; rfl
  | precommit hphase => rw [hphase]; rfl
  | finalized hphase => rw [hphase]; rfl

theorem Settled.takes_precommit (h : Settled start b next voter rt)
    (hlater : rt.consensus.phase ≠ .prevote) :
    BftConsensus.acceptsVote rt.consensus.phase .precommit = true := by
  cases h.voting.stage with
  | prevote hphase => exact absurd hphase hlater
  | precommit hphase => rw [hphase]; rfl
  | finalized hphase => rw [hphase]; rfl

/-- The prevotes that are counted decide whether the prevotes are over. -/
theorem Settled.voted_iff (h : Settled start b next voter rt) :
    rt.consensus.phase ≠ .prevote ↔
      rt.consensus.Enough (rt.consensus.tally .prevote b.hash) := by
  refine ⟨fun hlater => ?_, fun hquorum hphase => h.waits hphase hquorum⟩
  cases h.voting.stage with
  | prevote hphase => exact absurd hphase hlater
  | precommit _ hlocked => exact hlocked
  | finalized _ hlocked => exact hlocked

/-- At rest, with nothing left to come, the count is everybody who votes for the block. -/
theorem Settled.mem_tally (h : Settled start b next (Backer start b votes) rt)
    (hunderway : Underway start b votes [] rt) (hquiet : Quiet start b rt)
    {voteType : VoteType} (htaken : BftConsensus.acceptsVote rt.consensus.phase voteType = true)
    (hown : start.validator ∈ rt.consensus.tally voteType b.hash) (id : String) :
    id ∈ rt.consensus.tally voteType b.hash ↔ Backer start b votes voteType id := by
  refine ⟨h.voting.ground.within voteType id, ?_⟩
  rintro (rfl | ⟨v, hv, hback, rfl, rfl⟩)
  · exact hown
  · rcases hunderway.heard v hv hback with hmem | hcounted | ⟨w, hw, hwback, htype, -⟩
    · cases hmem
    · exact hcounted
    · have hearly := hquiet w hw hwback
      rw [htype, htaken] at hearly
      cases hearly

/-- Two rounds at rest with the same voters have come to the same end. -/
theorem Settled.same_outcome (h : Settled start b next (Backer start b votes) rt)
    (hunderway : Underway start b votes [] rt) (hquiet : Quiet start b rt)
    (h' : Settled start b next (Backer start b votes) rt')
    (hunderway' : Underway start b votes [] rt') (hquiet' : Quiet start b rt') :
    rt'.consensus.phase = rt.consensus.phase ∧ rt'.consensus.finalized = rt.consensus.finalized ∧
      rt'.chain = rt.chain := by
  have hprevotes : rt'.consensus.tally .prevote b.hash =
      rt.consensus.tally .prevote b.hash := by
    ext id
    rw [h'.mem_tally hunderway' hquiet' h'.takes_prevote h'.ownPrevote,
      h.mem_tally hunderway hquiet h.takes_prevote h.ownPrevote]
  have henough : ∀ s, rt'.consensus.Enough s ↔ rt.consensus.Enough s := fun s =>
    BftConsensus.Enough.congr
      (h'.voting.ground.validators.trans h.voting.ground.validators.symm)
      (h'.voting.ground.totalPower.trans h.voting.ground.totalPower.symm)
  have hprecommits : rt.consensus.phase ≠ .prevote → rt'.consensus.phase ≠ .prevote →
      rt'.consensus.tally .precommit b.hash =
        rt.consensus.tally .precommit b.hash := by
    intro hnot hnot'
    ext id
    rw [h'.mem_tally hunderway' hquiet' (h'.takes_precommit hnot') (h'.ownPrecommit hnot'),
      h.mem_tally hunderway hquiet (h.takes_precommit hnot) (h.ownPrecommit hnot)]
  have hsame : rt'.consensus.phase ≠ .prevote ↔ rt.consensus.phase ≠ .prevote := by
    rw [h'.voted_iff, h.voted_iff, hprevotes, henough]
  cases h.voting.stage with
  | prevote hphase _ hundecided =>
      have hphase' : rt'.consensus.phase = .prevote :=
        by_contra fun hnot => hsame.1 hnot hphase
      obtain ⟨-, -, hundecided'⟩ | hother | hother := h'.voting.stage
      · exact ⟨hphase'.trans hphase.symm, hundecided'.finalized.trans hundecided.finalized.symm,
          hundecided'.chain.trans hundecided.chain.symm⟩
      · rw [hphase'] at hother
        cases hother
      · rw [hphase'] at hother
        cases hother
  | precommit hphase _ hfew hundecided =>
      have hnot : rt.consensus.phase ≠ .prevote := by
        rw [hphase]
        exact ConsensusPhase.noConfusion
      rw [← hprecommits hnot (hsame.2 hnot), ← henough] at hfew
      cases h'.voting.stage with
      | prevote hother => exact absurd hother (hsame.2 hnot)
      | precommit hphase' _ _ hundecided' =>
          exact ⟨hphase'.trans hphase.symm, hundecided'.finalized.trans hundecided.finalized.symm,
            hundecided'.chain.trans hundecided.chain.symm⟩
      | finalized _ _ hcertified => exact absurd hcertified hfew
  | finalized hphase _ hcertified hdecided =>
      have hnot : rt.consensus.phase ≠ .prevote := by
        rw [hphase]
        exact ConsensusPhase.noConfusion
      rw [← hprecommits hnot (hsame.2 hnot), ← henough] at hcertified
      cases h'.voting.stage with
      | prevote hother => exact absurd hother (hsame.2 hnot)
      | precommit _ _ hfew => exact absurd hcertified hfew
      | finalized hphase' _ _ hdecided' =>
          exact ⟨hphase'.trans hphase.symm, hdecided'.finalized.trans hdecided.finalized.symm,
            hdecided'.chain.trans hdecided.chain.symm⟩

end

/-! ## Runs -/

theorem verifySignature_ne_stageMismatch (address : String) (message : ByteCodec.Bytes)
    (signature : String) :
    verifySignature address message signature ≠ .error BftConsensus.stageMismatch := by
  intro h
  simp [verifySignature, bind_eq_error, okOr_eq_error, reject_eq_error,
    BftConsensus.stageMismatch] at h

/-- The signature is checked before the phase. -/
theorem verify_of_premature
    (h : (rt.receiveVote env v).2 = .error BftConsensus.stageMismatch) : v.verify = .ok () := by
  cases hcheck : rt.consensus.checkVote v with
  | ok u => exact (BftConsensus.checkVote_eq_ok hcheck).2.2.2.1
  | error e =>
      obtain rfl : e = BftConsensus.stageMismatch := by
        unfold receiveVote BftConsensus.handle at h
        rw [hcheck] at h
        exact Except.error.inj h
      simp only [BftConsensus.checkVote, bind_eq_error, reject_eq_error] at hcheck
      obtain ⟨-, htext⟩ | ⟨-, -, ⟨-, htext⟩ | ⟨-, -, herror | ⟨u, hverify, -⟩⟩⟩ := hcheck
      · cases (by decide : ¬_ = BftConsensus.stageMismatch) htext
      · cases (by decide : ¬_ = BftConsensus.stageMismatch) htext
      · cases verifySignature_ne_stageMismatch _ _ _ herror
      · exact hverify

/-- What the main loop defers is correctly signed. -/
theorem verified_perform (hbounded : Bounded rt) {op : Operation} (hop : Disciplined env rt op)
    (h : ∀ v ∈ rt.deferredVotes, v.verify = .ok ()) :
    ∀ v ∈ (rt.perform env op).deferredVotes, v.verify = .ok () := by
  by_cases hdefer : ∃ u, op = .call (.deferVote u)
  · obtain ⟨u, rfl⟩ := hdefer
    intro v hv
    rcases mem_of_mem_deferVote hv with hold | rfl
    · exact h v hold
    · exact verify_of_premature hop
  · by_cases hreplay : op = .call .replayDeferredVotes
    · subst hreplay
      exact fun v hv => h v ((replays_replayDeferredVotes rt env).sublist.subset hv)
    · rcases queueKept_perform hbounded env (fun u hu => hdefer ⟨u, hu⟩) hreplay with
        hqueue | ⟨hsub, -⟩
      · rw [hqueue]
        exact h
      · exact fun v hv => h v (hsub hv)

/-- What holds of a node between two events of the main loop. -/
structure Orderly (rt : ConsensusRuntime) : Prop where
  bounded : Bounded rt
  poised : Poised rt
  verified : ∀ v ∈ rt.deferredVotes, v.verify = .ok ()

theorem orderly_of_operated {validators : List Validator} (hstart : Prepared validators start)
    (hpower : listedPower validators ≤ u64Max)
    (hrun : Operated (fun env rt op => Disciplined env rt op ∧ Unforced op) start rt) :
    Orderly rt := by
  induction hrun with
  | refl =>
      refine ⟨bounded_prepared hstart, poised_prepared hstart hpower, ?_⟩
      obtain ⟨chain, self, timeouts, instant, base, _, _, _, _, _, hbase, rfl⟩ := hstart
      simp only [withSigner, bind_eq_ok, pure_eq_ok] at hbase
      obtain ⟨c, -, rfl⟩ := hbase
      exact List.forall_mem_nil _
  | tail _ hstep ih =>
      obtain ⟨env, op, ⟨hdisciplined, hunforced⟩, rfl⟩ := hstep
      exact ⟨(perform_tracking ih.bounded env op).bounded ih.bounded, ih.poised.perform env hunforced,
        verified_perform ih.bounded hdisciplined ih.verified⟩

theorem blank_of_operated {validators : List Validator} (hstart : Prepared validators start)
    {allowed : Env → ConsensusRuntime → Operation → Prop}
    (hrun : Operated allowed start rt) : rt.consensus.Blank := by
  have hreached : Reached allowed start rt := Relation.ReflTransGen.mono (fun _ _ => Or.inl) _ _ hrun
  exact machine_invariant (fun _ _ hnew => BftConsensus.blank_new hnew)
    (fun _ input hc => hc.after input) hstart hreached

/-- Whatever the order in which a proposal and the votes for its block arrive, as long as no vote
for the block is pushed out of the queue, the node ends in the same phase, with the same
finalized block and on the same chain; and every replay ends. -/
theorem deliveries_commute {validators : List Validator} {rt₀ : ConsensusRuntime}
    {p : SignedProposal} {votes : List ConsensusMessage} (hstart : Prepared validators rt₀)
    (hpower : listedPower validators ≤ u64Max)
    (hrun : Operated (fun env rt op => Disciplined env rt op ∧ Unforced op) rt₀ rt)
    (hphase : rt.consensus.phase = .propose) (hself : rt.validator ∈ rt.consensus.validators)
    (happly : rt.chain.applyBlock p.block = .ok next)
    (hvotes : ∀ v ∈ votes, rt.consensus.Backs p.block.hash v)
    (hhonest : NonEquivocating rt p.block votes) {events events' : List (Env × Delivery)}
    (hevents : (events.map Prod.snd).Perm (.proposal p :: votes.map .vote))
    (hevents' : (events'.map Prod.snd).Perm (.proposal p :: votes.map .vote))
    (hserves : ∀ e ∈ events, Serves rt p e.1) (hserves' : ∀ e ∈ events', Serves rt p e.1)
    (hkeeps : KeepsWaiting rt p.block events rt) (hkeeps' : KeepsWaiting rt p.block events' rt) :
    (∀ (rt : ConsensusRuntime) (env : Env), Replays env rt [] (rt.replayDeferredVotes env)) ∧
      ∃ rt₁ rt₂, deliverAll events rt = (rt₁, .ok ()) ∧ deliverAll events' rt = (rt₂, .ok ()) ∧
        rt₂.consensus.phase = rt₁.consensus.phase ∧
        rt₂.consensus.finalized = rt₁.consensus.finalized ∧ rt₂.chain = rt₁.chain := by
  have horderly := orderly_of_operated hstart hpower hrun
  have scene : Scene rt p next votes := ⟨horderly.poised, blank_of_operated hstart hrun, hphase, hself,
    happly, horderly.verified, hvotes, hhonest⟩
  obtain ⟨rt₁, hall, hsettled, hunderway, hquiet⟩ := scene.deliverAll hevents hserves hkeeps
  obtain ⟨rt₂, hall', hsettled', hunderway', hquiet'⟩ := scene.deliverAll hevents' hserves' hkeeps'
  exact ⟨replays_replayDeferredVotes, rt₁, rt₂, hall, hall',
    hsettled.same_outcome hunderway hquiet hsettled' hunderway' hquiet'⟩

end

end ConsensusRuntime

namespace Quartet

open ConsensusRuntime

attribute [local instance] timeoutsCrypto

section
variable {rt : ConsensusRuntime} {held votes : List ConsensusMessage} {p : SignedProposal}

theorem voteHistory_fresh (h : started = .ok rt) : rt.consensus.voteHistory = ∅ := by
  simp only [started, withSigner, bind_eq_ok, pure_eq_ok] at h
  obtain ⟨c, hnew, rfl⟩ := h
  simp only [BftConsensus.new, check_bind_eq_ok] at hnew
  simp only [bind_eq_ok, pure_eq_ok] at hnew
  obtain ⟨-, powers, -, rfl⟩ := hnew
  rfl

/-- The fresh node accepts its own proposal, whatever waits. -/
theorem serves_fresh (h : started = .ok rt) :
    ∃ p, p.block = emptyBlock ∧ ∀ held, Serves (waiting rt held) p env := by
  obtain ⟨⟨hheight, -, -⟩, -, -, -, -⟩ := fresh_spec h
  obtain ⟨hpair, p, hmade, hblock⟩ := proposal_fresh h
  have hrun : Reached (fun _ _ _ => True) rt rt := .refl
  have haccountable : rt.consensus.Accountable :=
    machine_invariant (fun _ _ hnew => BftConsensus.accountable_new hnew)
      (fun _ input hc => hc.after input) (prepared h) hrun
  have haccepts : ∃ vote, (rt.receiveProposal env p).2 = .ok vote := by
    refine (acceptsOwn_iff haccountable length_sha256 (signerWorks h)
      (checkProposedBlock_fresh h) hmade).2 ⟨?_, ?_⟩
    · have htip : chain.tipHeight = 0 := rfl
      rw [hheight, (started_spec h).1, htip]
    · rw [hpair]
      nofun
  refine ⟨p, hblock, fun held => ?_⟩
  have hworks : (waiting rt held).SignerWorks env := fun payload => signerWorks h payload
  have hchecks := (receiveProposal_ok_iff (signerWorks h)).1 haccepts
  exact ⟨hworks, (receiveProposal_ok_iff hworks).2 hchecks⟩

theorem applyBlock_fresh (h : started = .ok rt) :
    ∃ next, rt.chain.applyBlock emptyBlock = .ok next := by
  have hok : (chain.applyBlock emptyBlock).toOption.isSome = true := by decide +kernel
  rw [(started_spec h).1]
  exact ⟨_, eq_ok_get hok⟩

theorem member_fresh (h : started = .ok rt) {n : ℕ} (hn : n ∈ [1, 2, 3, 4]) :
    StandIn.address n ∈ rt.consensus.validators := by
  obtain ⟨-, -, -, -, hlookup⟩ := fresh_spec h
  rw [← AList.lookup_isSome, hlookup n hn]
  rfl

theorem backs_prevoteOf (h : started = .ok rt) {n : ℕ} (hn : n ∈ [1, 2, 3, 4]) :
    rt.consensus.Backs emptyBlock.hash (prevoteOf 0 n) := by
  obtain ⟨⟨hheight, hround, -⟩, -, -, -, -⟩ := fresh_spec h
  exact ⟨hheight.symm, hround.symm, rfl, StandIn.verifySignature_sign _ n _, member_fresh h hn⟩

theorem spam_elsewhere (n : ℕ) : (spam n).blockHash ≠ emptyBlock.hash := by
  intro h
  have hfirst : emptyBlock.hash.toList.head? = some '0' := by decide +kernel
  rw [← h, spam, String.toList_ofList] at hfirst
  cases n with
  | zero => cases hfirst
  | succ n =>
      rw [List.replicate_succ, List.head?_cons] at hfirst
      exact absurd (Option.some.inj hfirst) (by decide)

/-- Prevotes of the second and the fourth validator for the block, and spam. -/
def Among (ns : List ℕ) (votes : List ConsensusMessage) : Prop :=
  ∀ v ∈ votes, (∃ n ∈ ns, v = prevoteOf 0 n) ∨ ∃ n, v = spam n

theorem Among.backer {ns : List ℕ} (h : started = .ok rt) (hall : Among ns (held ++ votes))
    {voteType : VoteType} {id : String}
    (hbacker : Backer (waiting rt held) emptyBlock votes voteType id) :
    id ∈ (1 :: ns).map StandIn.address := by
  rcases hbacker with hid | ⟨v, hv, hback, -, rfl⟩
  · rw [hid]
    exact List.mem_map.2 ⟨1, List.mem_cons_self .., (validator_started h).symm⟩
  · rcases hall v hv with ⟨n, hn, rfl⟩ | ⟨n, rfl⟩
    · exact List.mem_map_of_mem (List.mem_cons_of_mem _ hn)
    · exact absurd hback.block (spam_elsewhere n)

/-- The third validator has no say. -/
theorem Among.scene {ns : List ℕ} (h : started = .ok rt) (hall : Among ns (held ++ votes))
    (hns : ∀ n ∈ ns, n ∈ [2, 4]) (hblock : p.block = emptyBlock)
    (hvotes : ∀ v ∈ votes, v.blockHash = emptyBlock.hash) :
    ∃ next, Scene (waiting rt held) p next votes := by
  obtain ⟨next, hnext⟩ := applyBlock_fresh h
  obtain ⟨⟨hheight, hround, hphase⟩, -, -, -, -⟩ := fresh_spec h
  have hpoised : Poised (waiting rt held) :=
    (poised_prepared (prepared h) power_members).congr rfl rfl rfl fun _ => rfl
  have hblank : rt.consensus.Blank := by
    have hrun : Operated (fun _ _ _ => True) rt rt := .refl
    exact blank_of_operated (prepared h) hrun
  have hmember : ∀ n ∈ ns, n ∈ [1, 2, 3, 4] := fun n hn =>
    (by decide : ∀ n ∈ [2, 4], n ∈ [1, 2, 3, 4]) n (hns n hn)
  refine ⟨next, hpoised, hblank, hphase, ?_, ?_, ?_, ?_, ?_, ?_⟩
  · show rt.validator ∈ rt.consensus.validators
    rw [validator_started h]
    exact member_fresh h (by decide)
  · rw [hblock]
    exact hnext
  · intro v hv
    rcases hall v (List.mem_append_left _ hv) with ⟨n, hn, rfl⟩ | ⟨n, rfl⟩
    · exact StandIn.verifySignature_sign _ n _
    · exact StandIn.verifySignature_sign _ 3 _
  · intro v hv
    rw [hblock]
    rcases hall v (List.mem_append_right _ hv) with ⟨n, hn, rfl⟩ | ⟨n, rfl⟩
    · exact backs_prevoteOf h (hmember n hn)
    · exact absurd (hvotes _ hv) (spam_elsewhere n)
  · rw [hblock]
    intro v hv _ _ hbacker
    rcases hall v (List.mem_append_left _ hv) with ⟨n, hn, rfl⟩ | ⟨n, rfl⟩
    · rfl
    · obtain ⟨k, hk, hid⟩ := List.mem_map.1 (hall.backer h hbacker)
      have hne : UInt8.ofNat k ≠ UInt8.ofNat 3 := by
        rcases List.mem_cons.1 hk with rfl | hk
        · decide
        · exact (by decide : ∀ n ∈ [2, 4], UInt8.ofNat n ≠ UInt8.ofNat 3) k (hns k hk)
      exact absurd hid (StandIn.address_ne hne)
  · intro t id _ y hy
    rw [waiting, voteHistory_fresh h] at hy
    cases hy

/-- Four validators of power one. -/
theorem enough_iff (h : started = .ok rt) {c : BftConsensus}
    (hvalidators : c.validators = rt.consensus.validators)
    (htotal : c.totalPower = rt.consensus.totalPower) {ns : List ℕ} (hnodup : ns.Nodup)
    (hns : ∀ n ∈ ns, n ∈ [1, 2, 3, 4]) :
    c.Enough (ns.map StandIn.address).toFinset ↔ 3 ≤ ns.length := by
  obtain ⟨-, -, -, hfour, hlookup⟩ := fresh_spec h
  have hone : ∀ n ∈ ns, getD c.validators (StandIn.address n) 0 = 1 := by
    intro n hn
    rw [getD, hvalidators, hlookup n (hns n hn), Option.getD_some]
  have haddresses : (ns.map StandIn.address).Nodup := by
    refine List.Nodup.map_on (fun n hn m hm heq => ?_) hnodup
    refine List.inj_on_of_nodup_map nodup_addresses (hns n hn) (hns m hm) heq
  have hconst : ns.map ((fun id => getD c.validators id 0) ∘ StandIn.address) = ns.map fun _ => 1 :=
    List.map_congr_left hone
  have hsum : ∑ id ∈ (ns.map StandIn.address).toFinset, getD c.validators id 0 = ns.length := by
    rw [List.sum_toFinset _ haddresses, List.map_map, hconst, List.map_const',
      List.sum_replicate_nat, mul_one]
  have hle : ns.length ≤ 4 := (hnodup.subperm hns).length_le
  rw [BftConsensus.Enough, hsum, htotal, hfour, BftConsensus.exceedsTwoThirds, decide_eq_true_eq]
  unfold saturatingMul u64Max
  omega

/-- The votes that the fresh node would count decide about its phase after the proposal. -/
theorem phase_settled (h : started = .ok rt) {held votes : List ConsensusMessage}
    {next : Blockchain} {ns : List ℕ} (hall : Among ns (held ++ votes)) (hnodup : (1 :: ns).Nodup)
    (hns : ∀ n ∈ ns, n ∈ [2, 4]) (hsent : ∀ n ∈ ns, prevoteOf 0 n ∈ held ++ votes)
    {rt' : ConsensusRuntime}
    (hsettled : Settled (waiting rt held) emptyBlock next
      (Backer (waiting rt held) emptyBlock votes) rt')
    (hunderway : Underway (waiting rt held) emptyBlock votes [] rt')
    (hquiet : Quiet (waiting rt held) emptyBlock rt') :
    rt'.consensus.phase ≠ .prevote ↔ 2 ≤ ns.length := by
  have hmember : ∀ n ∈ 1 :: ns, n ∈ [1, 2, 3, 4] := by
    intro n hn
    rcases List.mem_cons.1 hn with rfl | hn
    · decide
    · exact (by decide : ∀ n ∈ [2, 4], n ∈ [1, 2, 3, 4]) n (hns n hn)
  have hcounted : rt'.consensus.tally .prevote emptyBlock.hash =
      ((1 :: ns).map StandIn.address).toFinset := by
    ext id
    rw [hsettled.mem_tally hunderway hquiet hsettled.takes_prevote hsettled.ownPrevote,
      List.mem_toFinset]
    refine ⟨hall.backer h, fun hid => ?_⟩
    obtain ⟨n, hn, rfl⟩ := List.mem_map.1 hid
    rcases List.mem_cons.1 hn with rfl | hn'
    · exact .inl (validator_started h).symm
    · exact .inr ⟨prevoteOf 0 n, hsent n hn', backs_prevoteOf h (hmember n hn), rfl, rfl⟩
  rw [hsettled.voted_iff, hcounted, enough_iff h hsettled.voting.ground.validators
    hsettled.voting.ground.totalPower hnodup hmember, List.length_cons]
  omega

theorem among_queue (n : ℕ) : Among [2, 4] (queue n) := by
  intro v hv
  rcases List.mem_cons.1 hv with rfl | hv
  · exact .inl ⟨2, by decide, rfl⟩
  · obtain ⟨k, -, rfl⟩ := List.mem_map.1 hv
    exact .inr ⟨k, rfl⟩

/-- The third validator can fill the queue of the fresh node behind the prevote of the second. -/
theorem operated_queue (h : started = .ok rt) {n : ℕ} (hn : n < maxDeferredVotes) :
    Operated (fun env rt op => Disciplined env rt op ∧ Unforced op) rt (waiting rt (queue n)) := by
  have hfirst : Disciplined env rt (.call (.deferVote (prevoteOf 0 2))) := by
    have hqueued := @disciplined_queued _ [] h 0 _ (List.mem_cons_self ..)
    rw [waiting_fresh h] at hqueued
    exact hqueued
  refine .head ⟨env, _, ⟨hfirst, trivial⟩, defer_first h⟩ ?_
  refine Relation.ReflTransGen.mono ?_ _ _ (spam_run h hn)
  rintro _ _ ⟨⟨env, op, ⟨hdisciplined, -, hop⟩, rfl⟩, -⟩
  refine ⟨env, op, ⟨hdisciplined, ?_⟩, rfl⟩
  rcases hop with ⟨k, rfl⟩ | rfl <;> trivial

/-- With a full queue the prevote of the fourth validator counts for nothing if it comes first:
it pushes out the one of the second. -/
theorem order_matters : ∃ rt₀ rt p next rt₁ rt₂, Prepared members rt₀ ∧
    Operated (fun env rt op => Disciplined env rt op ∧ Unforced op) rt₀ rt ∧
    rt.consensus.phase = .propose ∧ rt.validator ∈ rt.consensus.validators ∧
    rt.chain.applyBlock p.block = .ok next ∧ Serves rt p env ∧
    rt.consensus.Backs p.block.hash (prevoteOf 0 4) ∧
    NonEquivocating rt p.block [prevoteOf 0 4] ∧
    deliverAll [(env, .proposal p), (env, .vote (prevoteOf 0 4))] rt = (rt₁, .ok ()) ∧
    deliverAll [(env, .vote (prevoteOf 0 4)), (env, .proposal p)] rt = (rt₂, .ok ()) ∧
    rt₁.consensus.phase ≠ .prevote ∧ rt₂.consensus.phase = .prevote := by
  obtain ⟨rt, h⟩ := started_ok
  obtain ⟨p, hblock, hserves⟩ := serves_fresh h
  obtain ⟨hsigner, -⟩ := hserves (queue 1023)
  have hback := backs_prevoteOf h (by decide : 4 ∈ [1, 2, 3, 4])
  have hall : Among [2, 4] (queue 1023 ++ [prevoteOf 0 4]) := by
    intro v hv
    rcases List.mem_append.1 hv with hv | hv
    · exact among_queue 1023 v hv
    · exact .inl ⟨4, by decide, List.mem_singleton.1 hv⟩
  obtain ⟨next, scene⟩ := hall.scene h (fun n hn => hn) hblock fun v hv => by
    rw [List.mem_singleton.1 hv]
    rfl
  -- the proposal first: its prevotes are counted as they come
  obtain ⟨rt', hproposed, hsettled, hunderway, -⟩ := Opening.proposal scene (hserves _) ⟨_, rfl⟩
    (underway_start fun v hv => hv)
  obtain ⟨rt₁, hvoted, hsettled₁, hunderway₁, hquiet₁⟩ := hsettled.vote scene hsigner hunderway
    (List.mem_singleton_self _) fun hearly =>
      Bool.noConfusion (hsettled.takes_prevote.symm.trans hearly)
  -- the prevote first: the one of the second validator is lost
  have hnew : ¬∃ known ∈ (waiting rt (queue 1023)).deferredVotes, known.SaysSame (prevoteOf 0 4) := by
    rintro ⟨known, hknown, -, -, -, hid, -⟩
    rcases List.mem_cons.1 hknown with rfl | hknown
    · exact StandIn.address_ne (by decide : UInt8.ofNat 2 ≠ UInt8.ofNat 4) hid
    · obtain ⟨k, -, rfl⟩ := List.mem_map.1 hknown
      exact StandIn.address_ne (by decide : UInt8.ofNat 3 ≠ UInt8.ofNat 4) hid
  have hfull : maxDeferredVotes ≤ (waiting rt (queue 1023)).deferredVotes.length := by
    rw [waiting, length_queue]
    decide
  obtain ⟨-, kept, hdeferred, hsub, hkept⟩ :=
    @consensusReceived_propose _ (waiting rt (queue 1023)) (prevoteOf 0 4) scene.phase hback env
  rw [deferVote_new hnew, if_pos hfull] at hsub hkept
  have hwaits : prevoteOf 0 4 ∈ kept :=
    hkept _ (List.mem_append_right _ (List.mem_singleton_self _)) hback
  have hfew : Among [4] (kept ++ []) := by
    intro v hv
    rw [List.append_nil] at hv
    rcases List.mem_append.1 (hsub.subset hv) with hv | hv
    · obtain ⟨k, -, rfl⟩ := List.mem_map.1 (show v ∈ (List.range 1023).map spam from hv)
      exact .inr ⟨k, rfl⟩
    · exact .inl ⟨4, by decide, List.mem_singleton.1 hv⟩
  obtain ⟨next', scene'⟩ := hfew.scene h (by decide) hblock (List.forall_mem_nil _)
  obtain ⟨rt₂, hproposed', hsettled₂, hunderway₂, hquiet₂⟩ :=
    Opening.proposal scene' (hserves kept) ⟨_, rfl⟩ (underway_start fun v hv => hv)
  refine ⟨rt, waiting rt (queue 1023), p, next, rt₁, rt₂, prepared h,
    operated_queue h (by decide), scene.phase, scene.self, scene.executable, hserves _,
    scene.backed _ (List.mem_singleton_self _), scene.honest, ?_, ?_, ?_, ?_⟩
  · have hfirst : (waiting rt (queue 1023)).deliver env (.proposal p) = (rt', .ok ()) := hproposed
    have hsecond : rt'.deliver env (.vote (prevoteOf 0 4)) = (rt₁, .ok ()) := hvoted
    rw [deliverAll_cons hfirst, deliverAll_cons hsecond]
    rfl
  · have hfirst : (waiting rt (queue 1023)).deliver env (.vote (prevoteOf 0 4)) =
        (waiting rt kept, .ok ()) := hdeferred
    have hsecond : (waiting rt kept).deliver env (.proposal p) = (rt₂, .ok ()) := hproposed'
    rw [deliverAll_cons hfirst, deliverAll_cons hsecond]
    rfl
  · rw [hblock] at hsettled₁ hunderway₁ hquiet₁
    refine (phase_settled h hall ?_ (fun n hn => hn) ?_ hsettled₁ hunderway₁ hquiet₁).2 (by decide)
    · decide
    · intro n hn
      rcases List.mem_cons.1 hn with rfl | hn
      · exact List.mem_append_left _ (List.mem_cons_self ..)
      · rw [List.mem_singleton.1 hn]
        exact List.mem_append_right _ (List.mem_singleton_self _)
  · rw [hblock] at hsettled₂ hunderway₂ hquiet₂
    refine by_contra fun hlater => absurd ((phase_settled h hfew ?_ ?_ ?_ hsettled₂ hunderway₂
      hquiet₂).1 hlater) (by decide)
    · decide
    · decide
    · intro n hn
      rw [List.mem_singleton.1 hn, List.append_nil]
      exact hwaits

/-- A prevote before and after the proposal of a fresh node. -/
theorem deliveries_commute_fresh : ∃ rt p rt₁ rt₂, Prepared members rt ∧
    deliverAll [(env, .proposal p), (env, .vote (prevoteOf 0 2))] rt = (rt₁, .ok ()) ∧
    deliverAll [(env, .vote (prevoteOf 0 2)), (env, .proposal p)] rt = (rt₂, .ok ()) ∧
    rt₂.consensus.phase = rt₁.consensus.phase ∧
    rt₂.consensus.finalized = rt₁.consensus.finalized ∧ rt₂.chain = rt₁.chain := by
  obtain ⟨rt, h⟩ := started_ok
  obtain ⟨p, hblock, hserves⟩ := serves_fresh h
  have hone := hserves []
  have hall : Among [2] ([] ++ [prevoteOf 0 2]) := fun v hv =>
    .inl ⟨2, List.mem_singleton_self _, List.mem_singleton.1 hv⟩
  obtain ⟨next, scene⟩ := hall.scene h (by decide) hblock fun v hv => by
    rw [List.mem_singleton.1 hv]
    rfl
  rw [waiting_fresh h] at scene hone
  have hempty : rt.deferredVotes = [] := by
    rw [← waiting_fresh h]
    rfl
  have hkeeps : ∀ events : List (Env × Delivery), (events.filterMap (·.2.asVote)).length = 1 →
      KeepsWaiting rt p.block events rt := by
    intro events hlength
    refine keepsWaiting_of_hasRoom ⟨[], [], hempty, List.forall_mem_nil _, ?_⟩
    rw [hlength]
    decide
  have hserve : ∀ events : List (Env × Delivery), (∀ e ∈ events, e.1 = env) →
      ∀ e ∈ events, Serves rt p e.1 := by
    intro events henv e he
    rw [henv e he]
    exact hone
  have hearly : ([(env, Delivery.proposal p), (env, .vote (prevoteOf 0 2))].map Prod.snd).Perm
      (.proposal p :: [prevoteOf 0 2].map .vote) := .refl _
  have hlate : ([(env, Delivery.vote (prevoteOf 0 2)), (env, .proposal p)].map Prod.snd).Perm
      (.proposal p :: [prevoteOf 0 2].map .vote) := .swap _ _ _
  obtain ⟨-, rt₁, rt₂, hfirst, hsecond, hsame⟩ := deliveries_commute (prepared h) power_members .refl
    scene.phase scene.self scene.executable scene.backed scene.honest hearly hlate
    (hserve _ (by simp)) (hserve _ (by simp)) (hkeeps _ rfl) (hkeeps _ rfl)
  exact ⟨rt, p, rt₁, rt₂, prepared h, hfirst, hsecond, hsame⟩

end

end Quartet

end IeumChain
