import IeumChain.Timeouts

/-!
# Executed events over a run

A node that starts at genesis and installs no snapshot executes every event identifier at
most once. Every block on its chain has passed the checks of the node at some time: the
certified and the synced ones when they came, the candidate when it was proposed. So the
identifier of a daily reward names the day of its block, and no day is paid twice.
-/
namespace IeumChain

open Text Outcome MachineWords

namespace ConsensusRuntime

/-- The candidate has a property. -/
def Candidate (P : Block → Prop) (rt : ConsensusRuntime) : Prop := ∀ b, rt.pending = some b → P b

section
variable [Crypto]

/-- The chain has grown by blocks with a property, and the candidate has it too. -/
structure Extends (P : Block → Prop) (rt rt' : ConsensusRuntime) : Prop where
  chain : Relation.ReflTransGen (fun c c' => ∃ b, P b ∧ c.applyBlock b = .ok c') rt.chain rt'.chain
  candidate : rt'.Candidate P

section
variable {P : Block → Prop} {rt rt' rt'' : ConsensusRuntime} {env : Env}

theorem Extends.same (h : rt.Candidate P) (hchain : rt'.chain = rt.chain)
    (hpending : ∀ b, rt'.pending = some b → rt.pending = some b) : Extends P rt rt' := by
  refine ⟨?_, fun b hb => h b (hpending b hb)⟩
  rw [hchain]

theorem Extends.refl (h : rt.Candidate P) : Extends P rt rt := .same h rfl fun _ => id

theorem Extends.trans (h : Extends P rt rt') (h' : Extends P rt' rt'') : Extends P rt rt'' :=
  ⟨h.chain.trans h'.chain, h'.candidate⟩

theorem Extends.applied {b : Block} (hb : P b) (h : rt.chain.applyBlock b = .ok rt'.chain)
    (hcandidate : rt'.Candidate P) : Extends P rt rt' :=
  ⟨.single ⟨b, hb, h⟩, hcandidate⟩

theorem Candidate.framed {new : List ConsensusMessage} (h : rt.Candidate P)
    (hframe : Frame new rt rt') (hpending : rt'.pending = rt.pending ∨ rt'.pending = none) :
    Extends P rt rt' := by
  refine .same h hframe.chain ?_
  rcases hpending with hpending | hpending
  · rw [hpending]
    exact fun _ => id
  · simp [hpending]

theorem Candidate.moved {new : List ConsensusMessage} (h : rt.Candidate P)
    (hframe : Frame new rt rt') (hmoved : Stayed rt rt' ∨ Jumped rt rt') : Extends P rt rt' :=
  h.framed hframe (hmoved.imp (·.pending) fun ⟨_, _, _, _, _, hpending, _⟩ => hpending)

theorem Candidate.openNextHeight (h : rt.Candidate P) (env : Env) :
    Extends P rt (rt.openNextHeight env).1 := by
  obtain ⟨hframe, hrefused | ⟨-, -, hpending, -⟩⟩ := rt.openNextHeight_cases env
  · rw [hrefused]
    exact .refl h
  · exact h.framed hframe (.inr hpending)

theorem Candidate.afterVote (h : rt.Candidate P) (env : Env) :
    Extends P rt (rt.afterVote env).1 := by
  rcases rt.afterVote_cases env with hcase | ⟨b, -, -, hcase⟩ | ⟨b, -, -, hcase⟩ |
    ⟨b, chain, -, hpending, -, -, happly, hcase⟩
  · rw [hcase]
    exact .refl h
  · rw [hcase]
    exact .same h rfl fun _ => id
  · rw [hcase]
    exact .same h rfl (by simp)
  · rw [hcase]
    exact .applied (h b hpending) happly (by simp [Candidate])

theorem Candidate.receiveVote (h : rt.Candidate P) (env : Env) (vote : ConsensusMessage) :
    Extends P rt (rt.receiveVote env vote).1 := by
  rcases rt.receiveVote_cases env vote with ⟨c', e, -, hcase⟩ | ⟨-, -, c₁, -, hcase⟩
  · rw [hcase]
    exact .same h rfl fun _ => id
  · rw [hcase]
    obtain ⟨hframe, -, hpending⟩ :=
      frame_counted rt env vote ((c₁.addVote vote).advancePhase vote)
    have hcounted := h.framed hframe (.inl hpending)
    exact hcounted.trans (hcounted.candidate.afterVote env)

theorem Candidate.timeout (h : rt.Candidate P) (env : Env) (now : ℕ) :
    Extends P rt (rt.timeoutIfDueWithRoundChange env now).1 := by
  obtain ⟨rt₁, hrt₁, hframe, hmoved⟩ := rt.timeoutIfDueWithRoundChange_cases env now
  have hsigned : Extends P rt rt₁ := by
    rcases hrt₁ with rfl | rfl
    · exact .refl h
    · exact .same h rfl fun _ => id
  exact hsigned.trans (hsigned.candidate.moved hframe hmoved)

theorem extendsReplay (P : Block → Prop) (base : ConsensusRuntime) (env : Env) :
    ReplayRule env (Extends P base) (fun _ _ => True) (fun _ _ => True) where
  receive _ v h _ := h.trans (h.candidate.receiveVote env v)
  keep _ _ _ _ _ _ := trivial
  keepSent _ _ _ _ _ _ := trivial
  reply _ _ _ _ _ _ := ⟨trivial, trivial⟩
  deferred _ _ _ _ := trivial
  store _ _ h _ := h.trans (.same h.candidate rfl fun _ => id)
  storeKeep _ _ _ _ := trivial
  storeSent _ _ _ _ := trivial

end

/-! ## Blocks that passed -/

section
variable {P : Block → Prop} {rt : ConsensusRuntime} {env : Env}
variable (hpass : ∀ (rt : ConsensusRuntime) b,
  rt.validateScheduledBlock env.unixNow b = .ok () → P b)

include hpass

theorem Candidate.receiveProposal (h : rt.Candidate P) (p : SignedProposal) :
    Extends P rt (rt.receiveProposal env p).1 := by
  rcases rt.receiveProposal_cases env p with ⟨c', e, -, hcase⟩ | ⟨hcheck, -, -, hcase⟩
  · rw [hcase]
    exact .same h rfl fun _ => id
  · simp only [checkProposedBlock, check_bind_eq_ok] at hcheck
    rw [hcase]
    refine ⟨.refl, ?_⟩
    rintro b ⟨⟩
    exact hpass rt _ hcheck.2

theorem Candidate.applySyncLoop {certificates : List FinalityCertificate} {applied : ℕ}
    (h : rt.Candidate P) : Extends P rt (applySyncLoop env certificates rt applied).1 := by
  induction certificates generalizing rt applied with
  | nil => exact .refl h
  | cons c rest ih =>
      unfold ConsensusRuntime.applySyncLoop
      cases hone : rt.applySyncCertificate env c with
      | error e => exact .refl h
      | ok result =>
          have hacceptable := acceptable_of_applySyncCertificate hone
          have hwhich := applySyncCertificate_of_acceptable hacceptable
          obtain ⟨-, hnext⟩ := hacceptable
          rw [hone] at hwhich
          split_ifs at hwhich hnext
          · cases hwhich
            exact ih h
          · cases hwhich
            obtain ⟨-, hvalid, chain, happly⟩ := hnext
            have hoffer : rt.chain.offer c.block = chain := by simp [Blockchain.offer, happly]
            rw [hoffer]
            have hone : Extends P rt { rt with chain, finalized := rt.finalized ++ [c] } :=
              .applied (hpass rt _ hvalid) happly h
            exact hone.trans (ih hone.candidate)

theorem Candidate.applySyncBatch {blocks : List Block} {applied : ℕ} (h : rt.Candidate P) :
    Extends P rt (applySyncBatch env blocks rt applied).1 := by
  induction blocks generalizing rt applied with
  | nil => exact .refl h
  | cons block rest ih =>
      unfold ConsensusRuntime.applySyncBatch
      dsimp only
      split_ifs
      · exact ih h
      · exact .refl h
      · cases hvalid : rt.validateScheduledBlock env.unixNow block with
        | error e => exact .refl h
        | ok u =>
            cases happly : rt.chain.applyBlock block with
            | error e => exact .refl h
            | ok chain =>
                have hone : Extends P rt { rt with chain } :=
                  .applied (hpass rt block hvalid) happly h
                exact hone.trans (ih hone.candidate)

theorem Candidate.applySyncCertificates (h : rt.Candidate P)
    (certificates : List FinalityCertificate) :
    Extends P rt (rt.applySyncCertificates env certificates).1 := by
  have hloop : Extends P rt (ConsensusRuntime.applySyncLoop env certificates rt 0).1 :=
    h.applySyncLoop hpass
  unfold ConsensusRuntime.applySyncCertificates
  generalize ConsensusRuntime.applySyncLoop env certificates rt 0 = result at hloop
  obtain ⟨rt₁, result⟩ := result
  cases result with
  | error e => exact hloop
  | ok total =>
      dsimp only at hloop ⊢
      split_ifs
      · exact hloop
      · exact hloop.trans (hloop.candidate.openNextHeight env)

theorem Candidate.run (h : rt.Candidate P) (call : Call) : Extends P rt (rt.run env call).1 := by
  cases call with
  | makeProposal block =>
      rcases rt.makeProposal_cases env block with hcase | ⟨_, _, _, _, _, hcase⟩
      · simp only [ConsensusRuntime.run, hcase]
        exact .refl h
      · simp only [ConsensusRuntime.run, hcase]
        exact .same h rfl fun _ => id
  | receiveProposal p => exact h.receiveProposal hpass p
  | receiveVote vote => exact h.receiveVote env vote
  | deferVote vote =>
      obtain ⟨hframe, hstayed⟩ := rt.frame_deferVote vote
      exact h.moved hframe (.inl hstayed)
  | replayDeferredVotes => exact ((extendsReplay P rt env).replay (.refl h)).1
  | receiveRoundChange m =>
      obtain ⟨hframe, hmoved⟩ := rt.receiveRoundChange_cases env m
      exact h.moved hframe hmoved
  | timeoutIfDueWithRoundChange now => exact h.timeout env now
  | applySyncCertificates certificates => exact h.applySyncCertificates hpass certificates
  | advanceAfterFinalization =>
      rcases rt.advanceAfterFinalization_cases env with hcase | ⟨-, hcase⟩
      · simp only [ConsensusRuntime.run, hcase]
        exact .refl h
      · simp only [ConsensusRuntime.run, hcase]
        exact h.openNextHeight env
  | restartPhaseTimeout now => exact .same h rfl fun _ => id
  | takeEvidence => exact .same h rfl fun _ => id
  | takeFinalized => exact .same h rfl fun _ => id

/-- Every operation but the installation of a snapshot only adds checked blocks. -/
theorem Candidate.perform (h : rt.Candidate P) {op : Operation}
    (hop : ∀ snapshot certificate, op ≠ .installCertifiedSnapshot snapshot certificate) :
    Extends P rt (rt.perform env op) := by
  cases op with
  | call call => exact h.run hpass call
  | timeoutIfDue now => exact h.timeout env now
  | forceTimeoutForTest => exact .same h rfl (by simp [ConsensusRuntime.perform, forceTimeoutForTest])
  | applySyncBatch blocks => exact h.applySyncBatch hpass
  | importCertificateHistory certificates =>
      obtain ⟨finalized, hcase⟩ := rt.importCertificateHistory_eq certificates
      simp only [ConsensusRuntime.perform, hcase]
      exact .same h rfl fun _ => id
  | installCertifiedSnapshot snapshot certificate => exact absurd rfl (hop snapshot certificate)
  | replaceBootstrapValidators validators =>
      simp only [ConsensusRuntime.perform]
      rcases rt.replaceBootstrapValidators_cases env validators with hcase | ⟨-, -, c, -, hcase⟩
      · rw [hcase]
        exact .refl h
      · rw [hcase]
        refine .same h rfl ?_
        rintro b ⟨⟩
  | configure => exact .same h rfl fun _ => id

end

/-- The clock counts seconds in a signed word, and no snapshot is installed. -/
def Ordinary (env : Env) (_ : ConsensusRuntime) (op : Operation) : Prop :=
  (∀ now, env.unixNow = some now → now < 2 ^ 63) ∧
    ∀ snapshot certificate, op ≠ .installCertifiedSnapshot snapshot certificate

/-- The block passed the checks of a node before the end of the clock. -/
def Passed (b : Block) : Prop :=
  ∃ (rt : ConsensusRuntime) (now : ℕ), now < 2 ^ 63 ∧ rt.validateScheduledBlock (some now) b = .ok ()

/-- A whole run only adds blocks that passed. -/
theorem extends_of_reached {validators : List Validator} {rt₀ rt : ConsensusRuntime}
    (hstart : Prepared validators rt₀) (hrun : Reached Ordinary rt₀ rt) : Extends Passed rt₀ rt := by
  induction hrun with
  | refl =>
      obtain ⟨chain, self, timeouts, instant, base, _, _, _, _, _, hbase, rfl⟩ := hstart
      simp only [withSigner, bind_eq_ok, pure_eq_ok] at hbase
      obtain ⟨c, -, rfl⟩ := hbase
      exact .refl (by simp [Candidate])
  | tail _ hstep ih =>
      rcases hstep with ⟨env, op, ⟨hclock, hop⟩, rfl⟩ | ⟨votes, rfl⟩
      · refine ih.trans (ih.candidate.perform ?_ hop)
        intro rt b hvalid
        obtain ⟨-, now, hnow, -⟩ := validateScheduledBlock_eq_ok.1 hvalid
        rw [hnow] at hvalid
        exact ⟨rt, now, hclock now hnow, hvalid⟩
      · exact ih.trans (.same ih.candidate rfl fun _ => id)

end

end ConsensusRuntime

/-! ## The days of the rewards -/

/-- The calendar day in Korea. -/
def kstDate (timestamp : ℕ) : ℕ := (timestamp + 9 * 60 * 60) / (24 * 60 * 60)

/-- The calendar day of universal time. -/
def utcDate (timestamp : ℕ) : ℕ := timestamp / (24 * 60 * 60)

namespace RewardKind

/-- The rewards that are paid day by day. -/
def daily : List RewardKind := [.interest, .holder, .delegation, .service]

def date (timestamp : ℕ) : RewardKind → ℕ
  | .service => utcDate timestamp
  | _ => kstDate timestamp

/-- The text in front of the day. -/
def title : RewardKind → String
  | .bootstrap => bootstrapRewardId
  | .milestone => nodeMilestoneRewardId
  | .interest => "ieum-validator-interest-v1-"
  | .holder => "ieum-holder-reward-v1-"
  | .delegation => "ieum-delegation-reward-v1-"
  | .service => "ieum-node-service-reward-v1-"

/-- Before the last nine hours of the unsigned word, the three ways to compute a day give the
calendar day. -/
theorem rewardId_eq {kind : RewardKind} (hkind : kind ∈ daily) {timestamp : ℕ}
    (h : timestamp + 9 * 60 * 60 < 2 ^ 64) :
    rewardId timestamp kind = kind.title ++ decimal (kind.date timestamp) := by
  have hmax : u64Max = 18446744073709551615 := rfl
  have hkst : kstDate timestamp = ValidatorInterest.kstDay timestamp := by
    simp only [ValidatorInterest.kstDay, saturatingAdd, ValidatorInterest.kstOffsetSeconds,
      ValidatorInterest.daySeconds, kstDate]
    omega
  have hwrapped : kstDate timestamp = HolderRewards.wrappedDay timestamp := by
    simp only [HolderRewards.wrappedDay, kstDate]
    omega
  cases kind with
  | bootstrap => simp [daily] at hkind
  | milestone => simp [daily] at hkind
  | interest =>
      rw [show date timestamp .interest = ValidatorInterest.kstDay timestamp from hkst]
      rfl
  | holder =>
      rw [show date timestamp .holder = HolderRewards.wrappedDay timestamp from hwrapped]
      rfl
  | delegation =>
      rw [show date timestamp .delegation = ValidatorInterest.kstDay timestamp from hkst]
      rfl
  | service => rfl

end RewardKind

/-- The days of the executed rewards of a kind, in order. -/
def rewardDates (kind : RewardKind) (blocks : List Block) : List ℕ :=
  blocks.flatMap fun b =>
    (b.systemEvents.filter fun e => rewardKind e.action = some kind).map
      fun _ => kind.date b.timestamp

/-- The identifier of a daily reward names the day of the block. -/
def NamesDay (b : Block) (e : ScheduledEvent) : Prop :=
  ∀ kind ∈ RewardKind.daily, rewardKind e.action = some kind →
    e.id = kind.title ++ decimal (kind.date b.timestamp)

/-- Distinct identifiers name distinct days. -/
theorem nodup_rewardDates {blocks : List Block} (hnames : ∀ b ∈ blocks, ∀ e ∈ b.systemEvents, NamesDay b e)
    (hnodup : ((executedIn blocks).map (·.id)).Nodup) {kind : RewardKind}
    (hkind : kind ∈ RewardKind.daily) : (rewardDates kind blocks).Nodup := by
  have hids : (rewardDates kind blocks).map (fun date => kind.title ++ decimal date) =
      ((executedIn blocks).filter fun e => rewardKind e.action = some kind).map (·.id) := by
    unfold rewardDates executedIn
    rw [List.filter_flatMap, List.map_flatMap, List.map_flatMap]
    refine List.flatMap_congr fun b hb => ?_
    rw [List.map_map]
    refine List.map_congr_left fun e he => ?_
    obtain ⟨hmem, hreward⟩ := List.mem_filter.1 he
    exact (hnames b hb e hmem kind hkind (of_decide_eq_true hreward)).symm
  have hsub : (((executedIn blocks).filter fun e => rewardKind e.action = some kind).map
      (·.id)).Nodup := hnodup.sublist (List.filter_sublist.map _)
  rw [← hids] at hsub
  exact hsub.of_map _

section
variable [Crypto]

theorem namesDay_of_passed {b : Block} (h : ConsensusRuntime.Passed b) {e : ScheduledEvent}
    (he : e ∈ b.systemEvents) : NamesDay b e := by
  obtain ⟨rt, now, hnow, hvalid⟩ := h
  obtain ⟨-, now', hsome, hdrift, -, -, -, hevents⟩ :=
    ConsensusRuntime.validateScheduledBlock_eq_ok.1 hvalid
  cases hsome
  have hmax : u64Max = 18446744073709551615 := rfl
  have hearly : b.timestamp + 9 * 60 * 60 < 2 ^ 64 := by
    simp only [saturatingAdd, maxClockDriftSeconds] at hdrift
    omega
  intro kind hkind hreward
  rw [(ConsensusRuntime.checkEvent_reward hreward (hevents e he)).1]
  exact RewardKind.rewardId_eq hkind hearly

/-- The chain remembers exactly the events of its blocks, no identifier comes twice, and daily
rewards name the day of their block. -/
structure Logged (c : Blockchain) : Prop where
  executed : ∀ id, id ∈ c.executedEvents ↔ id ∈ (executedIn c.blocks).map (·.id)
  nodup : ((executedIn c.blocks).map (·.id)).Nodup
  named : ∀ b ∈ c.blocks, ∀ e ∈ b.systemEvents, NamesDay b e

theorem logged_genesis {g : Blockchain} (hg : g.IsGenesis) : Logged g := by
  obtain ⟨timestamp, hblocks⟩ := hg.blocks
  have hnone : executedIn g.blocks = [] := by
    rw [hblocks]
    rfl
  refine ⟨fun id => ?_, ?_, fun b hb e he => ?_⟩
  · rw [hnone, hg.executedEvents]
    simp
  · rw [hnone]
    exact List.nodup_nil
  · have hmem : e ∈ executedIn g.blocks := List.mem_flatMap.2 ⟨b, hb, he⟩
    rw [hnone] at hmem
    cases hmem

theorem Logged.applyBlock {c c' : Blockchain} {b : Block} (h : Logged c)
    (hpassed : ConsensusRuntime.Passed b) (happly : c.applyBlock b = .ok c') : Logged c' := by
  obtain ⟨hnodup, hfresh, hmem⟩ := applyBlock_executed happly
  have hblocks : c'.blocks = c.blocks ++ [b] := by
    obtain ⟨-, -, -, l, -, rfl⟩ := Blockchain.applyBlock_eq_ok.1 happly
    rfl
  have hsplit : executedIn c'.blocks = executedIn c.blocks ++ b.systemEvents := by
    rw [hblocks]
    simp [executedIn]
  refine ⟨fun id => ?_, ?_, fun b' hb' e he => ?_⟩
  · rw [hmem, h.executed, hsplit, List.map_append, List.mem_append]
  · rw [hsplit, List.map_append]
    refine List.Nodup.append h.nodup hnodup ?_
    intro id hid hid'
    obtain ⟨e, he, rfl⟩ := List.mem_map.1 hid'
    exact (hfresh e he).2 ((h.executed _).2 hid)
  · rw [hblocks, List.mem_append, List.mem_singleton] at hb'
    rcases hb' with hb' | rfl
    · exact h.named b' hb' e he
    · exact namesDay_of_passed hpassed he

/-- In every run from genesis without a snapshot every event is executed once, and of every
daily reward there is at most one a day, in a block of that day. -/
theorem ConsensusRuntime.events_once_of_reached {validators : List Validator}
    {rt₀ rt : ConsensusRuntime} (hstart : Prepared validators rt₀) (hgenesis : rt₀.chain.IsGenesis)
    (hrun : Reached Ordinary rt₀ rt) :
    (∀ id, id ∈ rt.chain.executedEvents ↔ id ∈ (executedIn rt.chain.blocks).map (·.id)) ∧
      ((executedIn rt.chain.blocks).map (·.id)).Nodup ∧
      ∀ kind ∈ RewardKind.daily, (rewardDates kind rt.chain.blocks).Nodup ∧
        ∀ b ∈ rt.chain.blocks, ∀ e ∈ b.systemEvents, rewardKind e.action = some kind →
          e.id = kind.title ++ decimal (kind.date b.timestamp) := by
  have hlogged : Logged rt.chain := by
    have hchain := (extends_of_reached hstart hrun).chain
    generalize rt.chain = c at hchain ⊢
    induction hchain with
    | refl => exact logged_genesis hgenesis
    | tail _ hstep ih =>
        obtain ⟨b, hb, happly⟩ := hstep
        exact ih.applyBlock hb happly
  refine ⟨hlogged.executed, hlogged.nodup, fun kind hkind => ⟨?_, fun b hb e he hreward => ?_⟩⟩
  · exact nodup_rewardDates hlogged.named hlogged.nodup hkind
  · exact hlogged.named b hb e he kind hkind hreward

theorem ConsensusRuntime.perform_applySyncBatch {rt : ConsensusRuntime} {env : Env} {b : Block}
    {chain : Blockchain} (hvalid : rt.validateScheduledBlock env.unixNow b = .ok ())
    (happly : rt.chain.applyBlock b = .ok chain) :
    rt.perform env (.applySyncBatch [b]) = { rt with chain } := by
  obtain ⟨hheight, -⟩ := Blockchain.applyBlock_eq_ok.1 happly
  simp [perform, applySyncBatch, hheight, hvalid, happly]

end

namespace Quartet

open ConsensusRuntime

attribute [local instance] outflowCrypto

def clock : Env := { unixNow := some 10, instant := 0, sign := fun _ => .error "" }

/-- The reward of the first validators, synced on top of genesis. -/
theorem events_once_of_reached_reward : ∃ rt₀ rt, Prepared members rt₀ ∧
    rt₀.chain.IsGenesis ∧ Reached Ordinary rt₀ rt ∧
    (executedIn rt.chain.blocks).map (·.id) = [bootstrapRewardId] ∧
    ((executedIn rt.chain.blocks).map (·.id)).Nodup := by
  obtain ⟨rt₀, h⟩ := started_ok
  obtain ⟨hchain, -, -, -, -⟩ := started_spec h
  have hpos : 0 < 10 * ieumBaseUnit := by decide
  obtain ⟨c', happly⟩ := applyBlock_reward hpos (by omega)
  have hvalid := validateScheduledBlock_reward h hpos
  have hgenesis : rt₀.chain.IsGenesis := by
    rw [hchain]
    exact Blockchain.isGenesis_withChainId _ _
  have hordinary : Ordinary clock rt₀ (.applySyncBatch [rewardBlock (10 * ieumBaseUnit)]) := by
    refine ⟨?_, nofun⟩
    rintro now ⟨⟩
    decide
  have hrun : Reached Ordinary rt₀ { rt₀ with chain := c' } :=
    .single (.inl ⟨clock, _, hordinary, perform_applySyncBatch hvalid (by rw [hchain]; exact happly)⟩)
  have hblocks : c'.blocks = chain.blocks ++ [rewardBlock (10 * ieumBaseUnit)] := by
    obtain ⟨-, -, -, l, -, rfl⟩ := Blockchain.applyBlock_eq_ok.1 happly
    rfl
  refine ⟨rt₀, _, ⟨chain, _, _, _, rt₀, _, _, _, _, _, h, rfl⟩, hgenesis, hrun, ?_,
    (events_once_of_reached ⟨chain, _, _, _, rt₀, _, _, _, _, _, h, rfl⟩ hgenesis hrun).2.1⟩
  rw [hblocks]
  rfl

end Quartet

end IeumChain
