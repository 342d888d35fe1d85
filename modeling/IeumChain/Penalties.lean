import IeumChain.Agreement

/-!
# Executed events and penalties

Along a chain every event identifier is executed at most once. A penalty is identified
by its evidence as serialized, so an offence can be punished once for every way to
write its evidence down.
-/
namespace IeumChain

open ByteCodec Outcome FiniteMap Text MachineWords

/-! ## Identifiers along a block and along a run -/

theorem applyAction_executedEvents {l l' : Ledger} {id : String} {action : ScheduledEventAction}
    (h : applyAction l id action = .ok l') : l'.executedEvents = l.executedEvents := by
  cases action with
  | doubleVoteSlash evidence penaltyBps =>
      simp only [applyAction, bind_eq_ok, pure_eq_ok, Prod.exists] at h
      obtain ⟨staking, slashed, -, balances, -, rfl⟩ := h
      rfl
  | _ =>
      simp only [applyAction, bind_eq_ok, pure_eq_ok] at h
      obtain ⟨balances, -, rfl⟩ := h
      rfl

theorem applyTransactionAction_executedEvents {l l' : Ledger} {blockTimestamp : ℕ}
    {tx : Transaction} (h : applyTransactionAction l blockTimestamp tx = .ok l') :
    l'.executedEvents = l.executedEvents := by
  unfold applyTransactionAction at h
  split at h
  · simp only [bind_eq_ok, pure_eq_ok] at h
    obtain ⟨balances, -, rfl⟩ := h
    rfl
  · simp only [bind_eq_ok, pure_eq_ok] at h
    obtain ⟨staking, -, rfl⟩ := h
    rfl
  · simp only [bind_eq_ok, pure_eq_ok, Prod.exists] at h
    obtain ⟨staking, releaseAt, -, rfl⟩ := h
    rfl
  · simp only [bind_eq_ok, pure_eq_ok, Prod.exists] at h
    obtain ⟨staking, claimed, -, balances, -, rfl⟩ := h
    rfl

theorem runTransaction_executedEvents {producer : Address} {blockTimestamp : ℕ} {l l' : Ledger}
    {tx : Transaction} (h : runTransaction producer blockTimestamp l tx = .ok l') :
    l'.executedEvents = l.executedEvents := by
  simp only [runTransaction, check_bind_eq_ok] at h
  obtain ⟨-, -, -, -, -, h⟩ := h
  simp only [bind_eq_ok, pure_eq_ok] at h
  obtain ⟨total, -, -, -, acted, hacted, balances, -, rfl⟩ := h
  have haction := applyTransactionAction_executedEvents hacted
  exact haction

section
variable [Crypto]

theorem applyTransactions_executedEvents {chainId : ℕ} {transactions : List Transaction}
    {producer : Address} {l l' : Ledger} {blockTimestamp : ℕ}
    (h : applyTransactions chainId transactions producer l blockTimestamp = .ok l') :
    l'.executedEvents = l.executedEvents := by
  refine foldlM_invariant (P := fun x => x.executedEvents = l.executedEvents) ?_ rfl h
  intro x tx y _ hx hxy
  rw [applyTransaction, check_bind_eq_ok] at hxy
  rw [runTransaction_executedEvents hxy.2, hx]

/-- The events of a block have distinct identifiers that were not executed before. -/
theorem applySystemEvents_executed {events : List ScheduledEvent} {blockTimestamp : ℕ}
    {l l' : Ledger} (h : applySystemEvents events blockTimestamp l = .ok l') :
    (events.map (·.id)).Nodup ∧
      (∀ e ∈ events, e.validate = .ok () ∧ e.id ∉ l.executedEvents) ∧
      ∀ id, id ∈ l'.executedEvents ↔ id ∈ l.executedEvents ∨ id ∈ events.map (·.id) := by
  induction events generalizing l with
  | nil =>
      simp only [applySystemEvents, List.foldlM_nil, pure_eq_ok] at h
      subst h
      simp
  | cons e rest ih =>
      simp only [applySystemEvents, List.foldlM_cons, bind_eq_ok] at h
      obtain ⟨l₁, he, hrest⟩ := h
      simp only [applySystemEvent, check_bind_eq_ok, reject_eq_ok] at he
      obtain ⟨hvalid, -, hnew, haction⟩ := he
      have hexecuted := applyAction_executedEvents haction
      obtain ⟨hnodup, hfresh, hmem⟩ := ih hrest
      have hin : ∀ id, id ∈ l₁.executedEvents ↔ id = e.id ∨ id ∈ l.executedEvents := by
        intro id
        rw [hexecuted, Finset.mem_insert]
      refine ⟨?_, ?_, ?_⟩
      · rw [List.map_cons, List.nodup_cons]
        refine ⟨fun hid => ?_, hnodup⟩
        obtain ⟨e', he', hid'⟩ := List.mem_map.1 hid
        exact (hfresh e' he').2 ((hin _).2 (.inl hid'))
      · intro e' he'
        rcases List.mem_cons.1 he' with rfl | he'
        · exact ⟨hvalid, hnew⟩
        · exact ⟨(hfresh e' he').1, fun hid => (hfresh e' he').2 ((hin _).2 (.inr hid))⟩
      · intro id
        rw [hmem, hin, List.map_cons, List.mem_cons]
        tauto

theorem applyBlock_executed {c c' : Blockchain} {b : Block} (h : c.applyBlock b = .ok c') :
    (b.systemEvents.map (·.id)).Nodup ∧
      (∀ e ∈ b.systemEvents, e.validate = .ok () ∧ e.id ∉ c.executedEvents) ∧
      ∀ id, id ∈ c'.executedEvents ↔ id ∈ c.executedEvents ∨ id ∈ b.systemEvents.map (·.id) := by
  obtain ⟨-, -, -, l, hl, rfl⟩ := Blockchain.applyBlock_eq_ok.1 h
  obtain ⟨l₁, htransactions, hevents, -⟩ := Blockchain.execute_eq_ok.1 hl
  have h₁ := applyTransactions_executedEvents htransactions
  have h₂ := applySystemEvents_executed hevents
  rw [h₁] at h₂
  exact h₂

/-- Blocks that nodes on the growing chain check and then apply. Clock, validators, schedule and
policies may be different for every block. -/
inductive BlockRun : Blockchain → List Block → Blockchain → Prop
  | nil (c : Blockchain) : BlockRun c [] c
  | snoc {c c' c'' : Blockchain} {blocks : List Block} {rt : ConsensusRuntime}
      {unixNow : Option ℕ} {b : Block} (h : BlockRun c blocks c') (hchain : rt.chain = c')
      (hvalid : rt.validateScheduledBlock unixNow b = .ok ())
      (happly : c'.applyBlock b = .ok c'') : BlockRun c (blocks ++ [b]) c''

/-- The events of a list of blocks, in order. -/
def executedIn (blocks : List Block) : List ScheduledEvent := blocks.flatMap (·.systemEvents)

theorem BlockRun.executed {c c' : Blockchain} {blocks : List Block} (h : BlockRun c blocks c') :
    ((executedIn blocks).map (·.id)).Nodup ∧ (∀ e ∈ executedIn blocks, e.validate = .ok ()) ∧
      ∀ id, id ∈ c'.executedEvents ↔ id ∈ c.executedEvents ∨ id ∈ (executedIn blocks).map (·.id) := by
  induction h with
  | nil => simp [executedIn]
  | @snoc c' c'' blocks rt unixNow b h _ _ happly ih =>
      obtain ⟨hnodup, hvalid, hmem⟩ := ih
      obtain ⟨hnodup', hvalid', hmem'⟩ := applyBlock_executed happly
      have hsplit : executedIn (blocks ++ [b]) = executedIn blocks ++ b.systemEvents := by
        simp [executedIn]
      rw [hsplit, List.map_append]
      refine ⟨?_, ?_, ?_⟩
      · refine List.Nodup.append hnodup hnodup' ?_
        intro id hid hid'
        obtain ⟨e, he, rfl⟩ := List.mem_map.1 hid'
        exact (hvalid' e he).2 ((hmem _).2 (.inr hid))
      · intro e he
        rcases List.mem_append.1 he with he | he
        · exact hvalid e he
        · exact (hvalid' e he).1
      · intro id
        rw [hmem', hmem, List.mem_append]
        tauto

/-! ## Penalties -/

/-- Who is punished, and for which vote. -/
def DoubleVoteEvidence.offence (e : DoubleVoteEvidence) : String × ℕ × ℕ × VoteType :=
  (e.first.validatorId, e.first.height, e.first.round, e.first.voteType)

def slashEvidence (e : ScheduledEvent) : Option DoubleVoteEvidence :=
  match e.action with
  | .doubleVoteSlash evidence _ => some evidence
  | _ => none

/-- The evidence of the penalties executed in a list of blocks, in order. -/
def slashes (blocks : List Block) : List DoubleVoteEvidence :=
  (executedIn blocks).filterMap slashEvidence

/-- No offence is punished twice. -/
def OnePenaltyPerOffence (blocks : List Block) : Prop :=
  (slashes blocks).Pairwise fun a b => a.offence ≠ b.offence

/-- The proposers submit each offence with one and the same evidence. -/
def OneEvidencePerOffence (blocks : List Block) : Prop :=
  (slashes blocks).Pairwise fun a b => a.offence = b.offence → a = b

theorem id_of_slashEvidence {e : ScheduledEvent} {evidence : DoubleVoteEvidence}
    (hvalid : e.validate = .ok ()) (h : slashEvidence e = some evidence) :
    e.id = slashEventId evidence := by
  unfold slashEvidence at h
  split at h
  · rename_i evidence' penaltyBps haction
    cases h
    simp only [ScheduledEvent.validate, haction, validateAction, check_bind_eq_ok, reject_eq_ok,
      not_not] at hvalid
    exact hvalid.2.2.2.2
  · cases h

theorem BlockRun.slashes_distinct {c c' : Blockchain} {blocks : List Block}
    (h : BlockRun c blocks c') :
    (slashes blocks).Pairwise fun a b => slashEventId a ≠ slashEventId b := by
  obtain ⟨hnodup, hvalid, -⟩ := h.executed
  rw [slashes, List.pairwise_filterMap]
  have hids : (executedIn blocks).Pairwise fun a b => a.id ≠ b.id := List.pairwise_map.1 hnodup
  refine hids.imp_of_mem fun ha hb hne x hx y hy => ?_
  rw [← id_of_slashEvidence (hvalid _ ha) hx, ← id_of_slashEvidence (hvalid _ hb) hy]
  exact hne

/-- In every run of accepted blocks, no offence is punished twice exactly if no offence is
submitted with two different pieces of evidence. -/
theorem onePenaltyPerOffence_iff {c c' : Blockchain} {blocks : List Block}
    (h : BlockRun c blocks c') : OnePenaltyPerOffence blocks ↔ OneEvidencePerOffence blocks := by
  constructor
  · intro hone
    exact hone.imp fun hne heq => absurd heq hne
  · intro hsame
    refine (hsame.and h.slashes_distinct).imp ?_
    rintro a b ⟨himp, hid⟩ hoffence
    exact hid (congrArg slashEventId (himp hoffence))

end

/-! One double vote, submitted with its two votes in either order. -/

namespace Lone

local instance penaltyCrypto : Crypto := StandIn.crypto StandIn.digest

def ballot (blockHash : String) : ConsensusMessage :=
  { height := 1, round := 0, validatorId := self, voteType := .prevote, blockHash
    signature := StandIn.sign 1 (ConsensusMessage.bytesToSign 1 0 self .prevote blockHash) }

def doubleVote : DoubleVoteEvidence := ⟨ballot "a", ballot "b"⟩

def doubleVoteReversed : DoubleVoteEvidence := ⟨ballot "b", ballot "a"⟩

def penalty (evidence : DoubleVoteEvidence) : ScheduledEvent :=
  { id := slashEventId evidence, executeAt := 1
    action := .doubleVoteSlash evidence Staking.doubleVoteSlashBps }

def penaltyBlock (events : List DoubleVoteEvidence) : Block :=
  (Block.new 1 chain.tipHash 5 self []).withSystemEvents (events.map penalty)

/-- The node with staking switched on. -/
def stakingNode (rt : ConsensusRuntime) : ConsensusRuntime :=
  { rt with upgradeSchedule := { upgrades := [⟨"v3", 0, 3⟩] } }

theorem verify_ballots {a b : String} (h : a ≠ b) :
    DoubleVoteEvidence.verify ⟨ballot a, ballot b⟩ = .ok () := by
  have hballot : ∀ x, (ballot x).verify = .ok () := fun x => StandIn.verifySignature_sign _ 1 _
  simp only [DoubleVoteEvidence.verify, check_bind_eq_ok, hballot, reject_eq_ok]
  simp [ballot, h]

theorem validate_penalty {evidence : DoubleVoteEvidence} (h : evidence.verify = .ok ()) :
    (penalty evidence).validate = .ok () := by
  have hsize : (penalty evidence).id.utf8ByteSize = 78 := by
    have hdigest : ∀ bytes, (Crypto.sha256 bytes).length = 32 := StandIn.length_digest
    rw [penalty, slashEventId, String.utf8ByteSize_append, sha256Hex, utf8ByteSize_hexEncode,
      hdigest]
    rfl
  have hchars : allChars isEventIdChar (penalty evidence).id = true := by
    rw [penalty, slashEventId, allChars_append, sha256Hex, allChars_hexEncode (by decide),
      Bool.and_true]
    decide
  have hne : (penalty evidence).id ≠ "" := by
    intro hempty
    rw [hempty] at hsize
    exact absurd hsize (by decide)
  simp only [ScheduledEvent.validate, check_bind_eq_ok, reject_eq_ok, hsize, hchars, hne]
  refine ⟨by simp, by simp [penalty], ?_⟩
  simp only [penalty, validateAction, check_bind_eq_ok, reject_eq_ok]
  exact ⟨h, by simp, by simp⟩

theorem validateScheduledBlock_penalties {rt : ConsensusRuntime} (hrt : started chain = .ok rt)
    {evidences : List DoubleVoteEvidence}
    (h : ∀ evidence ∈ evidences, evidence.verify = .ok () ∧ evidence.first.validatorId = self) :
    (stakingNode rt).validateScheduledBlock (some 10) (penaltyBlock evidences) = .ok () := by
  obtain ⟨hchain, hvalidators, hschedule, -⟩ := started_spec hrt
  refine ConsensusRuntime.validateScheduledBlock_eq_ok.2 ⟨?_, 10, rfl, ?_, ?_, ?_, ?_, ?_⟩
  · have htip : (stakingNode rt).chain.tip.timestamp = 0 := by
      rw [stakingNode, hchain]
      rfl
    rw [htip]
    exact Nat.zero_le _
  · have hdrift : 5 ≤ saturatingAdd u64Max 10 maxClockDriftSeconds := by decide
    exact hdrift
  · have hversion : UpgradeSchedule.versionAt { upgrades := [⟨"v3", 0, 3⟩] } 1 = 3 := by decide
    rintro ⟨hlow, -⟩
    exact absurd hlow (hversion ▸ lt_irrefl 3)
  · intro tx htx
    cases htx
  · have hnone : (penaltyBlock evidences).systemEvents.filter (fun e => isConfigured e.action) = [] := by
      simp [penaltyBlock, Block.withSystemEvents, Block.sealed, penalty, isConfigured,
        List.filter_eq_nil_iff]
    rw [hnone, EventSchedule.due, stakingNode, hschedule]
    rfl
  · intro e he
    obtain ⟨evidence, hmem, rfl⟩ := List.mem_map.1 he
    obtain ⟨hverify, hself⟩ := h evidence hmem
    have hvalidator : (stakingNode rt).isValidator evidence.first.validatorId = true := by
      rw [ConsensusRuntime.isValidator, stakingNode, hvalidators, hself]
      simp
    have hexecuted : (stakingNode rt).chain.executedEvents = ∅ := by
      rw [stakingNode, hchain]
      rfl
    have hnot : isConfigured (penalty evidence).action = false := rfl
    rw [ConsensusRuntime.checkEvent, if_neg (by rw [hnot]; exact Bool.false_ne_true), hexecuted]
    simp only [check_bind_eq_ok, validate_penalty hverify, reject_eq_ok]
    refine ⟨?_, by simp⟩
    simp only [ConsensusRuntime.checkBuiltInEvent, penalty, check_bind_eq_ok, reject_eq_ok]
    exact ⟨by simp, by simp [hvalidator], hverify⟩

/-- A penalty without any stake only leaves its traces. -/
theorem applySystemEvent_penalty {evidence : DoubleVoteEvidence} (h : evidence.verify = .ok ())
    {l : Ledger} (hdelegations : l.staking.delegations = []) (hunbonding : l.staking.unbonding = [])
    (hexecuted : slashEventId evidence ∉ l.executedEvents)
    (hslashes : slashEventId evidence ∉ l.staking.appliedSlashes) :
    applySystemEvent 5 l (penalty evidence) = .ok
      { l with
        executedEvents := insert (slashEventId evidence) l.executedEvents
        staking := { l.staking with
          appliedSlashes :=
            (l.staking.appliedSlashes ++ [slashEventId evidence]).insertionSort (· ≤ ·) } } := by
  have hslash : l.staking.slash (slashEventId evidence) evidence.first.validatorId
      Staking.doubleVoteSlashBps = .ok ({ l.staking with
        appliedSlashes :=
          (l.staking.appliedSlashes ++ [slashEventId evidence]).insertionSort (· ≤ ·) }, 0) := by
    simp only [StakingState.slash, check_bind_eq_ok, hdelegations, hunbonding, reject_eq_ok]
    exact ⟨by decide, hslashes, rfl⟩
  simp only [applySystemEvent, check_bind_eq_ok, validate_penalty h, reject_eq_ok]
  refine ⟨trivial, by simp [penalty], hexecuted, ?_⟩
  simp only [penalty, applyAction, bind_eq_ok]
  exact ⟨_, hslash, l.balances, rfl, rfl⟩

theorem slashEventId_ne : slashEventId doubleVote ≠ slashEventId doubleVoteReversed := by
  have hself : self.toList = hexChars (StandIn.key 1) := String.toList_ofList
  have hsign : ∀ message, (StandIn.sign 1 message).toList =
      hexChars (StandIn.key 1 ++ StandIn.digest message) := fun _ => String.toList_ofList
  have hutf8 : utf8 self = (hexChars (StandIn.key 1)).flatMap String.utf8EncodeChar :=
    utf8_ofList _
  have hdigest : StandIn.digest (utf8 (String.ofList doubleVote.json)) ≠
      StandIn.digest (utf8 (String.ofList doubleVoteReversed.json)) := by
    rw [utf8_ofList, utf8_ofList]
    simp only [DoubleVoteEvidence.json, ConsensusMessage.json, doubleVote, doubleVoteReversed,
      ballot, jsonObject, jsonString, hself, hsign, ConsensusMessage.bytesToSign, pushText, hutf8,
      List.map_cons, List.map_nil]
    decide +kernel
  intro h
  exact hdigest (hexEncode_injective ((String.append_right_inj _).1 h))

/-- The ledger after the first penalty. -/
def punished : Ledger :=
  { chain.toLedger with
    executedEvents := insert (slashEventId doubleVote) chain.executedEvents
    staking := { chain.staking with
      appliedSlashes :=
        (chain.staking.appliedSlashes ++ [slashEventId doubleVote]).insertionSort (· ≤ ·) } }

theorem verify_doubleVote : doubleVote.verify = .ok () := verify_ballots (by decide)

theorem verify_doubleVoteReversed : doubleVoteReversed.verify = .ok () := verify_ballots (by decide)

theorem applySystemEvent_doubleVote :
    applySystemEvent 5 chain.toLedger (penalty doubleVote) = .ok punished :=
  applySystemEvent_penalty verify_doubleVote rfl rfl (Finset.notMem_empty _) List.not_mem_nil

theorem applySystemEvent_reversed :
    ∃ l, applySystemEvent 5 punished (penalty doubleVoteReversed) = .ok l ∧
      validateSupplyCap l = .ok () := by
  have hexecuted : chain.executedEvents = ∅ := rfl
  have hslashes : chain.staking.appliedSlashes = [] := rfl
  refine ⟨_, applySystemEvent_penalty verify_doubleVoteReversed rfl rfl ?_ ?_, rfl⟩
  · simpa [punished, hexecuted] using slashEventId_ne.symm
  · simpa [punished, hslashes] using slashEventId_ne.symm

/-- Executable penalties make a run. -/
theorem blockRun_penalties {evidences : List DoubleVoteEvidence}
    (h : ∀ evidence ∈ evidences, evidence.verify = .ok () ∧ evidence.first.validatorId = self)
    {l : Ledger} (hevents : applySystemEvents (evidences.map penalty) 5 chain.toLedger = .ok l)
    (hcap : validateSupplyCap l = .ok ()) : ∃ c', BlockRun chain [penaltyBlock evidences] c' := by
  obtain ⟨rt, hrt⟩ : ∃ rt, started chain = .ok rt := ⟨_, eq_ok_get started_ok⟩
  have hexecute : chain.execute (penaltyBlock evidences) = .ok l :=
    Blockchain.execute_eq_ok.2 ⟨chain.toLedger, rfl, hevents, hcap⟩
  have hchain : (stakingNode rt).chain = chain := (started_spec hrt).1
  have happly : chain.applyBlock (penaltyBlock evidences) = .ok _ := Blockchain.applyBlock_eq_ok.2
    ⟨rfl, rfl, Block.withSystemEvents_hash _ _, l, hexecute, rfl⟩
  exact ⟨_, .snoc (.nil chain) hchain (validateScheduledBlock_penalties hrt h) happly⟩

/-- One block with two penalties for one double vote. -/
theorem two_penalties :
    ∃ c', BlockRun chain [penaltyBlock [doubleVote, doubleVoteReversed]] c' ∧
      ¬OnePenaltyPerOffence [penaltyBlock [doubleVote, doubleVoteReversed]] := by
  obtain ⟨l, hreversed, hcap⟩ := applySystemEvent_reversed
  have hevents : applySystemEvents ([doubleVote, doubleVoteReversed].map penalty) 5
      chain.toLedger = .ok l := by
    rw [applySystemEvents, List.map_cons, List.foldlM_cons, applySystemEvent_doubleVote, bind_eq_ok]
    refine ⟨punished, rfl, ?_⟩
    rw [List.map_cons, List.foldlM_cons, hreversed, bind_eq_ok]
    exact ⟨l, rfl, rfl⟩
  obtain ⟨c', hrun⟩ := blockRun_penalties (by
    intro evidence hmem
    simp only [List.mem_cons, List.not_mem_nil, or_false] at hmem
    rcases hmem with rfl | rfl
    · exact ⟨verify_doubleVote, rfl⟩
    · exact ⟨verify_doubleVoteReversed, rfl⟩) hevents hcap
  refine ⟨c', hrun, fun hone => ?_⟩
  have hslashes : slashes [penaltyBlock [doubleVote, doubleVoteReversed]] =
      [doubleVote, doubleVoteReversed] := rfl
  rw [OnePenaltyPerOffence, hslashes, List.pairwise_pair] at hone
  exact hone rfl

/-- With a single piece of evidence there is a single penalty. -/
theorem onePenaltyPerOffence_doubleVote :
    ∃ c', BlockRun chain [penaltyBlock [doubleVote]] c' ∧
      OnePenaltyPerOffence [penaltyBlock [doubleVote]] := by
  have hevents : applySystemEvents ([doubleVote].map penalty) 5 chain.toLedger = .ok punished := by
    rw [applySystemEvents, List.map_cons, List.foldlM_cons, applySystemEvent_doubleVote, bind_eq_ok]
    exact ⟨punished, rfl, rfl⟩
  obtain ⟨c', hrun⟩ := blockRun_penalties (by
    intro evidence hmem
    rw [List.mem_singleton.1 hmem]
    exact ⟨verify_doubleVote, rfl⟩) hevents rfl
  exact ⟨c', hrun, (onePenaltyPerOffence_iff hrun).2 (List.pairwise_singleton _ _)⟩

end Lone

end IeumChain
