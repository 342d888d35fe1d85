import IeumChain.StandIn
import IeumChain.StoredVotes

/-!
# Agreement

All validators together. Honest validators run the node; everything else is the
network, which delivers what it likes except forged votes of honest validators. Two
honest validators never finalize different blocks at one height.
-/
namespace IeumChain

open ByteCodec Outcome MachineWords FiniteMap LockedVoting

/-- The nodes of the validators, by identifier. -/
abbrev World := String → ConsensusRuntime

namespace World

def log (w : World) : String → Vote String → Prop := fun id => (w id).Cast

def voters (w : World) : String → Voter String := fun id => (w id).voter

theorem log_update (w : World) (id : String) (rt : ConsensusRuntime) :
    log (Function.update w id rt) = Function.update w.log id rt.Cast := by
  funext p
  by_cases hp : p = id
  · subst hp
    simp [log]
  · simp [log, hp]

theorem voters_update (w : World) (id : String) (rt : ConsensusRuntime) :
    voters (Function.update w id rt) = Function.update w.voters id rt.voter := by
  funext p
  by_cases hp : p = id
  · subst hp
    simp [voters]
  · simp [voters, hp]

theorem log_mono_update {w : World} {id : String} {rt : ConsensusRuntime}
    (h : ∀ v, (w id).Cast v → rt.Cast v) (p : String) (v : Vote String) (hv : w.log p v) :
    log (Function.update w id rt) p v := by
  rw [log_update]
  by_cases hp : p = id
  · subst hp
    rw [Function.update_self]
    exact h v hv
  · rwa [Function.update_of_ne hp]

section
variable [Crypto] (S : ValidatorSet)

/-- Signatures cannot be forged: the bytes of a verified vote of an honest validator are among
those its signer was asked for. -/
def Authentic (w : World) (m : ConsensusMessage) : Prop :=
  m.InRange ∧ (m.verify = .ok () → S.Honest m.validatorId →
    ∃ payload ∈ (w m.validatorId).signed, payload.bytes m.validatorId = m.unsignedBytes)

/-- What the network may hand to a node. Messages may be lost, repeated, reordered, and made
up, except for votes of honest validators. -/
def Deliverable (w : World) : ConsensusRuntime.Call → Prop
  | .receiveProposal p =>
      p.height < 2 ^ 64 ∧ p.round < 2 ^ 32 ∧ ∀ v ∈ p.validRoundPrevotes, Authentic S w v
  | .receiveVote vote => Authentic S w vote
  | .deferVote vote => Authentic S w vote
  | .applySyncCertificates certificates => ∀ c ∈ certificates, ∀ v ∈ c.precommits, Authentic S w v
  | _ => True

/-- One honest node executes one call, with any clock and any behaviour of its signer. -/
inductive Step : World → World → Prop
  | call (w : World) (id : String) (hid : S.Honest id) (env : Env) (call : ConsensusRuntime.Call)
      (hcall : Deliverable S w call) :
      Step w (Function.update w id ((w id).run env call).1)

/-- Any interleaving of calls. -/
inductive Run : World → World → Prop
  | refl (w : World) : Run w w
  | tail {w w' w'' : World} (h : Run w w') (hstep : Step S w' w'') : Run w w''

/-- Every honest node starts on a chain of its own choice, with the common validator set. -/
def Initial (w : World) : Prop :=
  ∀ id, S.Honest id → ∃ chain timeouts instant,
    ConsensusRuntime.withSigner chain S.validators id timeouts instant = .ok (w id)

/-- Honest nodes are coherent, hold only backed votes, and vote as the locks demand. The votes
in `base`, those of an earlier moment, are still in the log. -/
structure Sound (base : String → Vote String → Prop) (w : World) : Prop where
  safe : S.committee.Safe w.log w.voters
  coherent : ∀ id, S.Honest id → (w id).Coherent
  backed : ∀ id, S.Honest id → Backed S w.log id (w id)
  kept : ∀ id v, base id v → w.log id v

variable {S} {base : String → Vote String → Prop} {w w' : World}

/-- Moves of one honest node that leave it coherent and backed keep the whole sound. -/
theorem Sound.update (h : Sound S base w) {id : String} {rt : ConsensusRuntime}
    (hmoves : (w id).Moves (S.committee.Polka w.log) rt) (hcoherent : rt.Coherent)
    (hbacked : Backed S w.log id rt) : Sound S base (Function.update w id rt) := by
  have hmono := log_mono_update fun v => hmoves.log_mono v
  refine ⟨?_, fun p hp => ?_, fun p hp => ?_, fun p v hv => hmono p v (h.kept p v hv)⟩
  · rw [log_update, voters_update]
    exact h.safe.steps hmoves
  · by_cases hpid : p = id
    · subst hpid
      rw [Function.update_self]
      exact hcoherent
    · rw [Function.update_of_ne hpid]
      exact h.coherent p hp
  · by_cases hpid : p = id
    · subst hpid
      rw [Function.update_self]
      exact hbacked.mono hmono
    · rw [Function.update_of_ne hpid]
      exact (h.backed p hp).mono hmono

theorem Sound.pastVotes (h : Sound S base w) {id : String} (hid : S.Honest id) :
    (w id).PastVotes := by
  intro v hv
  rcases (h.safe id hid).past v hv with hlt | ⟨heq, -⟩
  · exact hlt.le
  · exact heq.le

/-- Unforgeable signatures make every delivered vote genuine. -/
theorem Sound.genuine (h : Sound S base w) {m : ConsensusMessage} (hm : Authentic S w m) :
    Genuine S w.log m := by
  refine ⟨hm.1, fun hverify hhonest => ?_⟩
  obtain ⟨payload, hsigned, hbytes⟩ := hm.2 hverify hhonest
  obtain ⟨height, round, voteType, x, rfl⟩ := exists_vote_of_bytes hbytes
  obtain ⟨hheight, hround⟩ := (h.backed _ hhonest).range _ _ _ _ hsigned
  obtain ⟨rfl, rfl, rfl, rfl⟩ := content_eq_of_bytesToSign hm.1 hheight hround hbytes
  exact ⟨_, rfl, hsigned⟩

theorem Sound.receiveVote (h : Sound S base w) {id : String} (hid : S.Honest id) (env : Env)
    {vote : ConsensusMessage} (hvote : Genuine S w.log vote) :
    Sound S base (Function.update w id ((w id).receiveVote env vote).1) := by
  have hbacked := h.backed id hid
  obtain ⟨hcoherent, hmoves⟩ := ConsensusRuntime.moves_receiveVote env (h.coherent id hid)
    fun c₁ hcore hcheck hquorum _ => polka_of_hasQuorum hbacked hvote hcore hcheck hquorum
  exact h.update hmoves hcoherent (hbacked.receiveVote (h.coherent id hid) env hvote)

theorem Sound.receiveProposal (h : Sound S base w) {id : String} (hid : S.Honest id) (env : Env)
    {p : SignedProposal} (hheight : p.height < 2 ^ 64) (hround : p.round < 2 ^ 32)
    (hvotes : ∀ v ∈ p.validRoundPrevotes, Genuine S w.log v) :
    Sound S base (Function.update w id ((w id).receiveProposal env p).1) := by
  have hbacked := h.backed id hid
  have hpolka : ∀ validRound, p.height = (w id).consensus.height →
      (w id).consensus.verifyValidRoundCertificate p validRound = .ok () →
      S.committee.Polka w.log (w id).consensus.height validRound p.block.hash := by
    intro validRound hplace hproof
    rw [← hplace]
    exact supported_of_attested (hbacked.counts.attested_validRound hproof) hvotes
  obtain ⟨hcoherent, hmoves⟩ :=
    ConsensusRuntime.moves_receiveProposal env (h.coherent id hid) hpolka
  exact h.update hmoves hcoherent (hbacked.receiveProposal env hheight hround)

/-- A call that keeps the core of the machine and stores only genuine votes. -/
theorem Sound.sameCore (h : Sound S base w) {id : String} (hid : S.Honest id) {rt : ConsensusRuntime}
    (new : List ConsensusMessage) (hframe : (w id).Frame new rt)
    (hnew : ∀ v ∈ new, Genuine S w.log v) (hcore : (w id).consensus.SameCore rt.consensus)
    (hpending : rt.pending = (w id).pending) : Sound S base (Function.update w id rt) := by
  have hmoves : rt.Coherent ∧ (w id).Moves (S.committee.Polka w.log) rt :=
    ConsensusRuntime.moves_sameCore (h.coherent id hid) hcore (fun b hb => hpending ▸ hb)
      hframe.chain hframe.signed
  exact h.update hmoves.2 hmoves.1 ((h.backed id hid).sameCore hframe hnew hcore)

theorem Sound.openNextHeight (h : Sound S base w) {id : String} (hid : S.Honest id) (env : Env)
    (hclosed : (w id).consensus.phase = .finalized ∨
      (w id).consensus.height ≤ (w id).chain.tipHeight) :
    Sound S base (Function.update w id ((w id).openNextHeight env).1) := by
  obtain ⟨hcoherent, hmoves⟩ := ConsensusRuntime.moves_openNextHeight (h.coherent id hid)
    (h.pastVotes hid) env hclosed
  exact h.update hmoves hcoherent ((h.backed id hid).openNextHeight env)

theorem Sound.makeProposal (h : Sound S base w) {id : String} (hid : S.Honest id) (env : Env)
    (block : Block) : Sound S base (Function.update w id ((w id).makeProposal env block).1) := by
  obtain ⟨hcoherent, hmoves⟩ := ConsensusRuntime.moves_makeProposal env (h.coherent id hid) block
  refine h.update hmoves hcoherent ?_
  rcases (w id).makeProposal_cases env block with hcase | ⟨_, _, _, _, _, hcase⟩
  · rw [hcase]
    exact h.backed id hid
  · rw [hcase]
    exact (h.backed id hid).record (by simp)

theorem Sound.receiveRoundChange (h : Sound S base w) {id : String} (hid : S.Honest id) (env : Env)
    (m : SignedRoundChange) :
    Sound S base (Function.update w id ((w id).receiveRoundChange env m).1) := by
  obtain ⟨hcoherent, hmoves⟩ := ConsensusRuntime.moves_receiveRoundChange env (h.coherent id hid) m
  refine h.update hmoves hcoherent ?_
  obtain ⟨hframe, ⟨hcore, -, -⟩ | hjump⟩ := (w id).receiveRoundChange_cases env m
  · exact (h.backed id hid).sameCore hframe (List.forall_mem_nil _) hcore
  · exact (h.backed id hid).jumped hframe (List.forall_mem_nil _) hjump

theorem Sound.timeout (h : Sound S base w) {id : String} (hid : S.Honest id) (env : Env) (now : ℕ) :
    Sound S base (Function.update w id ((w id).timeoutIfDueWithRoundChange env now).1) := by
  obtain ⟨hcoherent, hmoves⟩ := ConsensusRuntime.moves_timeout env (h.coherent id hid) now
  refine h.update hmoves hcoherent ?_
  obtain ⟨rt₁, hrt₁, hframe, hcases⟩ := (w id).timeoutIfDueWithRoundChange_cases env now
  have hbacked : Backed S w.log id rt₁ := by
    rcases hrt₁ with rfl | rfl
    · exact h.backed id hid
    · exact (h.backed id hid).record (by simp)
  rcases hcases with ⟨hcore, -, -⟩ | hjump
  · exact hbacked.sameCore hframe (List.forall_mem_nil _) hcore
  · exact hbacked.jumped hframe (List.forall_mem_nil _) hjump

theorem Sound.applySyncCertificates (h : Sound S base w) {id : String} (hid : S.Honest id) (env : Env)
    {certificates : List FinalityCertificate}
    (hvotes : ∀ c ∈ certificates, ∀ v ∈ c.precommits, Genuine S w.log v) :
    Sound S base (Function.update w id ((w id).applySyncCertificates env certificates).1) := by
  obtain ⟨hcoherent, hmoves⟩ := ConsensusRuntime.moves_applySyncCertificates env
    (h.coherent id hid) (h.pastVotes hid) certificates
  exact h.update hmoves hcoherent ((h.backed id hid).applySyncCertificates env hvotes)

theorem Sound.advanceAfterFinalization (h : Sound S base w) {id : String} (hid : S.Honest id)
    (env : Env) : Sound S base (Function.update w id ((w id).advanceAfterFinalization env).1) := by
  rcases (w id).advanceAfterFinalization_cases env with hcase | ⟨hphase, hcase⟩
  · rw [hcase, Function.update_eq_self]
    exact h
  · rw [hcase]
    exact h.openNextHeight hid env (.inl hphase)

/-- The deferred votes are genuine, and so is every precommit the node feeds back to itself. -/
theorem Sound.replayRule {id : String} (hid : S.Honest id) (env : Env) :
    ConsensusRuntime.ReplayRule env (fun rt => Sound S base (Function.update w id rt))
      (fun rt v => Genuine S (log (Function.update w id rt)) v) fun _ _ => True := by
  have hself : ∀ rt, (Function.update w id rt) id = rt := fun rt => Function.update_self ..
  have hreceive : ∀ rt v, Sound S base (Function.update w id rt) →
      Genuine S (log (Function.update w id rt)) v →
      Sound S base (Function.update w id (rt.receiveVote env v).1) := by
    intro rt v hrt hv
    have hnext := hrt.receiveVote hid env hv
    rwa [Function.update_idem, hself] at hnext
  have hgrow : ∀ rt v, Sound S base (Function.update w id rt) →
      ∀ p u, log (Function.update w id rt) p u →
        log (Function.update w id (rt.receiveVote env v).1) p u := by
    intro rt v hrt p u hu
    have hcoherent := hrt.coherent id hid
    rw [hself] at hcoherent
    have hmoves : rt.Moves (fun _ _ _ => True) (rt.receiveVote env v).1 :=
      (ConsensusRuntime.moves_receiveVote env hcoherent fun _ _ _ _ _ => trivial).2
    have hcast : ∀ v', ((Function.update w id rt) id).Cast v' → (rt.receiveVote env v).1.Cast v' := by
      rw [hself]
      exact hmoves.log_mono
    have hnext := log_mono_update hcast p u hu
    rwa [Function.update_idem] at hnext
  refine ⟨hreceive, fun rt v u hrt hv hu => hu.mono (hgrow rt v hrt), fun _ _ _ _ _ h => h, ?_, ?_,
    ?_, ?_, fun _ _ _ h => h⟩
  · intro rt v m hrt hv hreply
    refine ⟨?_, trivial⟩
    obtain ⟨hcheck, b, hpending, hvalidator, hheight, hround, -, -, hsigned⟩ :=
      ConsensusRuntime.receiveVote_reply hreply
    obtain ⟨hvheight, hvround, -⟩ := BftConsensus.checkVote_eq_ok hcheck
    have hcoherent := hrt.coherent id hid
    have hbacked := hrt.backed id hid
    rw [hself] at hcoherent hbacked
    refine ⟨⟨?_, ?_⟩, fun _ _ => ?_⟩
    · rw [hheight, (hcoherent.pendingMatches b hpending).2, ← hvheight]
      exact hv.1.1
    · rw [hround, ← hvround]
      exact hv.1.2
    · rw [hvalidator, hbacked.validator, log_update, Function.update_self]
      exact ⟨_, rfl, hsigned⟩
  · intro rt hrt v hv
    have hbacked := hrt.backed id hid
    rw [hself] at hbacked
    exact hbacked.deferred v hv
  · intro rt votes hrt hvotes
    have hframe : ConsensusRuntime.Frame votes ((Function.update w id rt) id)
        { rt with deferredVotes := votes } := by
      rw [hself]
      exact ⟨rfl, rfl, rfl, rfl, rfl, fun _ => .inr, fun _ => .inl⟩
    have hstored := hrt.sameCore hid votes hframe hvotes (by rw [hself]; exact .refl _) (by rw [hself])
    rwa [Function.update_idem] at hstored
  · intro rt votes u hu
    have hcast : ({ rt with deferredVotes := votes } : ConsensusRuntime).Cast = rt.Cast := rfl
    rw [log_update] at hu ⊢
    rwa [hcast]

theorem Sound.replayDeferredVotes (h : Sound S base w) {id : String} (hid : S.Honest id) (env : Env) :
    Sound S base (Function.update w id ((w id).replayDeferredVotes env).1) := by
  refine ((Sound.replayRule hid env).replay ?_).1
  rw [Function.update_eq_self]
  exact h

/-- Every step keeps the invariant. -/
theorem Sound.step (h : Sound S base w) (hstep : Step S w w') : Sound S base w' := by
  cases hstep with
  | call id hid env call hcall =>
      cases call with
      | makeProposal block => exact h.makeProposal hid env block
      | receiveProposal p =>
          obtain ⟨hheight, hround, hvotes⟩ := hcall
          exact h.receiveProposal hid env hheight hround fun v hv => h.genuine (hvotes v hv)
      | receiveVote vote => exact h.receiveVote hid env (h.genuine hcall)
      | deferVote vote =>
          obtain ⟨hframe, hstayed⟩ := (w id).frame_deferVote vote
          refine h.sameCore hid [vote] hframe ?_ hstayed.core hstayed.pending
          intro v hv
          rw [List.mem_singleton.1 hv]
          exact h.genuine hcall
      | replayDeferredVotes => exact h.replayDeferredVotes hid env
      | receiveRoundChange m => exact h.receiveRoundChange hid env m
      | timeoutIfDueWithRoundChange now => exact h.timeout hid env now
      | applySyncCertificates certificates =>
          exact h.applySyncCertificates hid env fun c hc v hv => h.genuine (hcall c hc v hv)
      | advanceAfterFinalization => exact h.advanceAfterFinalization hid env
      | restartPhaseTimeout now =>
          exact h.sameCore hid [] ⟨rfl, rfl, rfl, rfl, rfl, fun _ => .inl, fun _ => .inl⟩
            (List.forall_mem_nil _) (.refl _) rfl
      | takeEvidence =>
          exact h.sameCore hid [] ⟨rfl, rfl, rfl, rfl, rfl, fun _ => .inl, fun _ => .inl⟩
            (List.forall_mem_nil _) (by constructor <;> rfl) rfl
      | takeFinalized =>
          exact h.sameCore hid [] ⟨rfl, rfl, rfl, rfl, rfl, fun _ => .inl, fun _ => .inl⟩
            (List.forall_mem_nil _) (.refl _) rfl

theorem Sound.run (h : Sound S base w) (hrun : Run S w w') : Sound S base w' := by
  induction hrun with
  | refl => exact h
  | tail _ hstep ih => exact ih.step hstep

theorem sound_initial (h : Initial S w) : Sound S (fun _ _ => False) w := by
  have hnode : ∀ id, S.Honest id → (w id).Coherent ∧ Backed S w.log id (w id) ∧
      (w id).signed = [] ∧ (w id).voter = ⟨(w id).consensus.height, 0, none, none⟩ := by
    intro id hid
    obtain ⟨chain, timeouts, instant, hstart⟩ := h id hid
    simp only [ConsensusRuntime.withSigner, bind_eq_ok, pure_eq_ok] at hstart
    obtain ⟨c, hc, hrt⟩ := hstart
    have hcounts := ValidatorSet.counts_new hc
    simp only [BftConsensus.new, check_bind_eq_ok] at hc
    simp only [bind_eq_ok, pure_eq_ok] at hc
    obtain ⟨-, map, -, rfl⟩ := hc
    rw [← hrt]
    refine ⟨⟨?_, ?_, ?_, ?_, ?_, ?_⟩, ⟨rfl, rfl, ⟨hcounts.validators, hcounts.totalPower⟩, ?_, ?_,
      ?_, ?_, ?_, ?_⟩, rfl, ?_⟩
    all_goals simp [BftConsensus.enterRound, VotesBacked, getD, ConsensusRuntime.voter,
      BftConsensus.lockedPair]
  refine ⟨fun id hid => ?_, fun id hid => (hnode id hid).1, fun id hid => (hnode id hid).2.1,
    fun _ _ => False.elim⟩
  obtain ⟨-, -, hsigned, hvoter⟩ := hnode id hid
  have hlog : w.log id = fun _ => False := by
    funext v
    simp [log, ConsensusRuntime.Cast, hsigned]
  rw [hlog, voters, hvoter]
  exact consistent_initial ..

end

end World

/-- The node has finalized a block at a height: it saw a quorum of precommits in its current
round, or it holds the certificate of a block it applied. -/
def ConsensusRuntime.HasFinalized (rt : ConsensusRuntime) (height : ℕ) (x : String) : Prop :=
  rt.consensus.height = height ∧ rt.consensus.finalized = some x ∨
    ∃ c ∈ rt.finalized, c.block.height = height ∧ c.block.hash = x

section
variable [Crypto] {S : ValidatorSet}

theorem Backed.decided_of_hasFinalized {log : String → Vote String → Prop} {owner : String}
    {rt : ConsensusRuntime} (h : Backed S log owner rt) {height : ℕ} {x : String}
    (hx : rt.HasFinalized height x) : S.committee.Decided log height x := by
  rcases hx with ⟨rfl, hx⟩ | ⟨c, hc, rfl, rfl⟩
  · exact h.decided x hx
  · exact h.certificates c hc

namespace World

variable {w₀ w w' : World}

/-- Two honest validators that have finalized a block at one height have finalized the same
block, whenever in the run each of them did. -/
theorem finalized_agree (hinit : Initial S w₀) (hrun : Run S w₀ w) (hrun' : Run S w w') {i j : String}
    (hi : S.Honest i) (hj : S.Honest j) {height : ℕ} {x y : String}
    (hx : (w i).HasFinalized height x) (hy : (w' j).HasFinalized height y) : x = y := by
  have hsound : Sound S (fun _ _ => False) w := (sound_initial hinit).run hrun
  have hdecided := (hsound.backed i hi).decided_of_hasFinalized hx
  -- from here on the log of the first moment is the base
  have hbased : Sound S w.log w := ⟨hsound.safe, hsound.coherent, hsound.backed, fun _ _ => id⟩
  have hlater := hbased.run hrun'
  exact hlater.safe.agreement (decided_mono hdecided hlater.kept)
    ((hlater.backed j hj).decided_of_hasFinalized hy)

end World

end

/-! Two validators take up the proposal of the first and hear the votes of both. -/

namespace Duo

local instance duoCrypto : Crypto := StandIn.crypto StandIn.digest

def validatorSet : ValidatorSet where
  validators := [⟨StandIn.address 1, 1⟩, ⟨StandIn.address 2, 1⟩]
  byzantine := ∅
  accepted := isOk_iff.1 (by decide +kernel)
  power_lt := by decide
  byzantine_lt := by decide +kernel

def chain : Blockchain := Blockchain.withChainId 21005 []

def env (n : ℕ) : Env :=
  { unixNow := some 10, instant := 0, sign := fun bytes => .ok (StandIn.sign n bytes) }

def block : Block := Block.new 1 chain.tipHash 5 (StandIn.address 1) []

def proposal : SignedProposal :=
  { height := 1, round := 0, proposerId := StandIn.address 1, validRound := none
    validRoundPrevotes := [], block
    signature := StandIn.sign 1
      (SignedProposal.bytesToSign 1 0 (StandIn.address 1) block.hash none []) }

def vote (voteType : VoteType) (n : ℕ) : ConsensusMessage :=
  { height := 1, round := 0, validatorId := StandIn.address n, voteType, blockHash := block.hash
    signature := StandIn.sign n
      (ConsensusMessage.bytesToSign 1 0 (StandIn.address n) voteType block.hash) }

def started (n : ℕ) : Except String ConsensusRuntime :=
  ConsensusRuntime.withSigner chain validatorSet.validators (StandIn.address n) ⟨1, 1, 1⟩ 0

/-- What a node hears. -/
def calls : List ConsensusRuntime.Call :=
  [.receiveProposal proposal, .receiveVote (vote .prevote 1), .receiveVote (vote .prevote 2),
    .receiveVote (vote .precommit 1), .receiveVote (vote .precommit 2)]

/-- A node that has heard the first calls. -/
def heard (n : ℕ) (rt : ConsensusRuntime) (k : ℕ) : ConsensusRuntime :=
  (calls.take k).foldl (fun rt call => (rt.run (env n) call).1) rt

theorem heard_succ (n : ℕ) (rt : ConsensusRuntime) {k : ℕ} {call : ConsensusRuntime.Call}
    (h : calls[k]? = some call) :
    ((heard n rt k).run (env n) call).1 = heard n rt (k + 1) := by
  rw [heard, heard, List.take_add_one, h, List.foldl_append]
  rfl

/-- Both nodes vote once they have heard enough, and finalize the block in the end. -/
theorem heard_calls : ∀ n ∈ [1, 2], ∃ rt, started n = .ok rt ∧
    (∀ k ∈ [1, 2, 3, 4, 5], .vote 1 0 .prevote block.hash ∈ (heard n rt k).signed) ∧
    (∀ k ∈ [3, 4, 5], .vote 1 0 .precommit block.hash ∈ (heard n rt k).signed) ∧
    ((heard n rt 5).consensus.height = 1 ∧
      (heard n rt 5).consensus.finalized = some block.hash) ∧
    (heard n rt 5).chain.blocks = [Block.genesisAt 0, block] := by
  decide +kernel

/-- A world in which the two validators have the given nodes. -/
def world (one two rest : ConsensusRuntime) : World := fun id =>
  if id = StandIn.address 1 then one else if id = StandIn.address 2 then two else rest

section
variable {one two rest : ConsensusRuntime}

@[simp] theorem world_one : world one two rest (StandIn.address 1) = one := if_pos rfl

@[simp] theorem world_two : world one two rest (StandIn.address 2) = two :=
  (if_neg (StandIn.address_ne (by decide))).trans (if_pos rfl)

theorem update_one (rt : ConsensusRuntime) :
    Function.update (world one two rest) (StandIn.address 1) rt = world rt two rest := by
  funext id
  simp only [Function.update_apply, world]
  split_ifs <;> rfl

theorem update_two (rt : ConsensusRuntime) :
    Function.update (world one two rest) (StandIn.address 2) rt = world one rt rest := by
  have hne : StandIn.address 2 ≠ StandIn.address 1 := StandIn.address_ne (by decide)
  funext id
  by_cases hid : id = StandIn.address 2
  · simp [world, hid, hne]
  · simp [world, hid]

theorem honest_address {n : ℕ} (hn : n ∈ [1, 2]) : validatorSet.Honest (StandIn.address n) :=
  ⟨List.mem_toFinset.2 (List.mem_map_of_mem hn), Finset.notMem_empty _⟩

/-- A vote of a node is authentic once its signer was asked for it. -/
theorem authentic_vote {w : World} {voteType : VoteType} {n : ℕ}
    (h : .vote 1 0 voteType block.hash ∈ (w (StandIn.address n)).signed) :
    World.Authentic validatorSet w (vote voteType n) :=
  ⟨⟨by norm_num [vote], by norm_num [vote]⟩, fun _ _ => ⟨.vote 1 0 voteType block.hash, h, rfl⟩⟩

theorem authentic_one {voteType : VoteType} (h : .vote 1 0 voteType block.hash ∈ one.signed) :
    World.Authentic validatorSet (world one two rest) (vote voteType 1) :=
  authentic_vote (by rwa [world_one])

theorem authentic_two {voteType : VoteType} (h : .vote 1 0 voteType block.hash ∈ two.signed) :
    World.Authentic validatorSet (world one two rest) (vote voteType 2) :=
  authentic_vote (by rwa [world_two])

section
variable {w₀ : World} {k : ℕ} {call : ConsensusRuntime.Call}

theorem run_one (h : World.Run validatorSet w₀ (world (heard 1 one k) two rest))
    (hcall : calls[k]? = some call)
    (hd : World.Deliverable validatorSet (world (heard 1 one k) two rest) call) :
    World.Run validatorSet w₀ (world (heard 1 one (k + 1)) two rest) := by
  have hnext := h.tail (.call _ _ (@honest_address 1 (by decide)) (env 1) call hd)
  rwa [world_one, update_one, heard_succ 1 one hcall] at hnext

theorem run_two (h : World.Run validatorSet w₀ (world one (heard 2 two k) rest))
    (hcall : calls[k]? = some call)
    (hd : World.Deliverable validatorSet (world one (heard 2 two k) rest) call) :
    World.Run validatorSet w₀ (world one (heard 2 two (k + 1)) rest) := by
  have hnext := h.tail (.call _ _ (@honest_address 2 (by decide)) (env 2) call hd)
  rwa [world_two, update_two, heard_succ 2 two hcall] at hnext

end

theorem initial_world (hone : started 1 = .ok one) (htwo : started 2 = .ok two) :
    World.Initial validatorSet (world one two rest) := by
  intro id hid
  have hlisted : id = StandIn.address 1 ∨ id = StandIn.address 2 := by
    have hmem := List.mem_toFinset.1 hid.1
    rwa [validatorSet, List.map_cons, List.map_cons, List.map_nil, List.mem_cons,
      List.mem_singleton] at hmem
  refine ⟨chain, ⟨1, 1, 1⟩, 0, ?_⟩
  rcases hlisted with rfl | rfl
  · rwa [world_one]
  · rwa [world_two]

end

theorem chain_started {n : ℕ} {rt : ConsensusRuntime} (h : started n = .ok rt) : rt.chain = chain := by
  simp only [started, ConsensusRuntime.withSigner, bind_eq_ok, pure_eq_ok] at h
  obtain ⟨c, -, rfl⟩ := h
  rfl

/-- First the first node finalizes the block, then the second one. -/
theorem run_duo : ∃ w₀ w w', World.Initial validatorSet w₀ ∧
    (w₀ (StandIn.address 1)).chain = (w₀ (StandIn.address 2)).chain ∧
    World.Run validatorSet w₀ w ∧ World.Run validatorSet w w' ∧
    (w (StandIn.address 1)).HasFinalized 1 block.hash ∧
    (w (StandIn.address 1)).chain.blocks = [Block.genesisAt 0, block] ∧
    (w' (StandIn.address 2)).HasFinalized 1 block.hash ∧
    (w' (StandIn.address 2)).chain.blocks = [Block.genesisAt 0, block] := by
  obtain ⟨one, hone, hprevotes, hprecommits, hdone, hblocks⟩ :=
    heard_calls 1 (by decide)
  obtain ⟨two, htwo, hprevotes', hprecommits', hdone', hblocks'⟩ :=
    heard_calls 2 (by decide)
  obtain ⟨w₀, hw₀⟩ : ∃ w₀, w₀ = world one two one := ⟨_, rfl⟩
  have hproposal : ∀ w, World.Deliverable validatorSet w (.receiveProposal proposal) :=
    fun w => ⟨by norm_num [proposal], by norm_num [proposal], List.forall_mem_nil _⟩
  have h₀ : World.Run validatorSet w₀ (world (heard 1 one 0) (heard 2 two 0) one) := hw₀ ▸ .refl _
  -- Both prevote the proposal, then both hear the prevotes.
  have h₁ := run_two (run_one h₀ rfl (hproposal _)) rfl (hproposal _)
  have h₂ := run_one h₁ rfl (authentic_one (hprevotes 1 (by decide)))
  have h₃ := run_one h₂ rfl (authentic_two (hprevotes' 1 (by decide)))
  have h₄ := run_two h₃ rfl (authentic_one (hprevotes 3 (by decide)))
  have h₅ := run_two h₄ rfl (authentic_two (hprevotes' 2 (by decide)))
  have h₆ := run_one h₅ rfl (authentic_one (hprecommits 3 (by decide)))
  have h₇ := run_one h₆ rfl (authentic_two (hprecommits' 3 (by decide)))
  -- The second node hears the precommits after the first has finalized.
  have hlater : World.Run validatorSet _ (world (heard 1 one 5) (heard 2 two 3) one) := .refl _
  have h₈ := run_two hlater rfl (authentic_one (hprecommits 5 (by decide)))
  have h₉ := run_two h₈ rfl (authentic_two (hprecommits' 4 (by decide)))
  refine ⟨w₀, world (heard 1 one 5) (heard 2 two 3) one, world (heard 1 one 5) (heard 2 two 5) one,
    hw₀ ▸ initial_world hone htwo, ?_, h₇, h₉, ?_, ?_, ?_, ?_⟩
  · rw [hw₀, world_one, world_two, chain_started hone, chain_started htwo]
  · rw [world_one]
    exact .inl hdone
  · rw [world_one]
    exact hblocks
  · rw [world_two]
    exact .inl hdone'
  · rw [world_two]
    exact hblocks'

theorem finalized_agree_duo : ∃ w₀ w w', World.Run validatorSet w₀ w ∧
    World.Run validatorSet w w' ∧ (w (StandIn.address 1)).HasFinalized 1 block.hash ∧
    (w' (StandIn.address 2)).HasFinalized 1 block.hash ∧
    ∀ x, (w' (StandIn.address 2)).HasFinalized 1 x → block.hash = x := by
  obtain ⟨w₀, w, w', hinit, -, hrun, hrun', hone, -, htwo, -⟩ := run_duo
  exact ⟨w₀, w, w', hrun, hrun', hone, htwo, fun x hx =>
    World.finalized_agree hinit hrun hrun' (@honest_address 1 (by decide))
      (@honest_address 2 (by decide)) hone hx⟩

end Duo

/-! A validator set of one, whose node takes up a proposal and then receives its own votes. -/

namespace Lone

local instance agreementCrypto : Crypto := StandIn.crypto StandIn.digest

def self : String := StandIn.address 1

def chain : Blockchain := Blockchain.withChainId 21005 []

def env : Env := { unixNow := some 10, instant := 0, sign := fun bytes => .ok (StandIn.sign 1 bytes) }

def block : Block := Block.new 1 chain.tipHash 5 self []

def proposal (block : Block) : SignedProposal :=
  { height := 1, round := 0, proposerId := self, validRound := none, validRoundPrevotes := [], block
    signature := StandIn.sign 1 (SignedProposal.bytesToSign 1 0 self block.hash none []) }

def vote (block : Block) (voteType : VoteType) : ConsensusMessage :=
  { height := 1, round := 0, validatorId := self, voteType, blockHash := block.hash
    signature := StandIn.sign 1 (ConsensusMessage.bytesToSign 1 0 self voteType block.hash) }

def validatorSet : ValidatorSet where
  validators := [⟨self, 1⟩]
  byzantine := ∅
  accepted := isOk_iff.1 (by decide)
  power_lt := by decide
  byzantine_lt := by decide

theorem one_le_u128Max : 1 ≤ u128Max := by decide

theorem lookup_self : (validatorPowers [⟨self, 1⟩]).lookup self = some 1 := by
  simp only [validatorPowers, collect, List.map_cons, List.map_nil, List.foldl_cons, List.foldl_nil]
  exact AList.lookup_insert _

def started (chain : Blockchain) : Except String ConsensusRuntime :=
  ConsensusRuntime.withSigner chain validatorSet.validators self ⟨1, 1, 1⟩ 0

theorem started_spec {chain : Blockchain} {rt : ConsensusRuntime} (h : started chain = .ok rt) :
    rt.chain = chain ∧ rt.validators = [⟨self, 1⟩] ∧ rt.eventSchedule.events = [] ∧
      rt.consensus.height = chain.tipHeight + 1 := by
  simp only [started, ConsensusRuntime.withSigner, bind_eq_ok, pure_eq_ok] at h
  obtain ⟨c, -, rfl⟩ := h
  exact ⟨rfl, rfl, rfl, rfl⟩

theorem started_ok : (started chain).toOption.isSome = true := by decide

def node : ConsensusRuntime := (started chain).toOption.get started_ok

/-! ### A round of the node -/

theorem verify_vote (b : Block) (voteType : VoteType) : (vote b voteType).verify = .ok () :=
  StandIn.verifySignature_sign _ 1 _

theorem verify_proposal {b : Block} (hheight : b.height = 1) (hhash : b.hash = b.calculateHash) :
    (proposal b).verify = .ok () := by
  rw [SignedProposal.verify]
  simp only [check_bind_eq_ok, reject_eq_ok, not_not]
  exact ⟨hheight.symm, hhash, StandIn.verifySignature_sign _ 1 _⟩

theorem node_fields : node.validator = self ∧ node.consensus.height = 1 ∧
    node.consensus.round = 0 ∧ node.consensus.totalPower = 1 ∧
    node.consensus.validators.lookup self = some 1 ∧ node.consensus.lockedValue = none := by
  decide +kernel

theorem signVote_lone (rt : ConsensusRuntime) (hvalidator : rt.validator = self) (b : Block)
    (voteType : VoteType) : rt.signVote env 1 0 voteType b.hash =
      ({ rt with signed := rt.signed ++ [.vote 1 0 voteType b.hash] }, .ok (vote b voteType)) := by
  have hverify := verify_vote b voteType
  simp only [ConsensusRuntime.signVote, ConsensusRuntime.sign, env, hvalidator]
  change (_, (vote b voteType).verify.map fun _ => vote b voteType) = _
  rw [hverify]
  rfl

/-- The node after it has prevoted the block. -/
def proposed (b : Block) : ConsensusRuntime :=
  { node with
    consensus := { node.consensus with proposal := some b.hash, phase := .prevote }
    pending := some b, deadline := 1, signed := [.vote 1 0 .prevote b.hash] }

theorem handleProposal_node {b : Block} (hheight : b.height = 1)
    (hhash : b.hash = b.calculateHash) (hne : b.hash ≠ "") :
    node.consensus.handleProposal (proposal b) = ((proposed b).consensus, .ok ()) := by
  obtain ⟨-, hh, hr, -, hpower, hlock⟩ := node_fields
  have hmem : self ∈ node.consensus.validators := by
    rw [← AList.lookup_isSome, hpower]
    rfl
  have hcheck : node.consensus.checkProposal (proposal b) = .ok () := by
    rw [BftConsensus.checkProposal, verify_proposal hheight hhash, BftConsensus.checkLock, hlock]
    simp only [proposal, hh, hr, hmem]
    rfl
  have hpropose : node.consensus.checkPropose self b.hash = .ok () := by
    simp only [BftConsensus.checkPropose, check_bind_eq_ok, reject_eq_ok, hne, not_false_eq_true,
      and_true, not_not]
    decide +kernel
  rw [BftConsensus.handleProposal, hcheck]
  change node.consensus.propose self b.hash = _
  rw [BftConsensus.propose, hpropose]
  rfl

/-- What the node has signed before makes no difference. -/
theorem receiveProposal_signed {b : Block} (hheight : b.height = 1)
    (hhash : b.hash = b.calculateHash) (hne : b.hash ≠ "")
    (hblock : node.checkProposedBlock env b = .ok ()) (signed : List SignedPayload) :
    ConsensusRuntime.receiveProposal { node with signed } env (proposal b) =
      ({ proposed b with signed := signed ++ [.vote 1 0 .prevote b.hash] },
        .ok (vote b .prevote)) := by
  have hproposed : ConsensusRuntime.checkProposedBlock { node with signed } env (proposal b).block =
      .ok () := hblock
  rw [ConsensusRuntime.receiveProposal, hproposed]
  simp only [handleProposal_node hheight hhash hne]
  refine signVote_lone (ConsensusRuntime.resetDeadline _ env) ?_ b .prevote
  exact node_fields.1

theorem receiveProposal_node {b : Block} (hheight : b.height = 1)
    (hhash : b.hash = b.calculateHash) (hne : b.hash ≠ "")
    (hblock : node.checkProposedBlock env b = .ok ()) :
    node.receiveProposal env (proposal b) = (proposed b, .ok (vote b .prevote)) :=
  receiveProposal_signed hheight hhash hne hblock []

/-- The only vote for the proposed block has all the power. -/
theorem handle_lone {c : BftConsensus} {b : Block} {voteType : VoteType}
    (hplace : c.height = 1 ∧ c.round = 0)
    (hpowers : c.validators = node.consensus.validators ∧ c.totalPower = 1)
    (haccepts : BftConsensus.acceptsVote c.phase voteType = true)
    (hnew : c.voteHistory.lookup (1, 0, voteType, self) = none)
    (hproposal : c.proposal = some b.hash)
    (hvotes : getD c.votes (voteType, b.hash) ∅ = ∅) :
    c.handle (vote b voteType) =
        (((c.fileVote (vote b voteType)).addVote (vote b voteType)).advancePhase (vote b voteType),
          .ok ()) ∧
      ((c.fileVote (vote b voteType)).addVote (vote b voteType)).hasQuorum voteType b.hash = true := by
  have hlookup : c.validators.lookup self = some 1 := by
    rw [hpowers.1]
    exact node_fields.2.2.2.2.1
  constructor
  · have hmem : self ∈ c.validators := by
      rw [← AList.lookup_isSome, hlookup]
      rfl
    have hcheck : c.checkVote (vote b voteType) = .ok () := by
      rw [BftConsensus.checkVote, verify_vote]
      simp only [vote, hplace, hmem, haccepts]
      rfl
    have hfiled : c.voteHistory.lookup (vote b voteType).key = none := hnew
    have hcount : (c.fileVote (vote b voteType)).countVote (vote b voteType) =
        (((c.fileVote (vote b voteType)).addVote (vote b voteType)).advancePhase (vote b voteType),
          .ok ()) := if_neg (not_not.2 hproposal)
    rw [BftConsensus.handle, hcheck]
    dsimp only
    rw [hfiled]
    exact hcount
  · have hvoters : getD ((c.fileVote (vote b voteType)).addVote (vote b voteType)).votes
        (voteType, b.hash) ∅ = {self} := by
      rw [BftConsensus.addVote]
      simp only [vote, BftConsensus.fileVote, getD_insert_self, hvotes]
      rfl
    have hpower : ((c.fileVote (vote b voteType)).addVote (vote b voteType)).votePower voteType
        b.hash = 1 := by
      rw [BftConsensus.votePower, hvoters, Finset.sum_singleton]
      change ((c.validators.lookup self).getD 0) % 2 ^ 64 = 1
      rw [hlookup]
      rfl
    rw [BftConsensus.hasQuorum, hpower]
    change BftConsensus.exceedsTwoThirds 1 c.totalPower = true
    rw [hpowers.2]
    decide

/-- The machine with a quorum of prevotes for the block. -/
def lockedMachine (b : Block) : BftConsensus :=
  { ((proposed b).consensus.fileVote (vote b .prevote)).addVote (vote b .prevote) with
    validValue := some b.hash, validRound := some 0
    lockedValue := some b.hash, lockedRound := some 0, phase := .precommit }

/-- The node after it has precommitted the block. -/
def locked (b : Block) : ConsensusRuntime :=
  { proposed b with
    consensus := lockedMachine b, validBlock := some b
    validRoundPrevotes := (lockedMachine b).prevoteCertificate b.hash 0
    signed := [.vote 1 0 .prevote b.hash, .vote 1 0 .precommit b.hash] }

theorem handle_proposed (b : Block) :
    (proposed b).consensus.handle (vote b .prevote) = (lockedMachine b, .ok ()) := by
  obtain ⟨-, hh, hr, htotal, -⟩ := node_fields
  have hnew : (proposed b).consensus.voteHistory.lookup (1, 0, .prevote, self) = none := rfl
  have hvotes : getD (proposed b).consensus.votes (.prevote, b.hash) ∅ = ∅ := rfl
  have hplace : (proposed b).consensus.height = 1 ∧ (proposed b).consensus.round = 0 := ⟨hh, hr⟩
  obtain ⟨hhandle, hquorum⟩ := handle_lone hplace ⟨rfl, htotal⟩ rfl hnew rfl hvotes
  have hadvance : (((proposed b).consensus.fileVote (vote b .prevote)).addVote
      (vote b .prevote)).advancePhase (vote b .prevote) = lockedMachine b := by
    rw [BftConsensus.advancePhase, if_pos ⟨hquorum, ConsensusPhase.noConfusion⟩]
    exact if_pos rfl
  rw [hhandle, hadvance]

theorem afterVote_lone {rt : ConsensusRuntime} {b : Block} (hvalidator : rt.validator = self)
    (hphase : rt.consensus.phase = .precommit) (hround : rt.consensus.round = 0)
    (hpending : rt.pending = some b) (hheight : b.height = 1) :
    rt.afterVote env = ({ rt with signed := rt.signed ++ [.vote 1 0 .precommit b.hash] },
      .ok (some (vote b .precommit))) := by
  rw [ConsensusRuntime.afterVote, if_pos hphase]
  split
  next hnone => exact nomatch hnone.symm.trans hpending
  next b' hsome =>
    obtain rfl := Option.some.inj (hsome.symm.trans hpending)
    rw [hheight, hround, signVote_lone _ hvalidator]
    rfl

theorem receiveVote_proposed {b : Block} (hheight : b.height = 1) :
    (proposed b).receiveVote env (vote b .prevote) =
      (locked b, .ok (some (vote b .precommit))) := by
  have hcollect : ConsensusRuntime.collectPrecommit
      { proposed b with consensus := lockedMachine b } (vote b .prevote) =
        { proposed b with consensus := lockedMachine b } := if_neg fun h => nomatch h.1
  have hafter : ConsensusRuntime.afterPhaseChange
      { proposed b with consensus := lockedMachine b } env .prevote =
        { locked b with signed := [.vote 1 0 .prevote b.hash] } := by
    rw [ConsensusRuntime.afterPhaseChange, if_neg nofun]
    exact congrArg (fun rt => ConsensusRuntime.resetDeadline rt env) (if_pos ⟨rfl, rfl⟩)
  have hphase : (proposed b).consensus.phase = .prevote := rfl
  rw [ConsensusRuntime.receiveVote, handle_proposed]
  dsimp only
  rw [hphase, hcollect, hafter]
  exact afterVote_lone node_fields.1 rfl node_fields.2.2.1 rfl hheight

/-- The machine with a quorum of precommits for the block. -/
def finalizedMachine (b : Block) : BftConsensus :=
  { ((lockedMachine b).fileVote (vote b .precommit)).addVote (vote b .precommit) with
    phase := .finalized, finalized := some b.hash }

theorem handle_locked (b : Block) :
    (lockedMachine b).handle (vote b .precommit) = (finalizedMachine b, .ok ()) := by
  obtain ⟨-, hh, hr, htotal, -⟩ := node_fields
  have hkey : (1, 0, VoteType.precommit, self) ≠ (vote b .prevote).key := by
    intro h
    cases (Prod.mk.inj (Prod.mk.inj (Prod.mk.inj h).2).2).1
  have hnew : (lockedMachine b).voteHistory.lookup (1, 0, .precommit, self) = none :=
    AList.lookup_insert_ne hkey
  have hslot : (VoteType.precommit, b.hash) ≠ ((vote b .prevote).voteType, b.hash) := by
    intro h
    cases (Prod.mk.inj h).1
  have hvotes : getD (lockedMachine b).votes (.precommit, b.hash) ∅ = ∅ :=
    getD_insert_ne _ hslot _ _
  have hplace : (lockedMachine b).height = 1 ∧ (lockedMachine b).round = 0 := ⟨hh, hr⟩
  obtain ⟨hhandle, hquorum⟩ := handle_lone hplace ⟨rfl, htotal⟩ rfl hnew rfl hvotes
  have hadvance : (((lockedMachine b).fileVote (vote b .precommit)).addVote
      (vote b .precommit)).advancePhase (vote b .precommit) = finalizedMachine b := by
    rw [BftConsensus.advancePhase, if_pos ⟨hquorum, ConsensusPhase.noConfusion⟩]
    rfl
  rw [hhandle, hadvance]

/-- The node with a finalized block, before it applies it. -/
def decided (b : Block) : ConsensusRuntime :=
  { locked b with consensus := finalizedMachine b, precommits := [vote b .precommit] }

theorem receiveVote_locked (b : Block) :
    (locked b).receiveVote env (vote b .precommit) =
      ((decided b).resetDeadline env).finalizePending := by
  have hconsensus : (locked b).consensus = lockedMachine b := rfl
  have hphase : (lockedMachine b).phase = .precommit := rfl
  have hcollect : ConsensusRuntime.collectPrecommit
      { locked b with consensus := finalizedMachine b } (vote b .precommit) = decided b :=
    if_pos ⟨rfl, nofun⟩
  have hafter : (decided b).afterPhaseChange env .precommit = (decided b).resetDeadline env := by
    rw [ConsensusRuntime.afterPhaseChange, if_neg nofun]
    exact congrArg (fun rt => ConsensusRuntime.resetDeadline rt env) (if_neg nofun)
  rw [ConsensusRuntime.receiveVote, hconsensus, handle_locked]
  dsimp only
  rw [hphase, hcollect, hafter, ConsensusRuntime.afterVote, if_neg nofun]
  exact if_pos rfl

theorem finalizePending_consensus (rt : ConsensusRuntime) :
    rt.finalizePending.1.consensus = rt.consensus := by
  unfold ConsensusRuntime.finalizePending
  split
  · rfl
  · dsimp only
    split_ifs
    · rfl
    · split
      · rfl
      · split <;> rfl

theorem run_proposal {b : Block} (hheight : b.height = 1) (hhash : b.hash = b.calculateHash)
    (hne : b.hash ≠ "") (hblock : node.checkProposedBlock env b = .ok ()) :
    (node.run env (.receiveProposal (proposal b))).1 = proposed b :=
  (rfl : _ = (node.receiveProposal env (proposal b)).1).trans
    (congrArg Prod.fst (receiveProposal_node hheight hhash hne hblock))

theorem run_prevote {b : Block} (hheight : b.height = 1) :
    ((proposed b).run env (.receiveVote (vote b .prevote))).1 = locked b :=
  (rfl : _ = ((proposed b).receiveVote env (vote b .prevote)).1).trans
    (congrArg Prod.fst (receiveVote_proposed hheight))

theorem run_precommit (b : Block) :
    ((locked b).run env (.receiveVote (vote b .precommit))).1 =
      ((decided b).resetDeadline env).finalizePending.1 :=
  (rfl : _ = ((locked b).receiveVote env (vote b .precommit)).1).trans
    (congrArg Prod.fst (receiveVote_locked b))

theorem finishes :
    ∃ proposed locked finished, (node.run env (.receiveProposal (proposal block))).1 = proposed ∧
      (proposed.run env (.receiveVote (vote block .prevote))).1 = locked ∧
      (locked.run env (.receiveVote (vote block .precommit))).1 = finished ∧
      (.vote 1 0 .prevote block.hash ∈ proposed.signed ∧
          .vote 1 0 .precommit block.hash ∈ locked.signed) ∧
        finished.consensus.height = 1 ∧ finished.consensus.finalized = some block.hash ∧
        finished.consensus.phase = .finalized ∧ locked.consensus.phase = .precommit := by
  have hproposed : (node.run env (.receiveProposal (proposal block))).1 = proposed block :=
    run_proposal rfl (Block.new_hash ..) (by decide +kernel) (by decide +kernel)
  have hconsensus := finalizePending_consensus ((decided block).resetDeadline env)
  refine ⟨proposed block, locked block, _, hproposed, run_prevote rfl, run_precommit block,
    ⟨List.mem_singleton_self _, List.mem_cons_of_mem _ (List.mem_singleton_self _)⟩, ?_⟩
  rw [hconsensus]
  exact ⟨node_fields.2.1, rfl, rfl, rfl⟩

end Lone

end IeumChain
