import IeumChain.CachedBlocks
import IeumChain.MachineCalls

/-!
# A proposer and its own proposal

What a node proposes it has to accept itself. A new block is accepted at the height after
the tip. The block behind the valid value is accepted again when its round has passed, it
still fits the chain and the lock, and the prevotes that the node can show for it have a
quorum. Neither of these is guaranteed by the calls that set the valid value.
-/
namespace IeumChain

open Outcome MachineWords FiniteMap VoteTally

namespace BftConsensus

theorem insertionSort_ne_nil {ids : List String} (h : ids ≠ []) :
    ids.insertionSort (· ≤ ·) ≠ [] := by
  intro hnil
  have hlength := List.length_insertionSort (· ≤ ·) ids
  rw [hnil, List.length_nil, eq_comm, List.length_eq_zero_iff] at hlength
  exact h hlength

/-- The proposer of a round is one of the validators. -/
theorem expectedProposer_mem {c : BftConsensus} (h : c.validators.keys ≠ []) :
    c.expectedProposer ∈ c.validators := by
  have hpos := List.length_pos_of_ne_nil (insertionSort_ne_nil h)
  have hlt := Nat.mod_lt (c.height - 1 + c.round) hpos
  unfold expectedProposer
  dsimp only
  rw [AList.mem_keys, List.getD_eq_getElem?_getD, List.getElem?_eq_getElem hlt, Option.getD_some]
  exact (List.mem_insertionSort _).1 (List.getElem_mem hlt)

section
variable [Crypto]

theorem handleProposal_ok_iff {c : BftConsensus} {p : SignedProposal} :
    (c.handleProposal p).2 = .ok () ↔
      c.checkProposal p = .ok () ∧ c.checkPropose p.proposerId p.block.hash = .ok () := by
  have hsame : ∀ v r, ({ c with validValue := v, validRound := r } : BftConsensus).checkPropose
      p.proposerId p.block.hash = c.checkPropose p.proposerId p.block.hash := fun _ _ => rfl
  unfold handleProposal
  cases hcheck : c.checkProposal p with
  | error e => simp
  | ok u =>
      have hpropose : ∀ c' : BftConsensus, (c'.propose p.proposerId p.block.hash).2 = .ok () ↔
          c'.checkPropose p.proposerId p.block.hash = .ok () := by
        intro c'
        unfold propose
        cases c'.checkPropose p.proposerId p.block.hash <;> simp
      cases p.validRound with
      | none => simp [hpropose]
      | some vr => simp [hpropose, hsame]

/-- What is on file was verified, the valid value has a round, and a lock comes with a valid
value. -/
structure Accountable (c : BftConsensus) : Prop where
  message : ∀ k m, c.voteMessages.lookup k = some m →
    m.key = k ∧ m.verify = .ok () ∧ m.validatorId ∈ c.validators
  history : ∀ k, c.voteHistory.lookup k = (c.voteMessages.lookup k).map (·.blockHash)
  paired : c.validValue.isSome = c.validRound.isSome
  locked : c.lockedValue.isSome = true → c.validValue.isSome = true
  seats : c.validators.keys ≠ []

variable {c c' : BftConsensus}

theorem Accountable.filed (h : Accountable c) : Filed { c with votes := ∅ } where
  message := h.message
  history := h.history
  counted voteType x id hid := by simp [getD] at hid

theorem Accountable.congr (h : Accountable c) (hmessages : c'.voteMessages = c.voteMessages)
    (hhistory : c'.voteHistory = c.voteHistory) (hvalidators : c'.validators = c.validators)
    (hpaired : c'.validValue.isSome = c'.validRound.isSome)
    (hlocked : c'.lockedValue.isSome = true → c'.validValue.isSome = true) : Accountable c' where
  message k m hm := by
    rw [hmessages] at hm
    rw [hvalidators]
    exact h.message k m hm
  history k := by
    rw [hhistory, hmessages]
    exact h.history k
  paired := hpaired
  locked := hlocked
  seats := by
    rw [hvalidators]
    exact h.seats

theorem Accountable.fileVote (h : Accountable c) {m : ConsensusMessage} (hverify : m.verify = .ok ())
    (hmember : m.validatorId ∈ c.validators) : Accountable (c.fileVote m) where
  message k m' hm' := by
    rw [lookup_fileVote] at hm'
    split_ifs at hm' with hk
    · cases hm'
      exact ⟨hk.symm, hverify, hmember⟩
    · exact h.message k m' hm'
  history k := by
    rw [lookup_fileVote, history_fileVote]
    split_ifs
    · rfl
    · exact h.history k
  paired := h.paired
  locked := h.locked
  seats := h.seats

theorem Accountable.foldl_fileVote {votes : List ConsensusMessage} (h : Accountable c)
    (hvotes : ∀ m ∈ votes, m.verify = .ok () ∧ m.validatorId ∈ c.validators) :
    Accountable (votes.foldl BftConsensus.fileVote c) := by
  induction votes generalizing c with
  | nil => exact h
  | cons m rest ih =>
      obtain ⟨hverify, hmember⟩ := hvotes m (List.mem_cons_self ..)
      exact ih (h.fileVote hverify hmember) fun v hv => hvotes v (List.mem_cons_of_mem _ hv)

theorem Accountable.enterRound (h : Accountable c) (height round : ℕ) :
    Accountable (c.enterRound height round) := by
  refine h.congr rfl rfl rfl ?_ ?_
  · unfold BftConsensus.enterRound
    dsimp only
    split_ifs
    · rfl
    · exact h.paired
  · unfold BftConsensus.enterRound
    dsimp only
    split_ifs
    · exact id
    · exact h.locked

theorem Accountable.startRound (h : Accountable c) (height round : ℕ) :
    Accountable (c.startRound height round).1 := by
  rcases c.startRound_cases height round with ⟨e, hcase⟩ | ⟨-, hcase⟩
  · rw [hcase]
    exact h
  · rw [hcase]
    exact h.enterRound height round

theorem Accountable.propose (h : Accountable c) (proposer blockHash : String) :
    Accountable (c.propose proposer blockHash).1 := by
  unfold BftConsensus.propose
  split
  · exact h
  · exact h.congr rfl rfl rfl h.paired h.locked

theorem Accountable.handleProposal (h : Accountable c) (p : SignedProposal) :
    Accountable (c.handleProposal p).1 := by
  unfold BftConsensus.handleProposal
  cases c.checkProposal p with
  | error e => exact h
  | ok u =>
      dsimp only
      cases p.validRound with
      | none => exact h.propose _ _
      | some vr =>
          have hset : Accountable
              { c with validValue := some p.block.hash, validRound := some vr } :=
            h.congr rfl rfl rfl rfl fun _ => rfl
          exact hset.propose _ _

theorem Accountable.advancePhase (h : Accountable c) (m : ConsensusMessage) :
    Accountable (c.advancePhase m) := by
  rcases c.advancePhase_cases m with hcase | ⟨-, -, -, hcase⟩ | ⟨-, -, -, hcase⟩
  · rw [hcase]
    exact h
  · rw [hcase]
    exact h.congr rfl rfl rfl rfl fun _ => rfl
  · rw [hcase]
    exact h.congr rfl rfl rfl h.paired h.locked

theorem Accountable.countVote (h : Accountable c) (m : ConsensusMessage) :
    Accountable (c.countVote m).1 := by
  unfold BftConsensus.countVote
  split_ifs
  · exact h
  · have hadded : Accountable (c.addVote m) := h.congr rfl rfl rfl h.paired h.locked
    exact hadded.advancePhase m

theorem Accountable.handle (h : Accountable c) (m : ConsensusMessage) :
    Accountable (c.handle m).1 := by
  unfold BftConsensus.handle
  cases hcheck : c.checkVote m with
  | error e => exact h
  | ok u =>
      obtain ⟨-, -, hmember, hverify, -⟩ := checkVote_eq_ok hcheck
      dsimp only
      split
      · exact (h.fileVote hverify hmember).countVote m
      · split_ifs
        · unfold recordEvidence
          split
          · exact h
          · dsimp only
            split_ifs
            · exact h.congr rfl rfl rfl h.paired h.locked
            · exact h
        · exact h.countVote m

theorem Accountable.adoptValidValue (h : Accountable c) (blockHash : String) (validRound : ℕ)
    (prevotes : List ConsensusMessage) :
    Accountable (c.adoptValidValue blockHash validRound prevotes).1 := by
  unfold BftConsensus.adoptValidValue
  cases hcheck : c.checkValidValue blockHash validRound prevotes with
  | error e => exact h
  | ok u =>
      dsimp only
      split_ifs
      · have hset : Accountable
            { c with validValue := some blockHash, validRound := some validRound } :=
          h.congr rfl rfl rfl rfl fun _ => rfl
        exact hset.foldl_fileVote fun m hm => ((voters_of_checkValidValue hcheck).1 m hm).2
      · exact h

theorem Accountable.after (h : Accountable c) (input : Input) : Accountable (c.after input) := by
  cases input with
  | startRound height round => exact h.startRound height round
  | propose proposer blockHash => exact h.propose proposer blockHash
  | handleProposal p => exact h.handleProposal p
  | handle m => exact h.handle m
  | adoptValidValue blockHash validRound prevotes =>
      exact h.adoptValidValue blockHash validRound prevotes
  | takeEvidence => exact h.congr rfl rfl rfl h.paired h.locked
  | onTimeout =>
      unfold BftConsensus.after BftConsensus.onTimeout
      cases checkedAdd u32Max c.round 1 with
      | none => exact h
      | some next => exact h.startRound _ _

theorem accountable_new {validators : List Validator}
    (hnew : BftConsensus.new validators = .ok c) : Accountable c := by
  simp only [BftConsensus.new, check_bind_eq_ok, reject_eq_ok] at hnew
  obtain ⟨hnonempty, hnew⟩ := hnew
  simp only [bind_eq_ok, pure_eq_ok] at hnew
  obtain ⟨powers, hpowers, rfl⟩ := hnew
  obtain ⟨-, -, -, hlookup, -, -⟩ := newLoop_spec hpowers
  refine ⟨?_, ?_, rfl, id, ?_⟩
  · intro k m hm
    cases hm
  · intro k
    rfl
  · obtain ⟨v, hv⟩ := List.exists_mem_of_ne_nil _ hnonempty
    have hmem : v.id ∈ powers := AList.lookup_isSome.1 (by rw [hlookup v hv]; rfl)
    exact List.ne_nil_of_mem (AList.mem_keys.1 hmem)

/-! ## The proof of a valid value -/

/-- The power behind a list of votes. -/
def powerBehind (c : BftConsensus) (votes : List ConsensusMessage) : ℕ :=
  (votes.map fun m => getD c.validators m.validatorId 0).sum

/-- More than two thirds of the power, in a machine word. -/
def Weighty (c : BftConsensus) (votes : List ConsensusMessage) : Prop :=
  c.powerBehind votes ≤ u64Max ∧ exceedsTwoThirds (c.powerBehind votes) c.totalPower = true

/-- Valid prevotes of distinct validators for a block in a round, with more than two thirds of
the power. -/
structure ProvesQuorum (c : BftConsensus) (x : String) (round : ℕ)
    (votes : List ConsensusMessage) : Prop where
  each : ∀ m ∈ votes, votesFor c.height round .prevote x m = true ∧ m.verify = .ok () ∧
    m.validatorId ∈ c.validators
  nodup : (votes.map (·.validatorId)).Nodup
  weighty : c.Weighty votes

theorem verifyValidRoundCertificate_eq_ok {p : SignedProposal} {vr : ℕ}
    (hheight : p.height = c.height) :
    c.verifyValidRoundCertificate p vr = .ok () ↔
      vr < p.round ∧ c.ProvesQuorum p.block.hash vr p.validRoundPrevotes := by
  have hcount := fun mismatch unknown duplicate overflow n => @count_eq_ok _
    (c.prevoteRule p.height vr p.block.hash mismatch unknown duplicate overflow) rfl
    p.validRoundPrevotes n
  simp only [verifyValidRoundCertificate, check_bind_eq_ok, reject_eq_ok, not_le, not_lt]
  simp only [bind_eq_ok, reject_eq_ok, not_not, hcount]
  refine and_congr_right fun _ => ?_
  constructor
  · rintro ⟨-, n, ⟨haccepted, hnodup, rfl, htop⟩, hexceeds⟩
    refine ⟨fun m hm => ?_, hnodup, htop, hexceeds⟩
    obtain ⟨hmatching, hverify, hknown⟩ := haccepted m hm
    rw [← hheight]
    exact ⟨hmatching, hverify, AList.lookup_isSome.1 hknown⟩
  · rintro ⟨heach, hnodup, htop, hexceeds⟩
    refine ⟨?_, _, ⟨fun m hm => ?_, hnodup, rfl, htop⟩, hexceeds⟩
    · rw [← List.length_map (f := (·.validatorId))]
      refine (hnodup.subperm ?_).length_le
      intro id hid
      obtain ⟨m, hm, rfl⟩ := List.mem_map.1 hid
      exact AList.mem_keys.1 (heach m hm).2.2
    · obtain ⟨hmatching, hverify, hmember⟩ := heach m hm
      rw [← hheight] at hmatching
      exact ⟨hmatching, hverify, AList.lookup_isSome.2 hmember⟩

/-- Of the prevotes on file only the weight is open. -/
theorem Accountable.provesQuorum (h : Accountable c) (x : String) (round : ℕ) :
    c.ProvesQuorum x round (c.prevoteCertificate x round) ↔
      c.Weighty (c.prevoteCertificate x round) := by
  refine ⟨fun hproves => hproves.weighty, fun hweighty => ⟨fun m hm => ?_, ?_, hweighty⟩⟩
  · obtain ⟨⟨k, hk⟩, hvotes⟩ := mem_prevoteCertificate.1 hm
    exact ⟨hvotes, (h.message k m hk).2⟩
  · exact h.filed.nodup_prevoteCertificate

omit [Crypto] in
theorem checkLock_eq_ok {p : SignedProposal} :
    c.checkLock p = .ok () ↔ ∀ y, c.lockedValue = some y → y = p.block.hash ∨
      ∃ vr l, p.validRound = some vr ∧ c.lockedRound = some l ∧ l ≤ vr := by
  unfold checkLock
  cases c.lockedValue with
  | none => simp
  | some y =>
      cases p.validRound with
      | none => simp [or_iff_not_imp_left]
      | some vr =>
          cases c.lockedRound with
          | none => simp [or_iff_not_imp_left]
          | some l => simp [or_iff_not_imp_left]

end

end BftConsensus

namespace ConsensusRuntime

section
variable [Crypto] {rt : ConsensusRuntime} {env : Env}

/-- The valid value can be proposed again: its round has passed, its block still fits the chain,
the lock does not stand in the way, and the prevotes on file for it, or those kept with it if
none is on file, have a quorum. -/
structure Reproposable (env : Env) (rt : ConsensusRuntime) (b : Block) (x : String) (vr : ℕ) :
    Prop where
  passed : vr < rt.consensus.round
  fits : rt.checkProposedBlock env b = .ok ()
  unlocked : ∀ y, rt.consensus.lockedValue = some y → y = x ∨
    ∃ l, rt.consensus.lockedRound = some l ∧ l ≤ vr
  proof : if rt.consensus.prevoteCertificate x vr = [] then
      rt.consensus.ProvesQuorum x vr rt.validRoundPrevotes
    else rt.consensus.Weighty (rt.consensus.prevoteCertificate x vr)

/-- The node works on the height after the tip, and a valid value can be proposed again. -/
def ProposesAcceptably (env : Env) (rt : ConsensusRuntime) : Prop :=
  rt.consensus.height = rt.chain.tipHeight + 1 ∧
    ∀ b x vr, rt.validBlock = some b → rt.consensus.validPair = some (x, vr) →
      Reproposable env rt b x vr

/-- What a proposal that the node hands out consists of. -/
theorem makeProposal_eq_ok {block : Block} {p : SignedProposal}
    (h : (rt.makeProposal env block).2 = .ok p) :
    rt.consensus.phase = .propose ∧ rt.validator = rt.consensus.expectedProposer ∧
      p.verify = .ok () ∧ p.height = p.block.height ∧ p.round = rt.consensus.round ∧
      p.proposerId = rt.validator ∧
      rt.proposalContent block = .ok (p.block, p.validRound, p.validRoundPrevotes) := by
  unfold makeProposal at h
  cases hprepared : rt.prepareProposal block with
  | error e =>
      rw [hprepared] at h
      cases h
  | ok content =>
      obtain ⟨b, validRound, prevotes⟩ := content
      rw [hprepared] at h
      simp only [prepareProposal, check_bind_eq_ok, reject_eq_ok, not_not] at hprepared
      obtain ⟨hphase, hproposer, hcontent⟩ := hprepared
      unfold sign at h
      dsimp only at h
      cases hsignature : env.sign _ with
      | error e =>
          rw [hsignature] at h
          cases h
      | ok signature =>
          rw [hsignature] at h
          dsimp only at h
          obtain ⟨u, hverify, rfl⟩ := map_eq_ok.1 h
          exact ⟨hphase, hproposer, hverify, rfl, rfl, rfl, hcontent⟩

/-- A working signer signs every vote. -/
theorem signVote_eq_ok (hsigner : rt.SignerWorks env) (height round : ℕ) (voteType : VoteType)
    (x : String) : ∃ vote, (rt.signVote env height round voteType x).2 = .ok vote := by
  obtain ⟨signature, hsign, hverify⟩ := hsigner (.vote height round voteType x)
  unfold signVote sign
  rw [hsign]
  refine ⟨_, map_eq_ok.2 ⟨(), ?_, rfl⟩⟩
  exact hverify

/-- A proposal is answered exactly when it passes the checks of the node and of the machine. -/
theorem receiveProposal_ok_iff (hsigner : rt.SignerWorks env) {p : SignedProposal} :
    (∃ vote, (rt.receiveProposal env p).2 = .ok vote) ↔
      rt.checkProposedBlock env p.block = .ok () ∧ rt.consensus.checkProposal p = .ok () ∧
        rt.consensus.checkPropose p.proposerId p.block.hash = .ok () := by
  rw [← BftConsensus.handleProposal_ok_iff]
  unfold receiveProposal
  cases hblock : rt.checkProposedBlock env p.block with
  | error e => simp
  | ok u =>
      dsimp only
      cases hhandled : rt.consensus.handleProposal p with
      | mk c result =>
          cases result with
          | error e => simp
          | ok u =>
              refine ⟨fun _ => ⟨rfl, rfl⟩, fun _ => ?_⟩
              have hworks : ({ rt with consensus := c, pending := some p.block }.resetDeadline
                  env).SignerWorks env := hsigner
              exact signVote_eq_ok hworks ..

theorem hash_ne_empty (hdigest : ∀ bytes, (Crypto.sha256 bytes).length = 32) {p : SignedProposal}
    (hverify : p.verify = .ok ()) : p.block.hash ≠ "" := by
  simp only [SignedProposal.verify, check_bind_eq_ok, reject_eq_ok, not_not] at hverify
  obtain ⟨-, hhash, -⟩ := hverify
  intro hempty
  have hlength := ByteCodec.length_hexEncode (Crypto.sha256 p.block.hashPreimage)
  rw [hdigest, ← sha256Hex, ← Block.calculateHash, ← hhash, hempty] at hlength
  cases hlength

/-- The checks that are left for a proposal that the node made itself. -/
theorem receiveProposal_own (h : rt.consensus.Accountable) {env' : Env}
    (hdigest : ∀ bytes, (Crypto.sha256 bytes).length = 32) (hsigner : rt.SignerWorks env')
    {block : Block} {p : SignedProposal} (hmade : (rt.makeProposal env block).2 = .ok p) :
    (∃ vote, (rt.receiveProposal env' p).2 = .ok vote) ↔
      rt.checkProposedBlock env' p.block = .ok () ∧ p.block.height = rt.consensus.height ∧
        (∀ vr, p.validRound = some vr →
          rt.consensus.verifyValidRoundCertificate p vr = .ok ()) ∧
        (p.validRound = none → p.validRoundPrevotes = []) ∧
        rt.consensus.checkLock p = .ok () := by
  obtain ⟨hphase, hproposer, hverify, hheight, hround, hid, -⟩ := makeProposal_eq_ok hmade
  have hpropose : rt.consensus.checkPropose p.proposerId p.block.hash = .ok () := by
    simp only [BftConsensus.checkPropose, check_bind_eq_ok, reject_eq_ok, not_not]
    exact ⟨hphase, hid.trans hproposer, hash_ne_empty hdigest hverify⟩
  have hmember : p.proposerId ∈ rt.consensus.validators := by
    rw [hid, hproposer]
    exact BftConsensus.expectedProposer_mem h.seats
  rw [receiveProposal_ok_iff hsigner]
  simp only [BftConsensus.checkProposal, check_bind_eq_ok, reject_eq_ok, hverify, hround, hmember,
    hpropose, hheight, not_or, not_not, true_and, and_true]
  cases p.validRound with
  | none =>
      dsimp only
      rw [check_bind_eq_ok]
      simp
  | some vr =>
      dsimp only
      rw [check_bind_eq_ok]
      simp

/-- A node accepts its new block at the height after the tip. -/
theorem acceptsOwn_new (h : rt.consensus.Accountable) {env' : Env}
    (hdigest : ∀ bytes, (Crypto.sha256 bytes).length = 32) (hsigner : rt.SignerWorks env')
    {block : Block} (hblock : rt.checkProposedBlock env' block = .ok ()) {p : SignedProposal}
    (hmade : (rt.makeProposal env block).2 = .ok p) (hpair : rt.consensus.validPair = none) :
    (∃ vote, (rt.receiveProposal env' p).2 = .ok vote) ↔
      rt.consensus.height = rt.chain.tipHeight + 1 := by
  have hcontent : rt.proposalContent block = .ok (block, none, []) := by
    unfold proposalContent
    rw [hpair]
    cases rt.validBlock <;> rfl
  obtain ⟨-, -, -, -, -, -, hmadeOf⟩ := makeProposal_eq_ok hmade
  rw [hcontent, Except.ok.injEq, Prod.mk.injEq, Prod.mk.injEq] at hmadeOf
  obtain ⟨hbody, hround, hproof⟩ := hmadeOf
  have hunlocked : rt.consensus.lockedValue = none := by
    have hvalue : rt.consensus.validValue.isSome = false := by
      rw [BftConsensus.validPair] at hpair
      have hpaired := h.paired
      cases hv : rt.consensus.validValue with
      | none => rfl
      | some x =>
          cases hr : rt.consensus.validRound with
          | none => simp [hv, hr] at hpaired
          | some vr => simp [hv, hr] at hpair
    have hlocked := h.locked
    rw [hvalue] at hlocked
    cases hl : rt.consensus.lockedValue with
    | none => rfl
    | some y => simp [hl] at hlocked
  have hheight : block.height = rt.chain.tipHeight + 1 := by
    simp only [checkProposedBlock, check_bind_eq_ok, reject_eq_ok, not_or, not_not] at hblock
    exact hblock.1.2
  rw [receiveProposal_own h hdigest hsigner hmade, BftConsensus.checkLock_eq_ok, ← hbody, ← hround,
    ← hproof, hblock, hunlocked, hheight]
  simp [eq_comm]

/-- A node accepts the block of its valid value again if it can be proposed again. -/
theorem acceptsOwn_valid (h : rt.consensus.Accountable) {env' : Env}
    (hdigest : ∀ bytes, (Crypto.sha256 bytes).length = 32) (hsigner : rt.SignerWorks env')
    {block : Block} {p : SignedProposal} (hmade : (rt.makeProposal env block).2 = .ok p)
    {b : Block} {x : String} {vr : ℕ} (hvalid : rt.validBlock = some b)
    (hpair : rt.consensus.validPair = some (x, vr)) :
    (∃ vote, (rt.receiveProposal env' p).2 = .ok vote) ↔
      rt.consensus.height = rt.chain.tipHeight + 1 ∧ Reproposable env' rt b x vr := by
  obtain ⟨-, -, -, hheight, hround, -, hmadeOf⟩ := makeProposal_eq_ok hmade
  have hbody : b.hash = x ∧ p.block = b ∧ p.validRound = some vr ∧ p.validRoundPrevotes =
      if rt.consensus.prevoteCertificate x vr = [] then rt.validRoundPrevotes
      else rt.consensus.prevoteCertificate x vr := by
    unfold proposalContent at hmadeOf
    rw [hvalid, hpair] at hmadeOf
    dsimp only at hmadeOf
    split_ifs at hmadeOf with hhash hfiled hkept
    all_goals
      rw [Except.ok.injEq, Prod.mk.injEq, Prod.mk.injEq] at hmadeOf
      obtain ⟨rfl, hvr, hproof⟩ := hmadeOf
      refine ⟨hhash, rfl, hvr.symm, ?_⟩
    · rw [if_pos hfiled]
      exact hproof.symm
    · rw [if_neg hfiled]
      exact hproof.symm
  obtain ⟨rfl, hblock, hvr, hproof⟩ := hbody
  have hfits : rt.checkProposedBlock env' b = .ok () → b.height = rt.chain.tipHeight + 1 := by
    intro hok
    simp only [checkProposedBlock, check_bind_eq_ok, reject_eq_ok, not_or, not_not] at hok
    exact hok.1.2
  have hproves : rt.consensus.ProvesQuorum b.hash vr p.validRoundPrevotes ↔
      if rt.consensus.prevoteCertificate b.hash vr = [] then
        rt.consensus.ProvesQuorum b.hash vr rt.validRoundPrevotes
      else rt.consensus.Weighty (rt.consensus.prevoteCertificate b.hash vr) := by
    rw [hproof]
    split_ifs
    · rfl
    · exact h.provesQuorum b.hash vr
  rw [receiveProposal_own h hdigest hsigner hmade, BftConsensus.checkLock_eq_ok, hblock, hvr]
  constructor
  · rintro ⟨hok, hlevel, hcertificate, -, hlock⟩
    have hverified := (BftConsensus.verifyValidRoundCertificate_eq_ok
      (by rw [hheight, hblock, hlevel])).1 (hcertificate vr rfl)
    rw [hround, hblock, hproves] at hverified
    refine ⟨by rw [← hlevel, hfits hok], hverified.1, hok, fun y hy => ?_, hverified.2⟩
    rcases hlock y hy with hsame | ⟨vr', l, hvr', hl, hle⟩
    · exact .inl hsame
    · cases hvr'
      exact .inr ⟨l, hl, hle⟩
  · rintro ⟨hlevel, hpassed, hok, hunlocked, hcertificate⟩
    have hheights : p.height = rt.consensus.height := by rw [hheight, hblock, hfits hok, hlevel]
    refine ⟨hok, by rw [hfits hok, hlevel], fun vr' hvr' => ?_, nofun, fun y hy => ?_⟩
    · cases hvr'
      rw [BftConsensus.verifyValidRoundCertificate_eq_ok hheights, hround, hblock, hproves]
      exact ⟨hpassed, hcertificate⟩
    · rcases hunlocked y hy with hsame | ⟨l, hl, hle⟩
      · exact .inl hsame
      · exact .inr ⟨vr, l, rfl, hl, hle⟩

/-- A node accepts its own proposal at the height after the tip if a valid value that it has can
be proposed again. -/
theorem acceptsOwn_iff (h : rt.consensus.Accountable) {env' : Env}
    (hdigest : ∀ bytes, (Crypto.sha256 bytes).length = 32) (hsigner : rt.SignerWorks env')
    {block : Block} (hblock : rt.checkProposedBlock env' block = .ok ()) {p : SignedProposal}
    (hmade : (rt.makeProposal env block).2 = .ok p) :
    (∃ vote, (rt.receiveProposal env' p).2 = .ok vote) ↔ ProposesAcceptably env' rt := by
  cases hpair : rt.consensus.validPair with
  | none =>
      rw [acceptsOwn_new h hdigest hsigner hblock hmade hpair, ProposesAcceptably, hpair]
      simp
  | some pair =>
      obtain ⟨x, vr⟩ := pair
      cases hvalid : rt.validBlock with
      | none =>
          obtain ⟨-, -, -, -, -, -, hmadeOf⟩ := makeProposal_eq_ok hmade
          rw [proposalContent, hvalid, hpair] at hmadeOf
          cases hmadeOf
      | some b =>
          rw [acceptsOwn_valid h hdigest hsigner hmade hvalid hpair, ProposesAcceptably, hvalid,
            hpair]
          refine and_congr_right fun _ => ⟨?_, fun hall => hall b x vr rfl rfl⟩
          rintro hone b' x' vr' hb' hpair'
          cases hb'
          cases hpair'
          exact hone

/-- In every run a node accepts its own proposal, of a block that fits, exactly when it works on
the height after the tip and a valid value that it has can be proposed again. -/
theorem accepts_own_proposal_iff {validators : List Validator} {rt₀ : ConsensusRuntime}
    (hstart : Prepared validators rt₀) (hrun : Reached (fun _ _ _ => True) rt₀ rt) {env' : Env}
    (hdigest : ∀ bytes, (Crypto.sha256 bytes).length = 32) (hsigner : rt.SignerWorks env')
    {block : Block} (hblock : rt.checkProposedBlock env' block = .ok ()) {p : SignedProposal}
    (hmade : (rt.makeProposal env block).2 = .ok p) :
    (∃ vote, (rt.receiveProposal env' p).2 = .ok vote) ↔ ProposesAcceptably env' rt := by
  have haccountable : rt.consensus.Accountable :=
    machine_invariant (fun _ _ hnew => BftConsensus.accountable_new hnew)
      (fun _ input hc => hc.after input) hstart hrun
  exact acceptsOwn_iff haccountable hdigest hsigner hblock hmade

omit [Crypto] in
/-- A valid block with prevotes on file is what the node has to propose. -/
theorem proposalContent_valid (block : Block) {b : Block} {vr : ℕ} (hvalid : rt.validBlock = some b)
    (hpair : rt.consensus.validPair = some (b.hash, vr))
    (hproof : rt.consensus.prevoteCertificate b.hash vr ≠ []) :
    rt.proposalContent block =
      .ok (b, some vr, rt.consensus.prevoteCertificate b.hash vr) := by
  unfold proposalContent
  rw [hvalid, hpair]
  simp [hproof]

/-- The proposer of a round with a working signer hands out what it has to propose. -/
theorem exists_makeProposal (hsigner : rt.SignerWorks env)
    (hphase : rt.consensus.phase = .propose)
    (hproposer : rt.consensus.expectedProposer = rt.validator) {block b : Block}
    {validRound : Option ℕ} {prevotes : List ConsensusMessage}
    (hcontent : rt.proposalContent block = .ok (b, validRound, prevotes))
    (hhash : b.hash = b.calculateHash) : ∃ p, (rt.makeProposal env block).2 = .ok p := by
  have hprepared : rt.prepareProposal block = .ok (b, validRound, prevotes) := by
    simp only [prepareProposal, check_bind_eq_ok, reject_eq_ok, not_not]
    exact ⟨hphase, hproposer.symm, hcontent⟩
  obtain ⟨signature, hsign, hverify⟩ :=
    hsigner (.proposal b.height rt.consensus.round b.hash validRound prevotes)
  unfold makeProposal sign
  rw [hprepared]
  dsimp only
  rw [hsign]
  refine ⟨_, map_eq_ok.2 ⟨(), ?_, rfl⟩⟩
  simp only [SignedProposal.verify, check_bind_eq_ok, reject_eq_ok, not_not]
  exact ⟨trivial, hhash, hverify⟩

end

end ConsensusRuntime

namespace Quartet

open ConsensusRuntime

attribute [local instance] timeoutsCrypto

section
variable {rt : ConsensusRuntime}

theorem expectedProposer_fresh (h : started = .ok rt) :
    rt.consensus.expectedProposer = rt.validator := by
  have hall : (started.toOption.all fun rt =>
      decide (rt.consensus.expectedProposer = rt.validator)) = true := by decide
  rw [h] at hall
  exact of_decide_eq_true hall

theorem checkProposedBlock_fresh (h : started = .ok rt) :
    rt.checkProposedBlock env emptyBlock = .ok () := by
  have hvalue := checkRoundChangeValue_gaveUp h 0
  simp only [ConsensusRuntime.checkRoundChangeValue, check_bind_eq_ok, reject_eq_ok] at hvalue
  simp only [ConsensusRuntime.checkProposedBlock, check_bind_eq_ok, reject_eq_ok]
  refine ⟨?_, hvalue.2.2⟩
  have htip : chain.tipHeight = 0 := rfl
  rw [(started_spec h).1]
  simp [emptyBlock, Block.new, Block.sealed, htip]

theorem length_sha256 (bytes : ByteCodec.Bytes) : (Crypto.sha256 bytes).length = 32 :=
  StandIn.length_digest bytes

/-- The fresh node proposes the block that it is given. -/
theorem proposal_fresh (h : started = .ok rt) : rt.consensus.validPair = none ∧
    ∃ p, (rt.makeProposal env emptyBlock).2 = .ok p ∧ p.block = emptyBlock := by
  obtain ⟨⟨-, -, hphase⟩, ⟨hvalid, -⟩, -, -, -⟩ := fresh_spec h
  have hpair : rt.consensus.validPair = none := by
    rw [BftConsensus.validPair, hvalid]
    cases rt.consensus.validValue <;> rfl
  have hcontent : rt.proposalContent emptyBlock = .ok (emptyBlock, none, []) := by
    unfold proposalContent
    rw [hpair]
    cases rt.validBlock <;> rfl
  obtain ⟨p, hmade⟩ := exists_makeProposal (signerWorks h) hphase (expectedProposer_fresh h)
    hcontent (Block.new_hash ..)
  obtain ⟨-, -, -, -, -, -, hproposed⟩ := makeProposal_eq_ok hmade
  rw [hcontent] at hproposed
  exact ⟨hpair, p, hmade, (Prod.mk.inj (Except.ok.inj hproposed)).1.symm⟩

end

/-- The valid value of round 1 makes the proposer of round 0 propose what it then refuses. -/
theorem proposer_refuses_own : ∃ rt₀ rt p e, Prepared members rt₀ ∧
    Reached (fun _ _ _ => True) rt₀ rt ∧ rt.SignerWorks env ∧
    rt.checkProposedBlock env emptyBlock = .ok () ∧ (rt.makeProposal env emptyBlock).2 = .ok p ∧
    (rt.receiveProposal env p).2 = .error e := by
  obtain ⟨rt₀, h⟩ := started_ok
  obtain ⟨rt, hrt⟩ : ∃ rt, rt = (rt₀.run env (.receiveRoundChange (gaveUp 1))).1 := ⟨_, rfl⟩
  obtain ⟨hmachine, hvalid, -, -, hworks⟩ := state_gaveUp h (le_refl 1) hrt
  obtain ⟨⟨-, hround, hphase⟩, -, -, -, -⟩ := fresh_spec h
  obtain ⟨hpair, hproof⟩ := adopting_locked h 1
  rw [← hmachine] at hpair hproof
  have hcore : rt₀.consensus.SameCore rt.consensus := by
    rw [hmachine]
    exact rt₀.consensus.sameCore_adoptValidValue emptyBlock.hash 1 (lockedValue 1).prevotes
  have hcase := receiveRoundChange_gaveUp h (le_refl 1)
  rw [← hrt] at hcase
  obtain ⟨hground, -, -, -⟩ := filed_ground (rt₀.adopting (lockedValue 1)) (gaveUp 1)
  have hframe := (frame_pruneRoundChanges
    ((rt₀.adopting (lockedValue 1)).recordRoundChange (gaveUp 1))).1
  rw [← hcase] at hground hframe
  have hrun : Reached (fun _ _ _ => True) rt₀ rt :=
    reached_call trivial hrt.symm
  have hblock : rt.checkProposedBlock env emptyBlock = .ok () := by
    have hfresh := checkProposedBlock_fresh h
    unfold checkProposedBlock at hfresh ⊢
    rw [hground.chain, hground.verdict]
    exact hfresh
  have hself : rt.consensus.expectedProposer = rt.validator := by
    have hvalidator : rt.validator = rt₀.validator := hframe.validator
    rw [hvalidator]
    refine Eq.trans ?_ (expectedProposer_fresh h)
    unfold BftConsensus.expectedProposer
    rw [hcore.validators, hcore.height, hcore.round]
  have hcontent := proposalContent_valid emptyBlock hvalid hpair hproof
  obtain ⟨p, hmade⟩ := exists_makeProposal hworks (hcore.phase.trans hphase) hself hcontent
    (Block.new_hash ..)
  have haccountable : rt.consensus.Accountable :=
    machine_invariant (fun _ _ hnew => BftConsensus.accountable_new hnew)
      (fun _ input hc => hc.after input) (prepared h) hrun
  refine ⟨rt₀, rt, p, ?_⟩
  cases hanswer : (rt.receiveProposal env p).2 with
  | error e => exact ⟨e, prepared h, hrun, hworks, hblock, hmade, rfl⟩
  | ok vote =>
      have haccepts := (acceptsOwn_iff haccountable length_sha256 hworks hblock hmade).1
        ⟨vote, hanswer⟩
      have hpassed := (haccepts.2 emptyBlock emptyBlock.hash 1 hvalid hpair).passed
      rw [hcore.round, hround] at hpassed
      cases hpassed

end Quartet

/-! Of two validators the first has nearly all the power. It has prevoted a block and gives up
round 0, and the second one is called to round 1. -/

namespace Weighted

open ConsensusRuntime
open Quartet (emptyBlock prevoteOf length_sha256)

attribute [local instance] Quartet.timeoutsCrypto

def members : List Validator := [⟨StandIn.address 1, 10⟩, ⟨StandIn.address 2, 1⟩]

def env : Env :=
  { unixNow := some 10, instant := 0, sign := fun bytes => .ok (StandIn.sign 2 bytes) }

def started : Except String ConsensusRuntime :=
  withSigner Quartet.chain members (StandIn.address 2) ⟨1, 1, 1⟩ 0

def gaveUp : SignedRoundChange :=
  { chainId := Quartet.chain.chainId, genesisCommitment := Quartet.chain.genesisCommitment
    height := 1, round := 0, validatorId := StandIn.address 1
    validValue := some { block := emptyBlock, validRound := 0, prevotes := [prevoteOf 0 1] }
    signature := StandIn.sign 1 (SignedRoundChange.bytesToSign Quartet.chain.chainId
      Quartet.chain.genesisCommitment 1 0 (StandIn.address 1)) }

/-- The block that the second validator would have proposed. -/
def ownBlock : Block := Block.new 1 Quartet.chain.tipHash 6 (StandIn.address 2) []

/-- In round 1 the second validator is to propose, and the first one's block is its valid value. -/
abbrev CalledOn (rt : ConsensusRuntime) : Prop :=
  (rt.validator = StandIn.address 2 ∧ rt.consensus.phase = .propose ∧
      rt.consensus.expectedProposer = rt.validator) ∧
    (rt.checkProposedBlock env ownBlock = .ok () ∧ rt.checkProposedBlock env emptyBlock = .ok ()) ∧
    (rt.consensus.height = rt.chain.tipHeight + 1 ∧ rt.consensus.round = 1 ∧
      rt.consensus.lockedValue = none) ∧
    (rt.validBlock = some emptyBlock ∧ rt.consensus.validPair = some (emptyBlock.hash, 0)) ∧
    rt.consensus.prevoteCertificate emptyBlock.hash 0 = [prevoteOf 0 1] ∧
    rt.consensus.powerBehind [prevoteOf 0 1] ≤ u64Max ∧
    BftConsensus.exceedsTwoThirds (rt.consensus.powerBehind [prevoteOf 0 1])
      rt.consensus.totalPower = true

theorem calledOn_gaveUp : ∃ rt, started = .ok rt ∧
    CalledOn (rt.run env (.receiveRoundChange gaveUp)).1 := by
  decide +kernel

section
variable {rt : ConsensusRuntime}

theorem signerWorks_calledOn (h : CalledOn rt) : rt.SignerWorks env := by
  intro payload
  rw [h.1.1]
  exact ⟨_, rfl, StandIn.verifySignature_sign _ 2 _⟩

theorem proposesAcceptably_calledOn (h : CalledOn rt) : ProposesAcceptably env rt := by
  obtain ⟨-, ⟨-, hfits⟩, ⟨hheight, hround, hlock⟩, ⟨hvalid, hpair⟩, hproof, hpower, hquorum⟩ := h
  refine ⟨hheight, fun b x vr hb hvr => ?_⟩
  obtain rfl := Option.some.inj (hvalid.symm.trans hb)
  obtain ⟨rfl, rfl⟩ := Prod.mk.inj (Option.some.inj (hpair.symm.trans hvr))
  refine ⟨by rw [hround]; exact Nat.one_pos, hfits, fun y hy => ?_, ?_⟩
  · cases hlock.symm.trans hy
  · rw [hproof, if_neg (List.cons_ne_nil _ _)]
    exact ⟨hpower, hquorum⟩

theorem makeProposal_calledOn (h : CalledOn rt) :
    ∃ p, (rt.makeProposal env ownBlock).2 = .ok p ∧ p.block = emptyBlock ∧ p.validRound = some 0 := by
  have hworks := signerWorks_calledOn h
  obtain ⟨⟨-, hphase, hproposer⟩, -, -, ⟨hvalid, hpair⟩, hproof, -⟩ := h
  have hcontent := proposalContent_valid ownBlock hvalid hpair
    (hproof ▸ List.cons_ne_nil _ _)
  obtain ⟨p, hmade⟩ := exists_makeProposal hworks hphase hproposer hcontent (Block.new_hash ..)
  obtain ⟨-, -, -, -, -, -, hproposed⟩ := makeProposal_eq_ok hmade
  rw [hcontent] at hproposed
  obtain ⟨hblock, hrest⟩ := Prod.mk.inj (Except.ok.inj hproposed)
  exact ⟨p, hmade, hblock.symm, (Prod.mk.inj hrest).1.symm⟩

end

/-- It proposes the cached block again and accepts its own proposal. -/
theorem accepts_own_proposal_iff_weighted : ∃ rt₀ rt p, Prepared members rt₀ ∧
    Reached (fun _ _ _ => True) rt₀ rt ∧ (rt.makeProposal env ownBlock).2 = .ok p ∧
    p.block = emptyBlock ∧ p.validRound = some 0 ∧
    (∃ vote, (rt.receiveProposal env p).2 = .ok vote) ∧ ProposesAcceptably env rt := by
  obtain ⟨rt₀, hstarted, hcalled⟩ := calledOn_gaveUp
  obtain ⟨rt, hrt⟩ : ∃ rt, (rt₀.run env (.receiveRoundChange gaveUp)).1 = rt := ⟨_, rfl⟩
  rw [hrt] at hcalled
  have hstart : Prepared members rt₀ := ⟨Quartet.chain, _, _, _, rt₀, _, _, _, _, _, hstarted, rfl⟩
  have hrun : Reached (fun _ _ _ => True) rt₀ rt := reached_call trivial hrt
  have hacceptably := proposesAcceptably_calledOn hcalled
  obtain ⟨p, hmade, hblock, hround⟩ := makeProposal_calledOn hcalled
  exact ⟨rt₀, rt, p, hstart, hrun, hmade, hblock, hround,
    (accepts_own_proposal_iff hstart hrun length_sha256 (signerWorks_calledOn hcalled)
      hcalled.2.1.1 hmade).2 hacceptably, hacceptably⟩

end Weighted

end IeumChain
