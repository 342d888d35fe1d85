import IeumChain.OwnProposals
import IeumChain.QuorumWords

/-!
# Rejected proposals

A proposal that carries prevotes of an earlier round replaces the valid value before phase,
proposer and hash are looked at. A proposal that only these refuse has left its value behind.
-/
namespace IeumChain

open ByteCodec Text Outcome MachineWords FiniteMap VoteTally

namespace BftConsensus

section
variable [Crypto]

/-- A proposal of this height and round with a valid signature, a valid certificate of another
value than the one kept, and a block that the lock lets pass, which comes out of phase, from
someone else than the proposer, or without a hash. -/
structure Overwrites (c : BftConsensus) (p : SignedProposal) (validRound : ℕ) : Prop where
  current : p.height = c.height ∧ p.round = c.round
  registered : p.proposerId ∈ c.validators
  verified : p.verify = .ok ()
  proved : p.validRound = some validRound
  certified : c.verifyValidRoundCertificate p validRound = .ok ()
  unlocked : c.checkLock p = .ok ()
  refused : c.phase ≠ .propose ∨ p.proposerId ≠ c.expectedProposer ∨ p.block.hash = ""
  other : c.validValue ≠ some p.block.hash ∨ c.validRound ≠ some validRound

omit [Crypto] in
theorem checkPropose_ok_iff {c : BftConsensus} {proposer blockHash : String} :
    c.checkPropose proposer blockHash = .ok () ↔
      c.phase = .propose ∧ proposer = c.expectedProposer ∧ blockHash ≠ "" := by
  simp only [checkPropose, check_bind_eq_ok, reject_eq_ok, not_not, ne_eq]

omit [Crypto] in
theorem propose_refused {c : BftConsensus} {proposer blockHash : String}
    (h : c.checkPropose proposer blockHash ≠ .ok ()) : (c.propose proposer blockHash).1 = c := by
  unfold propose
  cases hcheck : c.checkPropose proposer blockHash with
  | error e => rfl
  | ok u => exact absurd hcheck h

/-- What a proposal leaves behind that passes the first checks and not the last. -/
theorem handleProposal_refused {c : BftConsensus} {p : SignedProposal}
    (hcheck : c.checkProposal p = .ok ())
    (hpropose : c.checkPropose p.proposerId p.block.hash ≠ .ok ()) :
    (c.handleProposal p).1 = c.noteValidRound p := by
  have hlate : (c.noteValidRound p).checkPropose p.proposerId p.block.hash ≠ .ok () := by
    unfold noteValidRound
    cases p.validRound <;> exact hpropose
  unfold handleProposal
  rw [hcheck]
  exact propose_refused hlate

theorem checkProposal_ok_iff {c : BftConsensus} {p : SignedProposal} {validRound : ℕ}
    (hproved : p.validRound = some validRound) :
    c.checkProposal p = .ok () ↔
      (p.height = c.height ∧ p.round = c.round) ∧ p.proposerId ∈ c.validators ∧
        p.verify = .ok () ∧ c.verifyValidRoundCertificate p validRound = .ok () ∧
        c.checkLock p = .ok () := by
  simp only [checkProposal, hproved, check_bind_eq_ok, reject_eq_ok, not_or, not_not]

omit [Crypto] in
theorem noteValidRound_eq_iff {c : BftConsensus} {p : SignedProposal} :
    c.noteValidRound p = c ↔ ∀ validRound, p.validRound = some validRound →
      c.validValue = some p.block.hash ∧ c.validRound = some validRound := by
  unfold noteValidRound
  cases p.validRound with
  | none => simp
  | some validRound =>
      simp only [Option.some.injEq, forall_eq']
      constructor
      · intro h
        have hvalue := congrArg BftConsensus.validValue h
        have hround := congrArg BftConsensus.validRound h
        exact ⟨hvalue.symm, hround.symm⟩
      · intro ⟨hvalue, hround⟩
        cases c
        simp only at hvalue hround
        subst hvalue hround
        rfl

/-- Exactly when a rejected proposal leaves no trace: unless it proves another valid value and
is refused only for its phase, its proposer or its empty hash. -/
theorem rejected_no_trace_iff (c : BftConsensus) (p : SignedProposal) :
    (∀ e, (c.handleProposal p).2 = .error e → (c.handleProposal p).1 = c) ↔
      ¬∃ validRound, c.Overwrites p validRound := by
  constructor
  · rintro hkeeps ⟨validRound, h⟩
    have hcheck := (checkProposal_ok_iff h.proved).2
      ⟨h.current, h.registered, h.verified, h.certified, h.unlocked⟩
    have hpropose : c.checkPropose p.proposerId p.block.hash ≠ .ok () := by
      rw [ne_eq, checkPropose_ok_iff]
      rintro ⟨hphase, hproposer, hhash⟩
      rcases h.refused with hrefused | hrefused | hrefused
      · exact hrefused hphase
      · exact hrefused hproposer
      · exact hhash hrefused
    have hrejected : ∃ e, (c.handleProposal p).2 = .error e := by
      cases hresult : (c.handleProposal p).2 with
      | error e => exact ⟨e, rfl⟩
      | ok u => exact absurd (handleProposal_ok_iff.1 hresult).2 hpropose
    obtain ⟨e, he⟩ := hrejected
    have hsame := hkeeps e he
    rw [handleProposal_refused hcheck hpropose, noteValidRound_eq_iff] at hsame
    obtain ⟨hvalue, hround⟩ := hsame validRound h.proved
    exact h.other.elim (fun hother => hother hvalue) fun hother => hother hround
  · intro hnot e he
    have hpropose : c.checkProposal p = .ok () →
        c.checkPropose p.proposerId p.block.hash ≠ .ok () := by
      intro hcheck hok
      have hresult := handleProposal_ok_iff.2 ⟨hcheck, hok⟩
      cases hresult.symm.trans he
    cases hcheck : c.checkProposal p with
    | error message =>
        unfold handleProposal
        rw [hcheck]
    | ok u =>
        rw [handleProposal_refused hcheck (hpropose hcheck), noteValidRound_eq_iff]
        intro validRound hproved
        have hchecks := (checkProposal_ok_iff hproved).1 hcheck
        obtain ⟨hcurrent, hregistered, hverified, hcertified, hunlocked⟩ := hchecks
        have hrefused := hpropose hcheck
        rw [ne_eq, checkPropose_ok_iff] at hrefused
        by_contra hother
        refine hnot ⟨validRound, hcurrent, hregistered, hverified, hproved, hcertified, hunlocked,
          ?_, by tauto⟩
        tauto

end

end BftConsensus

/-! A proposal that arrives when another one is up for prevotes. -/

namespace Lone

attribute [local instance] agreementCrypto

def lateReproposal : SignedProposal :=
  { reproposal with
    signature := StandIn.sign 1
      (SignedProposal.bytesToSign 1 1 self block.hash (some 0) [vote block .prevote]) }

/-- The machine of a list while another block is up for prevotes in round 1. -/
def prevoting (c : BftConsensus) : BftConsensus :=
  { c with height := 1, round := 1, phase := .prevote, proposal := some "other" }

theorem checkProposal_late {c₀ : BftConsensus} (hnew : BftConsensus.new [⟨self, 1⟩] = .ok c₀)
    (hlocked : c₀.lockedValue = none) :
    (prevoting c₀).checkProposal lateReproposal = .ok () := by
  have hmember : self ∈ (prevoting c₀).validators := by
    obtain ⟨-, hmap, hlookup, -, -⟩ := BftConsensus.new_spec hnew
    have hself := hlookup ⟨self, 1⟩ (List.mem_singleton_self _)
    rw [← hmap] at hself
    have hsome : (c₀.validators.lookup self).isSome = true := Option.isSome_iff_exists.2 ⟨1, hself⟩
    exact AList.lookup_isSome.1 hsome
  have hverify : lateReproposal.verify = .ok () := by
    simp only [SignedProposal.verify, check_bind_eq_ok, reject_eq_ok, not_not]
    exact ⟨rfl, Block.new_hash .., StandIn.verifySignature_sign _ 1 _⟩
  have hcertified : (prevoting c₀).verifyValidRoundCertificate lateReproposal 0 = .ok () :=
    (verifyValidRoundCertificate_iff hnew (.refl _) rfl rfl Nat.zero_lt_one
      (votesOf_self 1 .prevote)).2 (by decide)
  have hlock : (prevoting c₀).checkLock lateReproposal = .ok () := by
    rw [BftConsensus.checkLock, show (prevoting c₀).lockedValue = none from hlocked]
  exact (BftConsensus.checkProposal_ok_iff rfl).2 ⟨⟨rfl, rfl⟩, hmember, hverify, hcertified, hlock⟩

/-- The second proposal of a round is refused, but the value it proves has replaced the one
that was kept. -/
theorem late_value_left : ∃ c₀, BftConsensus.new [⟨self, 1⟩] = .ok c₀ ∧
    (∃ e, ((prevoting c₀).handleProposal lateReproposal).2 = .error e) ∧
    ((prevoting c₀).handleProposal lateReproposal).1 ≠ prevoting c₀ := by
  obtain ⟨c₀, hnew⟩ := @BftConsensus.new_ok [⟨self, 1⟩] (List.cons_ne_nil _ _)
    (List.forall_mem_singleton.2 Nat.one_ne_zero) (List.nodup_singleton _)
  have hfresh : c₀.lockedValue = none ∧ c₀.validValue = none := by
    simp only [BftConsensus.new, bind_eq_ok, pure_eq_ok] at hnew
    obtain ⟨-, -, map, -, rfl⟩ := hnew
    exact ⟨rfl, rfl⟩
  have hcheck := checkProposal_late hnew hfresh.1
  have hpropose : (prevoting c₀).checkPropose lateReproposal.proposerId lateReproposal.block.hash ≠
      .ok () := by
    rw [ne_eq, BftConsensus.checkPropose_ok_iff]
    exact fun h => absurd h.1 (by simp [prevoting])
  refine ⟨c₀, hnew, ?_, ?_⟩
  · cases hresult : ((prevoting c₀).handleProposal lateReproposal).2 with
    | error e => exact ⟨e, rfl⟩
    | ok u => exact absurd (BftConsensus.handleProposal_ok_iff.1 hresult).2 hpropose
  · rw [BftConsensus.handleProposal_refused hcheck hpropose, ne_eq,
      BftConsensus.noteValidRound_eq_iff]
    intro hsame
    have hvalue := (hsame 0 rfl).1
    rw [show (prevoting c₀).validValue = none from hfresh.2] at hvalue
    cases hvalue

end Lone

end IeumChain
