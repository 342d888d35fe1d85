import IeumChain.Library.KeyedLists
import IeumChain.Snapshot

/-!
# What a signature covers

One key signs transactions, proposals, votes, round changes and snapshot attestations. The
bytes of each determine what they were made from, and no bytes of one kind are those of another.
-/
namespace IeumChain

open ByteCodec MachineWords KeyedLists

/-- What the bytes to sign are computed from, for each kind. -/
inductive SigningInput
  | transaction (tx : Transaction)
  | proposal (height round : ℕ) (proposerId blockHash : String) (validRound : Option ℕ)
      (validRoundPrevotes : List ConsensusMessage)
  | vote (height round : ℕ) (validatorId : String) (voteType : VoteType) (blockHash : String)
  | roundChange (chainId : ℕ) (genesisCommitment : String) (height round : ℕ)
      (validatorId : String)
  | snapshot (height : ℕ) (blockHash stateRoot : String)
  deriving Repr, DecidableEq

/-- What a signature stands for. The prevotes of a proposal enter by validator and signature,
in no order. -/
inductive SignedContent
  | transaction (sender receiver : Address) (amount fee nonce : ℕ) (action : TransactionAction)
  | proposal (height round : ℕ) (proposerId blockHash : String) (validRound : Option ℕ)
      (prevotes : Multiset (String × String))
  | vote (height round : ℕ) (validatorId : String) (voteType : VoteType) (blockHash : String)
  | roundChange (chainId : ℕ) (genesisCommitment : String) (height round : ℕ)
      (validatorId : String)
  | snapshot (height : ℕ) (blockHash stateRoot : String)
  deriving DecidableEq

/-- What a prevote contributes to the bytes of a proposal. -/
def ConsensusMessage.signer (m : ConsensusMessage) : String × String := (m.validatorId, m.signature)

/-- The length fits the narrowest width in which lengths are written. -/
def Short (s : String) : Prop := s.utf8ByteSize < 2 ^ 32

instance (s : String) : Decidable (Short s) := inferInstanceAs (Decidable (_ < _))

def TransactionAction.Short : TransactionAction → Prop
  | transfer => True
  | delegate validator => IeumChain.Short validator
  | undelegate validator => IeumChain.Short validator
  | claimUnbonded => True

instance (action : TransactionAction) : Decidable action.Short := by
  cases action <;> unfold TransactionAction.Short <;> infer_instance

namespace SigningInput

def bytes : SigningInput → Bytes
  | transaction tx => tx.signingBytes
  | proposal height round proposerId blockHash validRound prevotes =>
      SignedProposal.bytesToSign height round proposerId blockHash validRound prevotes
  | vote height round validatorId voteType blockHash =>
      ConsensusMessage.bytesToSign height round validatorId voteType blockHash
  | roundChange chainId genesisCommitment height round validatorId =>
      SignedRoundChange.bytesToSign chainId genesisCommitment height round validatorId
  | snapshot height blockHash stateRoot => snapshotAttestationBytes height blockHash stateRoot

def content : SigningInput → SignedContent
  | transaction tx => .transaction tx.sender tx.receiver tx.amount tx.fee tx.nonce tx.action
  | proposal height round proposerId blockHash validRound prevotes =>
      .proposal height round proposerId blockHash validRound
        (prevotes.map ConsensusMessage.signer)
  | vote height round validatorId voteType blockHash =>
      .vote height round validatorId voteType blockHash
  | roundChange chainId genesisCommitment height round validatorId =>
      .roundChange chainId genesisCommitment height round validatorId
  | snapshot height blockHash stateRoot => .snapshot height blockHash stateRoot

/-- Numbers are words of their width, texts are short, a valid round is not the number that
stands for none, and no validator prevoted twice. -/
def Fits : SigningInput → Prop
  | transaction tx =>
      Short tx.sender ∧ Short tx.receiver ∧ tx.amount < 2 ^ 128 ∧ tx.fee < 2 ^ 128 ∧
        tx.nonce < 2 ^ 64 ∧ tx.action.Short
  | proposal height round proposerId blockHash validRound prevotes =>
      height < 2 ^ 64 ∧ round < 2 ^ 32 ∧ Short proposerId ∧ Short blockHash ∧
        (∀ r ∈ validRound, r < u32Max) ∧
        (∀ v ∈ prevotes, Short v.validatorId ∧ Short v.signature) ∧
        (prevotes.map (·.validatorId)).Nodup
  | vote height round validatorId _ blockHash =>
      height < 2 ^ 64 ∧ round < 2 ^ 32 ∧ Short validatorId ∧ Short blockHash
  | roundChange chainId genesisCommitment height round validatorId =>
      chainId < 2 ^ 64 ∧ Short genesisCommitment ∧ height < 2 ^ 64 ∧ round < 2 ^ 32 ∧
        Short validatorId
  | snapshot height blockHash stateRoot =>
      height < 2 ^ 64 ∧ Short blockHash ∧ Short stateRoot

end SigningInput

/-! ## Each kind by itself -/

theorem Short.pushText_append_inj {s t : String} {x y : Bytes} (hs : Short s) (ht : Short t)
    (h : pushText s ++ x = pushText t ++ y) : s = t ∧ x = y := by
  have hle : (2 : ℕ) ^ 32 ≤ 2 ^ 64 := Nat.pow_le_pow_right (by decide) (by decide)
  exact ByteCodec.pushText_append_inj (hs.trans_le hle) (ht.trans_le hle) h

/-- A text behind its length in four bytes. -/
theorem Short.sized_append_inj {s t : String} {x y : Bytes} (hs : Short s) (ht : Short t)
    (h : beBytes 4 s.utf8ByteSize ++ (utf8 s ++ x) = beBytes 4 t.utf8ByteSize ++ (utf8 t ++ y)) :
    s = t ∧ x = y := by
  have hwidth : (2 : ℕ) ^ 32 = 256 ^ 4 := by decide
  obtain ⟨hsize, hrest⟩ := beBytes_append_inj (hwidth ▸ hs) (hwidth ▸ ht) h
  obtain ⟨htext, hxy⟩ := List.append_inj hrest (by simpa using hsize)
  exact ⟨utf8_inj htext, hxy⟩

theorem TransactionAction.consensusBytes_inj {action action' : TransactionAction}
    (h : action.consensusBytes = action'.consensusBytes) : action = action' := by
  cases action <;> cases action' <;> simp [consensusBytes] at h ⊢
  case delegate.delegate => exact pushText_inj h
  case undelegate.undelegate => exact pushText_inj h

/-- What follows the numbers: nothing for a transfer, else a text and the action. -/
theorem Transaction.action_eq_of_suffix {action action' : TransactionAction}
    (h : (if action.isTransfer then [] else utf8 "IEUM-TX-ACTION-V1" ++ action.consensusBytes) =
      if action'.isTransfer then [] else utf8 "IEUM-TX-ACTION-V1" ++ action'.consensusBytes) :
    action = action' := by
  have hmark : utf8 "IEUM-TX-ACTION-V1" ≠ [] := by decide
  have htransfer : ∀ a : TransactionAction, a.isTransfer = true → a = .transfer := by
    intro a ha
    cases a with
    | transfer => rfl
    | delegate validator => exact absurd ha Bool.false_ne_true
    | undelegate validator => exact absurd ha Bool.false_ne_true
    | claimUnbonded => exact absurd ha Bool.false_ne_true
  split_ifs at h with h₁ h₂ h₂
  · rw [htransfer action h₁, htransfer action' h₂]
  · exact absurd (List.append_eq_nil_iff.1 h.symm).1 hmark
  · exact absurd (List.append_eq_nil_iff.1 h).1 hmark
  · exact TransactionAction.consensusBytes_inj (List.append_cancel_left h)

theorem Transaction.signingBytes_inj {tx tx' : Transaction}
    (h : (SigningInput.transaction tx).Fits) (h' : (SigningInput.transaction tx').Fits)
    (hbytes : tx.signingBytes = tx'.signingBytes) :
    tx.sender = tx'.sender ∧ tx.receiver = tx'.receiver ∧ tx.amount = tx'.amount ∧
      tx.fee = tx'.fee ∧ tx.nonce = tx'.nonce ∧ tx.action = tx'.action := by
  obtain ⟨hsender, hreceiver, hamount, hfee, hnonce, -⟩ := h
  obtain ⟨hsender', hreceiver', hamount', hfee', hnonce', -⟩ := h'
  simp only [signingBytes, List.append_assoc] at hbytes
  obtain ⟨h₁, hbytes⟩ := hsender.pushText_append_inj hsender' hbytes
  obtain ⟨h₂, hbytes⟩ := hreceiver.pushText_append_inj hreceiver' hbytes
  obtain ⟨h₃, hbytes⟩ := beBytes_append_inj (by simpa using hamount) (by simpa using hamount')
    hbytes
  obtain ⟨h₄, hbytes⟩ := beBytes_append_inj (by simpa using hfee) (by simpa using hfee') hbytes
  obtain ⟨h₅, hbytes⟩ := beBytes_append_inj (by simpa using hnonce) (by simpa using hnonce') hbytes
  exact ⟨h₁, h₂, h₃, h₄, h₅, action_eq_of_suffix hbytes⟩

/-- The number in the bytes tells which valid round was meant. -/
theorem validRound_inj {r s : Option ℕ} (hr : ∀ n ∈ r, n < u32Max) (hs : ∀ n ∈ s, n < u32Max)
    (h : r.getD u32Max = s.getD u32Max) : r = s := by
  cases r with
  | none =>
      cases s with
      | none => rfl
      | some n => exact absurd h.symm (hs n rfl).ne
  | some n =>
      cases s with
      | none => exact absurd h (hr n rfl).ne
      | some m => exact congrArg some h

theorem getD_validRound_lt {r : Option ℕ} (hr : ∀ n ∈ r, n < u32Max) :
    r.getD u32Max < 256 ^ 4 := by
  cases r with
  | none => decide
  | some n => exact (hr n rfl).trans (by decide)

namespace SignedProposal

/-- The prevotes as they are written: in the order of their validators. -/
def written (prevotes : List ConsensusMessage) : List (String × String) :=
  (prevotes.map ConsensusMessage.signer).insertionSort (·.1 ≤ ·.1)

theorem written_perm (prevotes : List ConsensusMessage) :
    (written prevotes).Perm (prevotes.map ConsensusMessage.signer) := List.perm_insertionSort _ _

theorem bytesToSign_eq (height round : ℕ) (proposerId blockHash : String)
    (validRound : Option ℕ) (prevotes : List ConsensusMessage) :
    bytesToSign height round proposerId blockHash validRound prevotes =
      utf8 "IEUM-PROPOSAL-V3" ++ (beBytes 8 height ++ (beBytes 4 round ++ (pushText proposerId ++
        (pushText blockHash ++ (beBytes 4 (validRound.getD u32Max) ++
          (beBytes 8 prevotes.length ++ (written prevotes).flatMap fun p =>
            pushText p.1 ++ pushText p.2)))))) := by
  have hsort := List.map_insertionSort (r := (·.validatorId ≤ ·.validatorId))
    (s := fun p q : String × String => p.1 ≤ q.1) ConsensusMessage.signer prevotes
    fun _ _ _ _ => Iff.rfl
  simp only [bytesToSign, written, List.append_assoc, List.length_insertionSort, ← hsort,
    List.flatMap_map, ConsensusMessage.signer]

/-- Lists of pairs of texts can be read back. -/
theorem pairs_inj {l m : List (String × String)} (hl : ∀ p ∈ l, Short p.1 ∧ Short p.2)
    (hm : ∀ p ∈ m, Short p.1 ∧ Short p.2)
    (h : (l.flatMap fun p => pushText p.1 ++ pushText p.2) =
      m.flatMap fun p => pushText p.1 ++ pushText p.2) : l = m := by
  have hne : ∀ p : String × String, pushText p.1 ++ pushText p.2 ≠ [] := by
    intro p hnil
    have hlength := congrArg List.length hnil
    simp only [pushText, List.length_append, length_beBytes, List.length_nil] at hlength
    omega
  refine flatMap_inj (fun p _ => hne p) (fun p _ => hne p) ?_ h
  intro p hp q hq x y hpq
  simp only [List.append_assoc] at hpq
  obtain ⟨h₁, hpq⟩ := (hl p hp).1.pushText_append_inj (hm q hq).1 hpq
  obtain ⟨h₂, hxy⟩ := (hl p hp).2.pushText_append_inj (hm q hq).2 hpq
  exact ⟨Prod.ext h₁ h₂, hxy⟩

theorem bytesToSign_inj {height height' round round' : ℕ}
    {proposerId proposerId' blockHash blockHash' : String} {validRound validRound' : Option ℕ}
    {prevotes prevotes' : List ConsensusMessage}
    (h : (SigningInput.proposal height round proposerId blockHash validRound prevotes).Fits)
    (h' : (SigningInput.proposal height' round' proposerId' blockHash' validRound'
      prevotes').Fits)
    (hbytes : bytesToSign height round proposerId blockHash validRound prevotes =
      bytesToSign height' round' proposerId' blockHash' validRound' prevotes') :
    height = height' ∧ round = round' ∧ proposerId = proposerId' ∧ blockHash = blockHash' ∧
      validRound = validRound' ∧ (prevotes.map ConsensusMessage.signer).Perm
        (prevotes'.map ConsensusMessage.signer) := by
  obtain ⟨hheight, hround, hid, hhash, hvalid, hprevotes, -⟩ := h
  obtain ⟨hheight', hround', hid', hhash', hvalid', hprevotes', -⟩ := h'
  rw [bytesToSign_eq, bytesToSign_eq, List.append_cancel_left_eq] at hbytes
  obtain ⟨h₁, hbytes⟩ := beBytes_append_inj (by simpa using hheight) (by simpa using hheight')
    hbytes
  obtain ⟨h₂, hbytes⟩ := beBytes_append_inj (by simpa using hround) (by simpa using hround') hbytes
  obtain ⟨h₃, hbytes⟩ := hid.pushText_append_inj hid' hbytes
  obtain ⟨h₄, hbytes⟩ := hhash.pushText_append_inj hhash' hbytes
  obtain ⟨h₅, hbytes⟩ := beBytes_append_inj (getD_validRound_lt hvalid)
    (getD_validRound_lt hvalid') hbytes
  -- the count is not needed: the entries alone tell where the list ends
  obtain ⟨-, hbytes⟩ := List.append_inj hbytes (by simp)
  have hshort : ∀ {l : List ConsensusMessage},
      (∀ v ∈ l, Short v.validatorId ∧ Short v.signature) →
        ∀ p ∈ written l, Short p.1 ∧ Short p.2 := by
    intro l hl p hp
    obtain ⟨v, hv, rfl⟩ := List.mem_map.1 ((written_perm l).mem_iff.1 hp)
    exact hl v hv
  have hpairs := pairs_inj (hshort hprevotes) (hshort hprevotes') hbytes
  refine ⟨h₁, h₂, h₃, h₄, validRound_inj hvalid hvalid' h₅, ?_⟩
  exact (written_perm prevotes).symm.trans (hpairs ▸ written_perm prevotes')

/-- Prevotes of distinct validators are written the same in whatever order they come. -/
theorem written_eq_of_perm {prevotes prevotes' : List ConsensusMessage}
    (h : (prevotes.map ConsensusMessage.signer).Perm (prevotes'.map ConsensusMessage.signer))
    (hdistinct : (prevotes'.map (·.validatorId)).Nodup) : written prevotes = written prevotes' := by
  refine insertionSort_eq_of_perm Prod.fst (fun _ _ => Iff.rfl) h ?_
  rw [List.map_map]
  exact hdistinct

end SignedProposal

theorem VoteType.tag_inj {t t' : VoteType} (h : t.tag = t'.tag) : t = t' := by
  cases t <;> cases t' <;> first | rfl | exact absurd h (by decide)

theorem ConsensusMessage.bytesToSign_inj {height height' round round' : ℕ}
    {validatorId validatorId' blockHash blockHash' : String} {voteType voteType' : VoteType}
    (h : (SigningInput.vote height round validatorId voteType blockHash).Fits)
    (h' : (SigningInput.vote height' round' validatorId' voteType' blockHash').Fits)
    (hbytes : bytesToSign height round validatorId voteType blockHash =
      bytesToSign height' round' validatorId' voteType' blockHash') :
    height = height' ∧ round = round' ∧ validatorId = validatorId' ∧ voteType = voteType' ∧
      blockHash = blockHash' := by
  obtain ⟨hheight, hround, hid, -⟩ := h
  obtain ⟨hheight', hround', hid', -⟩ := h'
  simp only [bytesToSign, List.append_assoc, List.append_cancel_left_eq] at hbytes
  obtain ⟨h₁, hbytes⟩ := beBytes_append_inj (by simpa using hheight) (by simpa using hheight')
    hbytes
  obtain ⟨h₂, hbytes⟩ := beBytes_append_inj (by simpa using hround) (by simpa using hround') hbytes
  obtain ⟨h₃, hbytes⟩ := List.append_inj hbytes rfl
  obtain ⟨h₄, hbytes⟩ := hid.pushText_append_inj hid' hbytes
  exact ⟨h₁, h₂, h₄, VoteType.tag_inj (List.head_eq_of_cons_eq h₃), pushText_inj hbytes⟩

theorem SignedRoundChange.bytesToSign_inj {chainId chainId' height height' round round' : ℕ}
    {genesisCommitment genesisCommitment' validatorId validatorId' : String}
    (h : (SigningInput.roundChange chainId genesisCommitment height round validatorId).Fits)
    (h' : (SigningInput.roundChange chainId' genesisCommitment' height' round'
      validatorId').Fits)
    (hbytes : bytesToSign chainId genesisCommitment height round validatorId =
      bytesToSign chainId' genesisCommitment' height' round' validatorId') :
    chainId = chainId' ∧ genesisCommitment = genesisCommitment' ∧ height = height' ∧
      round = round' ∧ validatorId = validatorId' := by
  obtain ⟨hchain, hgenesis, hheight, hround, -⟩ := h
  obtain ⟨hchain', hgenesis', hheight', hround', -⟩ := h'
  simp only [bytesToSign, List.append_assoc, List.append_cancel_left_eq] at hbytes
  obtain ⟨h₁, hbytes⟩ := beBytes_append_inj (by simpa using hchain) (by simpa using hchain') hbytes
  obtain ⟨h₂, hbytes⟩ := hgenesis.pushText_append_inj hgenesis' hbytes
  obtain ⟨h₃, hbytes⟩ := beBytes_append_inj (by simpa using hheight) (by simpa using hheight')
    hbytes
  obtain ⟨h₄, hbytes⟩ := beBytes_append_inj (by simpa using hround) (by simpa using hround') hbytes
  exact ⟨h₁, h₂, h₃, h₄, pushText_inj hbytes⟩

theorem snapshotAttestationBytes_inj {height height' : ℕ}
    {blockHash blockHash' stateRoot stateRoot' : String}
    (h : (SigningInput.snapshot height blockHash stateRoot).Fits)
    (h' : (SigningInput.snapshot height' blockHash' stateRoot').Fits)
    (hbytes : snapshotAttestationBytes height blockHash stateRoot =
      snapshotAttestationBytes height' blockHash' stateRoot') :
    height = height' ∧ blockHash = blockHash' ∧ stateRoot = stateRoot' := by
  obtain ⟨hheight, hhash, hroot⟩ := h
  obtain ⟨hheight', hhash', hroot'⟩ := h'
  simp only [snapshotAttestationBytes, List.append_assoc, List.append_cancel_left_eq] at hbytes
  obtain ⟨h₁, hbytes⟩ := beBytes_append_inj (by simpa using hheight) (by simpa using hheight')
    hbytes
  obtain ⟨h₂, hbytes⟩ := hhash.sized_append_inj hhash' hbytes
  obtain ⟨-, hbytes⟩ := List.append_inj hbytes (by simp)
  exact ⟨h₁, h₂, utf8_inj hbytes⟩

/-! ## All kinds together -/

namespace SigningInput

/-- The text that opens the bytes. A transaction has none: it starts with a length. -/
def opening : SigningInput → Option String
  | transaction _ => none
  | proposal .. => some "IEUM-P"
  | vote .. => some "IEUM-C"
  | roundChange .. => some "IEUM-R"
  | snapshot .. => some "IEUM-S"

/-- Reads the opening back. A short length starts with a zero byte, which no text here does. -/
def readOpening (bytes : Bytes) : Option Bytes :=
  if bytes.head? = some 0 then none else some (bytes.take 6)

theorem readOpening_text {text : String} {opening rest : Bytes}
    (hhead : (utf8 text).head? = some 73) (hsize : 6 ≤ (utf8 text).length)
    (htake : (utf8 text).take 6 = opening) : readOpening (utf8 text ++ rest) = some opening := by
  have hne : ¬(utf8 text ++ rest).head? = some 0 := by
    rw [List.head?_append, hhead, Option.some_or]
    decide
  rw [readOpening, if_neg hne, List.take_append_of_le_length hsize, htake]

theorem head?_pushText {s : String} (h : Short s) (rest : Bytes) :
    (pushText s ++ rest).head? = some 0 := by
  have hzero : (utf8 s).length / 256 ^ 7 = 0 := by
    rw [utf8_length]
    exact Nat.div_eq_of_lt (h.trans (by decide))
  have hhead : (beBytes 8 (utf8 s).length).head? =
      some (UInt8.ofNat ((utf8 s).length / 256 ^ 7)) := by
    simp [beBytes, Nat.div_div_eq_div_mul]
  rw [pushText, List.append_assoc, List.head?_append, hhead, hzero]
  rfl

/-- The bytes of any kind show their opening. -/
theorem readOpening_bytes {a : SigningInput} (h : a.Fits) :
    readOpening a.bytes = a.opening.map utf8 := by
  cases a with
  | transaction tx =>
      have hhead : tx.signingBytes.head? = some 0 := by
        simp only [Transaction.signingBytes, List.append_assoc]
        exact head?_pushText h.1 _
      exact if_pos hhead
  | proposal height round proposerId blockHash validRound prevotes =>
      rw [bytes, SignedProposal.bytesToSign_eq]
      exact readOpening_text (by decide) (by decide) (by decide)
  | vote height round validatorId voteType blockHash =>
      simp only [bytes, ConsensusMessage.bytesToSign, List.append_assoc]
      exact readOpening_text (by decide) (by decide) (by decide)
  | roundChange chainId genesisCommitment height round validatorId =>
      simp only [bytes, SignedRoundChange.bytesToSign, List.append_assoc]
      exact readOpening_text (by decide) (by decide) (by decide)
  | snapshot height blockHash stateRoot =>
      simp only [bytes, snapshotAttestationBytes, List.append_assoc]
      exact readOpening_text (by decide) (by decide) (by decide)

theorem opening_eq_of_bytes {a b : SigningInput} (ha : a.Fits) (hb : b.Fits)
    (h : a.bytes = b.bytes) : a.opening = b.opening := by
  have hread := congrArg readOpening h
  rw [readOpening_bytes ha, readOpening_bytes hb] at hread
  exact Option.map_injective (fun _ _ => utf8_inj) hread

/-- Equal bytes were made from equal contents. -/
theorem content_eq_of_bytes {a b : SigningInput} (ha : a.Fits) (hb : b.Fits)
    (h : a.bytes = b.bytes) : a.content = b.content := by
  have hopening := opening_eq_of_bytes ha hb h
  cases a <;> cases b
  case transaction.transaction tx tx' =>
    obtain ⟨h₁, h₂, h₃, h₄, h₅, h₆⟩ := Transaction.signingBytes_inj ha hb h
    simp only [content, h₁, h₂, h₃, h₄, h₅, h₆]
  case proposal.proposal =>
    obtain ⟨rfl, rfl, rfl, rfl, rfl, hperm⟩ := SignedProposal.bytesToSign_inj ha hb h
    simp only [content, Multiset.coe_eq_coe.2 hperm]
  case vote.vote =>
    obtain ⟨rfl, rfl, rfl, rfl, rfl⟩ := ConsensusMessage.bytesToSign_inj ha hb h
    rfl
  case roundChange.roundChange =>
    obtain ⟨rfl, rfl, rfl, rfl, rfl⟩ := SignedRoundChange.bytesToSign_inj ha hb h
    rfl
  case snapshot.snapshot =>
    obtain ⟨rfl, rfl, rfl⟩ := snapshotAttestationBytes_inj ha hb h
    rfl
  all_goals simp [opening] at hopening

/-- Equal contents make equal bytes; the order of the prevotes does not enter. -/
theorem bytes_eq_of_content {a b : SigningInput} (hb : b.Fits) (h : a.content = b.content) :
    a.bytes = b.bytes := by
  cases a <;> cases b <;>
    simp only [content, SignedContent.transaction.injEq, SignedContent.proposal.injEq,
      SignedContent.vote.injEq, SignedContent.roundChange.injEq, SignedContent.snapshot.injEq,
      reduceCtorEq] at h
  case transaction.transaction tx tx' =>
    obtain ⟨h₁, h₂, h₃, h₄, h₅, h₆⟩ := h
    simp only [bytes, Transaction.signingBytes, h₁, h₂, h₃, h₄, h₅, h₆]
  case proposal.proposal =>
    obtain ⟨rfl, rfl, rfl, rfl, rfl, hmultiset⟩ := h
    have hperm := Multiset.coe_eq_coe.1 hmultiset
    have hlength := hperm.length_eq
    rw [List.length_map, List.length_map] at hlength
    rw [bytes, bytes, SignedProposal.bytesToSign_eq, SignedProposal.bytesToSign_eq, hlength,
      SignedProposal.written_eq_of_perm hperm hb.2.2.2.2.2.2]
  case vote.vote =>
    obtain ⟨rfl, rfl, rfl, rfl, rfl⟩ := h
    rfl
  case roundChange.roundChange =>
    obtain ⟨rfl, rfl, rfl, rfl, rfl⟩ := h
    rfl
  case snapshot.snapshot =>
    obtain ⟨rfl, rfl, rfl⟩ := h
    rfl

/-- Two signed payloads of any kinds have the same bytes exactly if they are of one kind and
agree in everything that is signed. -/
theorem signed_bytes_unambiguous {a b : SigningInput} (ha : a.Fits) (hb : b.Fits) :
    a.bytes = b.bytes ↔ a.content = b.content :=
  ⟨content_eq_of_bytes ha hb, bytes_eq_of_content hb⟩

/-- A proposal with a valid round and its two prevotes in either order. -/
theorem signed_bytes_unambiguous_prevotes :
    let first : ConsensusMessage := ⟨7, 1, "first", .prevote, "block", "signed by first"⟩
    let second : ConsensusMessage := ⟨7, 1, "second", .prevote, "block", "signed by second"⟩
    (proposal 7 2 "first" "block" (some 1) [first, second]).bytes =
        (proposal 7 2 "first" "block" (some 1) [second, first]).bytes ↔
      (proposal 7 2 "first" "block" (some 1) [first, second]).content =
        (proposal 7 2 "first" "block" (some 1) [second, first]).content :=
  signed_bytes_unambiguous (by unfold Fits; decide) (by unfold Fits; decide)

end SigningInput

end IeumChain
