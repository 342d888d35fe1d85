import IeumChain.Library.SeparatedText
import IeumChain.RejectedProposals
import IeumChain.VoteFiling

/-!
# Evidence of double votes

A vote that disagrees with the vote on file is evidence. A certificate that is taken up later
than the vote overwrites the file, and no one compares the two.
-/
namespace IeumChain

open ByteCodec Text SeparatedText Outcome MachineWords FiniteMap VoteTally

/-! ## The identifier of an offence -/

theorem VoteType.colon_notMem_name (t : VoteType) : ':' ∉ t.name.toList := by
  cases t <;> decide

/-- The identifier names validator, height, round and step. -/
theorem DoubleVoteEvidence.key_of_id {e e' : DoubleVoteEvidence} (h : e.id = e'.id) :
    e.first.key = e'.first.key := by
  obtain ⟨h, htype⟩ := append_colon_inj (VoteType.colon_notMem_name _)
    (VoteType.colon_notMem_name _) h
  obtain ⟨h, hround⟩ := append_colon_inj (colon_notMem_decimal _) (colon_notMem_decimal _) h
  obtain ⟨hvalidator, hheight⟩ :=
    append_colon_inj (colon_notMem_decimal _) (colon_notMem_decimal _) h
  have hname : e.first.voteType = e'.first.voteType := by
    revert htype
    cases e.first.voteType <;> cases e'.first.voteType <;> decide
  rw [ConsensusMessage.key, ConsensusMessage.key, hvalidator, decimal_injective hheight,
    decimal_injective hround, hname]

namespace BftConsensus

/-- A machine with the votes it has taken into its record and the evidence it has produced. -/
structure Watched where
  machine : BftConsensus
  accepted : List ConsensusMessage
  produced : List DoubleVoteEvidence

section
variable [Crypto]

/-- The votes that a call takes into the record: a vote past the phase check, even if it then
disagrees with the file or the proposal, and the prevotes of a certificate that is taken up. -/
def acceptedBy (c : BftConsensus) : Input → List ConsensusMessage
  | .handle m => if (c.checkVote m).isOk then [m] else []
  | .adoptValidValue blockHash validRound prevotes =>
      if (c.checkValidValue blockHash validRound prevotes).isOk ∧
        c.validRound.all (· < validRound) = true then prevotes else []
  | _ => []

namespace Watched

def step (w : Watched) (input : Input) : Watched :=
  { machine := w.machine.after input
    accepted := w.accepted ++ w.machine.acceptedBy input
    produced := w.produced ++ (w.machine.after input).evidence }

def start (c : BftConsensus) : Watched := ⟨c, [], []⟩

/-- Evidence for the validator, height, round and step of a vote has been produced. -/
def Accused (w : Watched) (m : ConsensusMessage) : Prop :=
  ∃ e ∈ w.produced, e.verify = .ok () ∧ e.first.key = m.key

/-- Every two conflicting votes in the record have produced evidence. -/
def Recorded (w : Watched) : Prop :=
  ∀ a ∈ w.accepted, ∀ b ∈ w.accepted, a.key = b.key → a.blockHash ≠ b.blockHash → w.Accused a

/-- No prevote of a certificate that is taken up disagrees with the vote on file, unless there
has been evidence already. -/
def KeepsVotes (w : Watched) : Input → Prop
  | .adoptValidValue blockHash validRound prevotes =>
      w.machine.checkValidValue blockHash validRound prevotes = .ok () →
        w.machine.validRound.all (· < validRound) = true → ∀ v ∈ prevotes, ∀ x,
          w.machine.voteHistory.lookup v.key = some x → x ≠ v.blockHash → w.Accused v
  | _ => True

/-- In every state that the calls lead to. -/
def RecordedAlong : Watched → List Input → Prop
  | w, [] => w.Recorded
  | w, input :: rest => w.Recorded ∧ RecordedAlong (w.step input) rest

/-- At every one of the calls. -/
def KeepsAlong : Watched → List Input → Prop
  | _, [] => True
  | w, input :: rest => w.KeepsVotes input ∧ KeepsAlong (w.step input) rest

/-- The file holds votes of the record, one for each slot of the record. -/
structure Filing (w : Watched) : Prop where
  message : ∀ k m, w.machine.voteMessages.lookup k = some m → m.key = k ∧ m ∈ w.accepted
  history : ∀ k, w.machine.voteHistory.lookup k =
    (w.machine.voteMessages.lookup k).map (·.blockHash)
  filed : ∀ m ∈ w.accepted, ∃ first, w.machine.voteMessages.lookup m.key = some first
  verified : ∀ m ∈ w.accepted, m.verify = .ok ()
  evidence : ∀ e ∈ w.machine.evidence, e ∈ w.produced
  genuine : ∀ e ∈ w.produced, e.verify = .ok ()

variable {w : Watched}

theorem Accused.step {m : ConsensusMessage} (h : w.Accused m) (input : Input) :
    (w.step input).Accused m := by
  obtain ⟨e, he, hverify, hkey⟩ := h
  exact ⟨e, List.mem_append_left _ he, hverify, hkey⟩

/-- Votes whose slots are taken join the record, and evidence is produced or handed out. -/
theorem Filing.grow (h : w.Filing) {w' : Watched} (new : List ConsensusMessage)
    (hmessages : w'.machine.voteMessages = w.machine.voteMessages)
    (hhistory : w'.machine.voteHistory = w.machine.voteHistory)
    (haccepted : w'.accepted = w.accepted ++ new)
    (hnew : ∀ m ∈ new, m.verify = .ok () ∧
      ∃ first, w.machine.voteMessages.lookup m.key = some first)
    (hproduced : w'.produced = w.produced ++ w'.machine.evidence)
    (hevidence : ∀ e ∈ w'.machine.evidence, e ∈ w.machine.evidence ∨ e.verify = .ok ()) :
    w'.Filing where
  message k m hm := by
    rw [hmessages] at hm
    rw [haccepted]
    exact ⟨(h.message k m hm).1, List.mem_append_left _ (h.message k m hm).2⟩
  history k := by
    rw [hmessages, hhistory]
    exact h.history k
  filed m hm := by
    rw [haccepted] at hm
    rw [hmessages]
    exact (List.mem_append.1 hm).elim (h.filed m) fun hm => (hnew m hm).2
  verified m hm := by
    rw [haccepted] at hm
    exact (List.mem_append.1 hm).elim (h.verified m) fun hm => (hnew m hm).1
  evidence e he := by
    rw [hproduced]
    exact List.mem_append_right _ he
  genuine e he := by
    rw [hproduced] at he
    rcases List.mem_append.1 he with he | he
    · exact h.genuine e he
    · exact (hevidence e he).elim (fun he => h.genuine e (h.evidence e he)) fun hverify => hverify

/-- A vote is filed. -/
def file (w : Watched) (m : ConsensusMessage) : Watched :=
  { w with machine := w.machine.fileVote m, accepted := w.accepted ++ [m] }

theorem Filing.file (h : w.Filing) {m : ConsensusMessage} (hverify : m.verify = .ok ()) :
    (w.file m).Filing where
  message k m' hm' := by
    simp only [Watched.file, lookup_fileVote] at hm' ⊢
    split_ifs at hm' with hk
    · cases hm'
      exact ⟨hk.symm, List.mem_append_right _ (List.mem_singleton_self m)⟩
    · exact ⟨(h.message k m' hm').1, List.mem_append_left _ (h.message k m' hm').2⟩
  history k := by
    simp only [Watched.file, lookup_fileVote, history_fileVote]
    split_ifs
    · rfl
    · exact h.history k
  filed m' hm' := by
    simp only [Watched.file, lookup_fileVote]
    split_ifs with hk
    · exact ⟨m, rfl⟩
    · rcases List.mem_append.1 hm' with hm' | hm'
      · exact h.filed m' hm'
      · exact absurd (congrArg ConsensusMessage.key (List.mem_singleton.1 hm')) hk
  verified m' hm' := by
    rcases List.mem_append.1 hm' with hm' | hm'
    · exact h.verified m' hm'
    · rw [List.mem_singleton.1 hm']
      exact hverify
  evidence := h.evidence
  genuine := h.genuine

theorem Filing.fileAll (h : w.Filing) {votes : List ConsensusMessage}
    (hverify : ∀ m ∈ votes, m.verify = .ok ()) :
    Filing { w with machine := votes.foldl fileVote w.machine, accepted := w.accepted ++ votes } := by
  induction votes generalizing w with
  | nil => simpa using h
  | cons m rest ih =>
      rw [List.forall_mem_cons] at hverify
      have hrest := ih (h.file hverify.1) hverify.2
      simpa only [Watched.file, List.foldl_cons, List.append_assoc, List.singleton_append] using hrest

end Watched

end

/-! ## What a call does to the file -/

/-- The file and the evidence are as they were. -/
structure SameFile (c c' : BftConsensus) : Prop where
  messages : c'.voteMessages = c.voteMessages
  history : c'.voteHistory = c.voteHistory
  evidence : c'.evidence = c.evidence

theorem SameFile.refl (c : BftConsensus) : SameFile c c := ⟨rfl, rfl, rfl⟩

theorem sameFile_startRound (c : BftConsensus) (height round : ℕ) :
    SameFile c (c.startRound height round).1 := by
  unfold startRound
  split_ifs <;> exact ⟨rfl, rfl, rfl⟩

theorem sameFile_onTimeout (c : BftConsensus) : SameFile c c.onTimeout.1 := by
  unfold onTimeout
  cases checkedAdd u32Max c.round 1 with
  | none => exact .refl c
  | some next => exact sameFile_startRound ..

theorem evidence_foldl_fileVote (votes : List ConsensusMessage) (c : BftConsensus) :
    (votes.foldl fileVote c).evidence = c.evidence := by
  induction votes generalizing c with
  | nil => rfl
  | cons m rest ih => exact ih (c.fileVote m)

theorem sameFile_propose (c : BftConsensus) (proposer blockHash : String) :
    SameFile c (c.propose proposer blockHash).1 := by
  unfold propose
  cases c.checkPropose proposer blockHash <;> exact ⟨rfl, rfl, rfl⟩

section
variable [Crypto]

theorem sameFile_handleProposal (c : BftConsensus) (p : SignedProposal) :
    SameFile c (c.handleProposal p).1 := by
  unfold handleProposal
  cases c.checkProposal p with
  | error e => exact .refl c
  | ok u =>
      dsimp only
      cases p.validRound with
      | none => exact sameFile_propose ..
      | some validRound =>
          obtain ⟨hmessages, hhistory, hevidence⟩ := sameFile_propose
            { c with validValue := some p.block.hash, validRound := some validRound }
            p.proposerId p.block.hash
          exact ⟨hmessages, hhistory, hevidence⟩

omit [Crypto] in
theorem sameFile_countVote (c : BftConsensus) (m : ConsensusMessage) :
    SameFile c (c.countVote m).1 := by
  unfold countVote
  split_ifs
  · exact .refl c
  · rcases (c.addVote m).advancePhase_cases m with hcase | ⟨-, -, -, hcase⟩ | ⟨-, -, -, hcase⟩
    all_goals rw [hcase]; exact ⟨rfl, rfl, rfl⟩

/-- Conflicting votes leave evidence of their slot. -/
theorem recordEvidence_spec (c : BftConsensus) {m first : ConsensusMessage}
    (hfirst : c.voteMessages.lookup m.key = some first) (hkey : first.key = m.key)
    (hverify : first.verify = .ok ()) (hverify' : m.verify = .ok ())
    (hconflict : first.blockHash ≠ m.blockHash) :
    (c.recordEvidence m).voteMessages = c.voteMessages ∧
      (c.recordEvidence m).voteHistory = c.voteHistory ∧
      (∀ e ∈ (c.recordEvidence m).evidence, e ∈ c.evidence ∨ e.verify = .ok ()) ∧
      ∃ e ∈ (c.recordEvidence m).evidence, e.first.key = m.key := by
  have hslot : first.height = m.height ∧ first.round = m.round ∧ first.voteType = m.voteType ∧
      first.validatorId = m.validatorId := by
    simpa [ConsensusMessage.key] using hkey
  have hvalid : DoubleVoteEvidence.verify ⟨first, m⟩ = .ok () := by
    simp only [DoubleVoteEvidence.verify, check_bind_eq_ok, reject_eq_ok]
    exact ⟨hverify, hverify', by simp [hslot, hconflict]⟩
  have hok : (DoubleVoteEvidence.verify ⟨first, m⟩).isOk = true := by
    rw [hvalid]
    rfl
  simp only [recordEvidence, hfirst, hok, true_and]
  split_ifs with hknown
  · obtain ⟨e, he, hid⟩ := List.mem_map.1 hknown
    exact ⟨rfl, rfl, fun _ => .inl, e, he, (DoubleVoteEvidence.key_of_id hid).trans hkey⟩
  · refine ⟨rfl, rfl, fun e he => ?_, ⟨first, m⟩, List.mem_append_right _ (List.mem_singleton_self _),
      hkey⟩
    rcases List.mem_append.1 he with he | he
    · exact .inl he
    · rw [List.mem_singleton.1 he]
      exact .inr hvalid

/-- What a vote does: nothing, or it is filed, or it disagrees with the file, or it is known. -/
theorem handle_file (c : BftConsensus) (m : ConsensusMessage) :
    c.acceptedBy (.handle m) = [] ∧ (c.handle m).1 = c ∨
      (c.acceptedBy (.handle m) = [m] ∧ m.verify = .ok ()) ∧
        (c.voteHistory.lookup m.key = none ∧ SameFile (c.fileVote m) (c.handle m).1 ∨
          ∃ x, c.voteHistory.lookup m.key = some x ∧
            (x ≠ m.blockHash ∧ (c.handle m).1 = c.recordEvidence m ∨
              x = m.blockHash ∧ SameFile c (c.handle m).1)) := by
  unfold handle
  dsimp only [acceptedBy]
  cases hcheck : c.checkVote m with
  | error e => exact .inl ⟨rfl, rfl⟩
  | ok u =>
      obtain ⟨-, -, -, hverify, -⟩ := checkVote_eq_ok hcheck
      refine .inr ⟨⟨rfl, hverify⟩, ?_⟩
      dsimp only
      cases hlookup : c.voteHistory.lookup m.key with
      | none => exact .inl ⟨rfl, sameFile_countVote ..⟩
      | some x =>
          refine .inr ⟨x, rfl, ?_⟩
          dsimp only
          split_ifs with hconflict
          · exact .inl ⟨hconflict, rfl⟩
          · exact .inr ⟨not_not.1 hconflict, sameFile_countVote ..⟩

/-- A certificate that is taken up, or not. -/
theorem adoptValidValue_file (c : BftConsensus) (blockHash : String) (validRound : ℕ)
    (prevotes : List ConsensusMessage) :
    (¬(c.checkValidValue blockHash validRound prevotes = .ok () ∧
          c.validRound.all (· < validRound) = true) ∧
        c.acceptedBy (.adoptValidValue blockHash validRound prevotes) = [] ∧
        (c.adoptValidValue blockHash validRound prevotes).1 = c) ∨
      (c.checkValidValue blockHash validRound prevotes = .ok () ∧
          c.validRound.all (· < validRound) = true) ∧
        c.acceptedBy (.adoptValidValue blockHash validRound prevotes) = prevotes ∧
        (c.adoptValidValue blockHash validRound prevotes).1 = prevotes.foldl fileVote
          { c with validValue := some blockHash, validRound := some validRound } := by
  unfold adoptValidValue
  dsimp only [acceptedBy]
  cases hcheck : c.checkValidValue blockHash validRound prevotes with
  | error e => exact .inl ⟨fun h => (by cases h.1), rfl, rfl⟩
  | ok u =>
      by_cases hnewer : c.validRound.all (· < validRound) = true
      · refine .inr ⟨⟨rfl, hnewer⟩, if_pos ⟨rfl, hnewer⟩, ?_⟩
        dsimp only
        rw [if_pos hnewer]
      · refine .inl ⟨fun h => hnewer h.2, if_neg fun h => hnewer h.2, ?_⟩
        dsimp only
        rw [if_neg hnewer]

namespace Watched

variable {w : Watched}

/-- A call that leaves file and record as they are. -/
theorem Filing.quiet (h : w.Filing) (input : Input) (hnone : w.machine.acceptedBy input = [])
    (hmessages : (w.machine.after input).voteMessages = w.machine.voteMessages)
    (hhistory : (w.machine.after input).voteHistory = w.machine.voteHistory)
    (hevidence : ∀ e ∈ (w.machine.after input).evidence, e ∈ w.machine.evidence) :
    (w.step input).Filing ∧ (w.Recorded → (w.step input).Recorded) := by
  have haccepted : (w.step input).accepted = w.accepted := by
    rw [step, hnone, List.append_nil]
  refine ⟨h.grow [] hmessages hhistory (by rw [haccepted, List.append_nil])
    (fun _ hm => absurd hm List.not_mem_nil) rfl fun e he => .inl (hevidence e he), ?_⟩
  intro hrecorded a ha b hb hkey hne
  rw [haccepted] at ha hb
  exact (hrecorded a ha b hb hkey hne).step input

/-- Votes join the record of a state where everything is recorded. It stays so exactly if every
new vote that disagrees with an older one is accused. -/
theorem recorded_append (hrecorded : w.Recorded) {w' : Watched} {new : List ConsensusMessage}
    (haccepted : w'.accepted = w.accepted ++ new)
    (hmono : ∀ m, w.Accused m → w'.Accused m)
    (hone : ∀ a ∈ new, ∀ b ∈ new, a.key = b.key → a.blockHash = b.blockHash) :
    w'.Recorded ↔ ∀ a ∈ w.accepted, ∀ b ∈ new, a.key = b.key → a.blockHash ≠ b.blockHash →
      w'.Accused b := by
  have hswap : ∀ a b : ConsensusMessage, a.key = b.key → w'.Accused a → w'.Accused b := by
    rintro a b hkey ⟨e, he, hverify, hfirst⟩
    exact ⟨e, he, hverify, hfirst.trans hkey⟩
  constructor
  · intro h a ha b hb hkey hne
    refine hswap a b hkey (h a ?_ b ?_ hkey hne) <;> rw [haccepted]
    · exact List.mem_append_left _ ha
    · exact List.mem_append_right _ hb
  · intro h a ha b hb hkey hne
    rw [haccepted] at ha hb
    rcases List.mem_append.1 ha with ha | ha <;> rcases List.mem_append.1 hb with hb | hb
    · exact hmono a (hrecorded a ha b hb hkey hne)
    · exact hswap b a hkey.symm (h a ha b hb hkey hne)
    · exact h b hb a ha hkey.symm hne.symm
    · exact absurd (hone a ha b hb hkey) hne

theorem Filing.handle (h : w.Filing) (hrecorded : w.Recorded) (m : ConsensusMessage) :
    (w.step (.handle m)).Filing ∧ (w.step (.handle m)).Recorded := by
  have hmono : ∀ v, w.Accused v → (w.step (.handle m)).Accused v := fun v hv => hv.step _
  have hone : ∀ a ∈ [m], ∀ b ∈ [m], a.key = b.key → a.blockHash = b.blockHash := by
    intro a ha b hb _
    rw [List.mem_singleton.1 ha, List.mem_singleton.1 hb]
  rcases w.machine.handle_file m with ⟨hnone, hsame⟩ | ⟨⟨hone', hverify⟩, hcase⟩
  · obtain ⟨hfiling, hquiet⟩ := h.quiet _ hnone (congrArg voteMessages hsame)
      (congrArg voteHistory hsame) fun e he => by rwa [after, hsame] at he
    exact ⟨hfiling, hquiet hrecorded⟩
  have haccepted : (w.step (.handle m)).accepted = w.accepted ++ [m] := by rw [step, hone']
  rw [recorded_append hrecorded haccepted hmono hone]
  -- the vote on file for the slot of an older vote
  have hfirst : ∀ a ∈ w.accepted, a.key = m.key → ∃ first ∈ w.accepted,
      first.key = m.key ∧ w.machine.voteMessages.lookup m.key = some first := by
    intro a ha hkey
    obtain ⟨first, hfirst⟩ := h.filed a ha
    rw [hkey] at hfirst
    exact ⟨first, (h.message _ _ hfirst).2, (h.message _ _ hfirst).1, hfirst⟩
  have hhistory := h.history m.key
  rcases hcase with ⟨hnew, hsame⟩ | ⟨x, hlookup, ⟨hconflict, hsame⟩ | ⟨rfl, hsame⟩⟩
  · refine ⟨?_, fun a ha b hb hkey _ => ?_⟩
    · refine (h.file hverify).grow [] hsame.messages hsame.history ?_
        (fun _ hm => absurd hm List.not_mem_nil) rfl fun e he => .inl ?_
      · rw [haccepted, List.append_nil]
        rfl
      · exact hsame.evidence ▸ he
    · rw [List.mem_singleton.1 hb] at hkey
      obtain ⟨first, -, -, hfirst⟩ := hfirst a ha hkey
      rw [hnew, hfirst] at hhistory
      cases hhistory
  · rw [hlookup] at hhistory
    obtain ⟨first, hfiled, rfl⟩ := Option.map_eq_some_iff.1 hhistory.symm
    obtain ⟨hkey, hmem⟩ := h.message _ _ hfiled
    obtain ⟨hmessages, hhistory', hvalid, e, he, hslot⟩ :=
      recordEvidence_spec w.machine hfiled hkey (h.verified first hmem) hverify hconflict
    have hafter : w.machine.after (.handle m) = w.machine.recordEvidence m := hsame
    have hfiling : (w.step (.handle m)).Filing := by
      refine h.grow [m] ?_ ?_ haccepted ?_ rfl ?_
      · exact (congrArg voteMessages hafter).trans hmessages
      · exact (congrArg voteHistory hafter).trans hhistory'
      · intro v hv
        rw [List.mem_singleton.1 hv]
        exact ⟨hverify, first, hfiled⟩
      · exact fun e he => hvalid e (hafter ▸ he)
    refine ⟨hfiling, fun a ha b hb _ _ => ?_⟩
    rw [List.mem_singleton.1 hb]
    have hproduced : e ∈ (w.step (.handle m)).produced := by
      rw [← hafter] at he
      exact List.mem_append_right _ he
    exact ⟨e, hproduced, hfiling.genuine e hproduced, hslot⟩
  · rw [hlookup] at hhistory
    obtain ⟨first, hfiled, hhash⟩ := Option.map_eq_some_iff.1 hhistory.symm
    obtain ⟨hkey, hmem⟩ := h.message _ _ hfiled
    refine ⟨?_, fun a ha b hb hslot hne => ?_⟩
    · refine h.grow [m] hsame.messages hsame.history haccepted ?_ rfl
        fun e he => .inl (hsame.evidence ▸ he)
      intro v hv
      rw [List.mem_singleton.1 hv]
      exact ⟨hverify, first, hfiled⟩
    · rw [List.mem_singleton.1 hb] at hslot hne ⊢
      -- the older vote disagrees with the filed one, which agrees with the new one
      obtain ⟨e, he, hvalid, hfirst⟩ := hrecorded a ha first hmem (hslot.trans hkey.symm)
        (hhash ▸ hne)
      exact hmono m ⟨e, he, hvalid, hfirst.trans hslot⟩

/-- A certificate keeps the record exactly if it disagrees with no filed vote that has not been
accused. -/
theorem Filing.adoptValidValue (h : w.Filing) (hrecorded : w.Recorded) (blockHash : String)
    (validRound : ℕ) (prevotes : List ConsensusMessage) :
    (w.step (.adoptValidValue blockHash validRound prevotes)).Filing ∧
      ((w.step (.adoptValidValue blockHash validRound prevotes)).Recorded ↔
        w.KeepsVotes (.adoptValidValue blockHash validRound prevotes)) := by
  rcases w.machine.adoptValidValue_file blockHash validRound prevotes with
    ⟨hnot, hnone, hsame⟩ | ⟨⟨hcheck, hnewer⟩, htaken, hafter⟩
  · obtain ⟨hfiling, hquiet⟩ := h.quiet _ hnone (congrArg voteMessages hsame)
      (congrArg voteHistory hsame) fun e he => by rwa [after, hsame] at he
    exact ⟨hfiling, iff_of_true (hquiet hrecorded) fun hcheck hnewer => absurd ⟨hcheck, hnewer⟩ hnot⟩
  · obtain ⟨hvotes, -⟩ := voters_of_checkValidValue hcheck
    have hhash : ∀ v ∈ prevotes, v.blockHash = blockHash := by
      intro v hv
      have hcontent := (hvotes v hv).1
      simp only [votesFor, decide_eq_true_eq] at hcontent
      exact hcontent.2.2.2
    have haccepted : (w.step (.adoptValidValue blockHash validRound prevotes)).accepted =
        w.accepted ++ prevotes := by rw [step, htaken]
    have hstart : Filing { w with
        machine := { w.machine with validValue := some blockHash, validRound := some validRound } } :=
      ⟨h.message, h.history, h.filed, h.verified, h.evidence, h.genuine⟩
    have hevidence : (prevotes.foldl fileVote
        { w.machine with validValue := some blockHash, validRound := some validRound }).evidence =
          w.machine.evidence := evidence_foldl_fileVote ..
    have hmachine : (w.step (.adoptValidValue blockHash validRound prevotes)).machine =
        prevotes.foldl fileVote
          { w.machine with validValue := some blockHash, validRound := some validRound } := hafter
    have hall := hstart.fileAll fun v hv => (hvotes v hv).2.1
    refine ⟨?_, ?_⟩
    · refine hall.grow [] (congrArg voteMessages hmachine) (congrArg voteHistory hmachine) ?_
        (fun _ hm => absurd hm List.not_mem_nil) rfl fun e he => .inl ?_
      · rw [haccepted, List.append_nil]
      · rw [hmachine] at he
        exact he
    -- nothing is produced by taking up a certificate
    have haccused : ∀ v, (w.step (.adoptValidValue blockHash validRound prevotes)).Accused v →
        w.Accused v := by
      rintro v ⟨e, he, hvalid, hkey⟩
      refine ⟨e, ?_, hvalid, hkey⟩
      rcases List.mem_append.1 he with he | he
      · exact he
      · have hold : e ∈ (w.step (.adoptValidValue blockHash validRound prevotes)).machine.evidence := he
        rw [hmachine, hevidence] at hold
        exact h.evidence e hold
    rw [recorded_append hrecorded haccepted (fun v hv => hv.step _) fun a ha b hb _ =>
      (hhash a ha).trans (hhash b hb).symm]
    constructor
    · intro hnew _ _ v hv x hx hne
      have hhistory := h.history v.key
      rw [hx] at hhistory
      obtain ⟨first, hfiled, rfl⟩ := Option.map_eq_some_iff.1 hhistory.symm
      obtain ⟨hkey, hmem⟩ := h.message _ _ hfiled
      exact haccused v (hnew first hmem v hv hkey hne)
    · intro hkeeps a ha v hv hkey hne
      obtain ⟨first, hfiled⟩ := h.filed a ha
      obtain ⟨hslot, hmem⟩ := h.message _ _ hfiled
      by_cases hsame : first.blockHash = v.blockHash
      · obtain ⟨e, he, hvalid, hfirst⟩ := hrecorded a ha first hmem hslot.symm (hsame ▸ hne)
        exact Accused.step ⟨e, he, hvalid, hfirst.trans hkey⟩ _
      · refine Accused.step (hkeeps hcheck hnewer v hv first.blockHash ?_ hsame) _
        rw [h.history, ← hkey, hfiled]
        rfl

/-- What one call does. -/
theorem Filing.step (h : w.Filing) (hrecorded : w.Recorded) (input : Input) :
    (w.step input).Filing ∧ ((w.step input).Recorded ↔ w.KeepsVotes input) := by
  cases input with
  | handle m =>
      obtain ⟨hfiling, hafter⟩ := h.handle hrecorded m
      exact ⟨hfiling, iff_of_true hafter trivial⟩
  | adoptValidValue blockHash validRound prevotes =>
      exact h.adoptValidValue hrecorded blockHash validRound prevotes
  | startRound height round =>
      obtain ⟨hmessages, hhistory, hevidence⟩ := sameFile_startRound w.machine height round
      obtain ⟨hfiling, hquiet⟩ := h.quiet (.startRound height round) rfl hmessages hhistory
        fun e he => hevidence ▸ he
      exact ⟨hfiling, iff_of_true (hquiet hrecorded) trivial⟩
  | propose proposer blockHash =>
      obtain ⟨hmessages, hhistory, hevidence⟩ := sameFile_propose w.machine proposer blockHash
      obtain ⟨hfiling, hquiet⟩ := h.quiet (.propose proposer blockHash) rfl hmessages
        hhistory fun e he => hevidence ▸ he
      exact ⟨hfiling, iff_of_true (hquiet hrecorded) trivial⟩
  | handleProposal p =>
      obtain ⟨hmessages, hhistory, hevidence⟩ := sameFile_handleProposal w.machine p
      obtain ⟨hfiling, hquiet⟩ := h.quiet (.handleProposal p) rfl hmessages hhistory
        fun e he => hevidence ▸ he
      exact ⟨hfiling, iff_of_true (hquiet hrecorded) trivial⟩
  | takeEvidence =>
      obtain ⟨hfiling, hquiet⟩ := h.quiet .takeEvidence rfl rfl rfl
        fun e he => absurd he List.not_mem_nil
      exact ⟨hfiling, iff_of_true (hquiet hrecorded) trivial⟩
  | onTimeout =>
      obtain ⟨hmessages, hhistory, hevidence⟩ := sameFile_onTimeout w.machine
      obtain ⟨hfiling, hquiet⟩ := h.quiet .onTimeout rfl hmessages hhistory
        fun e he => hevidence ▸ he
      exact ⟨hfiling, iff_of_true (hquiet hrecorded) trivial⟩

theorem Filing.along (h : w.Filing) (hrecorded : w.Recorded) (inputs : List Input) :
    w.RecordedAlong inputs ↔ w.KeepsAlong inputs := by
  induction inputs generalizing w with
  | nil => exact iff_of_true hrecorded trivial
  | cons input rest ih =>
      obtain ⟨hfiling, hstep⟩ := h.step hrecorded input
      have hfirst : ∀ w' : Watched, w'.RecordedAlong rest → w'.Recorded := by
        intro w' hw'
        cases rest with
        | nil => exact hw'
        | cons _ _ => exact hw'.1
      constructor
      · intro hall
        have hafter := hfirst _ hall.2
        exact ⟨hstep.1 hafter, (ih hfiling hafter).1 hall.2⟩
      · intro hall
        exact ⟨hrecorded, (ih hfiling (hstep.2 hall.1)).2 hall.2⟩

end Watched

/-- In every run from a new machine, conflicting votes have produced evidence in every state
exactly if no certificate that is taken up disagrees with a filed vote that is not accused. -/
theorem equivocation_recorded_iff {validators : List Validator} {c : BftConsensus}
    (hnew : new validators = .ok c) (inputs : List Input) :
    (Watched.start c).RecordedAlong inputs ↔ (Watched.start c).KeepsAlong inputs := by
  have hempty : c.voteMessages = ∅ ∧ c.voteHistory = ∅ ∧ c.evidence = [] := by
    simp only [BftConsensus.new, bind_eq_ok, pure_eq_ok] at hnew
    obtain ⟨-, -, map, -, rfl⟩ := hnew
    exact ⟨rfl, rfl, rfl⟩
  have hfiling : (Watched.start c).Filing := by
    constructor
    · intro k m hm
      rw [Watched.start, hempty.1] at hm
      cases hm
    · intro k
      rw [Watched.start, hempty.1, hempty.2.1]
      rfl
    · exact fun m hm => absurd hm List.not_mem_nil
    · exact fun m hm => absurd hm List.not_mem_nil
    · intro e he
      rw [Watched.start, hempty.2.2] at he
      exact he
    · exact fun e he => absurd he List.not_mem_nil
  exact hfiling.along (fun a ha => absurd ha List.not_mem_nil) inputs

end

end BftConsensus

namespace Lone

open BftConsensus

local instance doubleVotesCrypto : Crypto := StandIn.crypto StandIn.digest

def straw (blockHash : String) : ConsensusMessage :=
  { height := 1, round := 0, validatorId := self, voteType := .prevote, blockHash
    signature := StandIn.sign 1 (ConsensusMessage.bytesToSign 1 0 self .prevote blockHash) }

/-- A vote for one block, and in the next round a certificate with a vote for another one. -/
def forgetful : List Input :=
  [.startRound 1 0, .propose self "a", .handle (straw "b"), .onTimeout,
    .adoptValidValue "c" 0 [straw "c"]]

/-- The certificate overwrites the vote. -/
theorem vote_overwritten : ∃ c, BftConsensus.new [⟨self, 1⟩] = .ok c ∧
    ¬(Watched.start c).RecordedAlong forgetful := by
  obtain ⟨u, h⟩ := isOk_iff.1 (by decide +kernel : Except.isOk (do
    let c ← BftConsensus.new [⟨self, 1⟩]
    let w := forgetful.foldl Watched.step (Watched.start c)
    reject (w.accepted ≠ [straw "b", straw "c"] ∨ w.produced ≠ []) "") = true)
  simp only [bind_eq_ok, reject_eq_ok, not_or, not_not] at h
  obtain ⟨c, hnew, haccepted, hproduced⟩ := h
  refine ⟨c, hnew, fun hall => ?_⟩
  have hrecorded : (forgetful.foldl Watched.step (Watched.start c)).Recorded := hall.2.2.2.2.2
  obtain ⟨e, he, -⟩ := hrecorded (straw "b") (by simp [haccepted]) (straw "c")
    (by simp [haccepted]) rfl (by decide)
  rw [hproduced] at he
  cases he

/-- Two votes that come in one after the other. -/
theorem equivocation_recorded_iff_caught : ∃ c, BftConsensus.new [⟨self, 1⟩] = .ok c ∧
    (Watched.start c).RecordedAlong
      [.startRound 1 0, .propose self "a", .handle (straw "b"), .handle (straw "c")] := by
  obtain ⟨c, hnew⟩ := @BftConsensus.new_ok [⟨self, 1⟩] (List.cons_ne_nil _ _)
    (List.forall_mem_singleton.2 Nat.one_ne_zero) (List.nodup_singleton _)
  exact ⟨c, hnew, (equivocation_recorded_iff hnew _).2 ⟨trivial, trivial, trivial, trivial, trivial⟩⟩

end Lone

end IeumChain
