import IeumChain.ConsensusSpec
import IeumChain.Quorums

/-!
# Votes on file

The machine files one vote per validator, step and round, and rebuilds from the file
the proof that a quorum prevoted its valid value. The proof it rebuilds passes its own
check whenever the filed prevotes of the value have a quorum.
-/
namespace IeumChain

open ByteCodec Outcome MachineWords FiniteMap VoteTally

namespace BftConsensus

/-- A vote of the validator for the block is on file. -/
def HasFiled (c : BftConsensus) (round : ℕ) (voteType : VoteType) (x id : String) : Prop :=
  ∃ m, c.voteMessages.lookup (c.height, round, voteType, id) = some m ∧ m.blockHash = x

/-- The prevotes on file for a block in a round exceed two thirds of the power. -/
def FiledQuorum (c : BftConsensus) (x : String) (round : ℕ) : Prop :=
  ∃ ids : Finset String, (∀ id ∈ ids, c.HasFiled round .prevote x id) ∧
    exceedsTwoThirds (∑ id ∈ ids, getD c.validators id 0) c.totalPower = true

theorem exceedsTwoThirds_mono {power power' total : ℕ} (hle : power ≤ power')
    (h : exceedsTwoThirds power total = true) : exceedsTwoThirds power' total = true := by
  rw [exceedsTwoThirds, decide_eq_true_eq] at h ⊢
  exact h.trans_le (min_le_min_right _ (Nat.mul_le_mul_right 3 hle))

theorem FiledQuorum.mono {c c' : BftConsensus} {x : String} {round : ℕ} (h : c.FiledQuorum x round)
    (hvalidators : c'.validators = c.validators) (htotal : c'.totalPower = c.totalPower)
    (hfiled : ∀ id, c.HasFiled round .prevote x id → c'.HasFiled round .prevote x id) :
    c'.FiledQuorum x round := by
  obtain ⟨ids, hids, hexceeds⟩ := h
  refine ⟨ids, fun id hid => hfiled id (hids id hid), ?_⟩
  rw [hvalidators, htotal]
  exact hexceeds

theorem mem_prevoteCertificate {c : BftConsensus} {x : String} {round : ℕ} {m : ConsensusMessage} :
    m ∈ c.prevoteCertificate x round ↔
      (∃ k, c.voteMessages.lookup k = some m) ∧ votesFor c.height round .prevote x m = true := by
  rw [prevoteCertificate, List.mem_insertionSort, List.mem_filter, mem_values]

theorem lookup_fileVote (c : BftConsensus) (m : ConsensusMessage) (k : VoteKey) :
    (c.fileVote m).voteMessages.lookup k =
      if k = m.key then some m else c.voteMessages.lookup k := by
  unfold fileVote
  split_ifs with hk
  · rw [hk]
    exact AList.lookup_insert _
  · exact AList.lookup_insert_ne hk

theorem validPair_foldl_fileVote (votes : List ConsensusMessage) (c : BftConsensus) :
    (votes.foldl fileVote c).validPair = c.validPair := by
  induction votes generalizing c with
  | nil => rfl
  | cons m rest ih => exact ih (c.fileVote m)

theorem history_fileVote (c : BftConsensus) (m : ConsensusMessage) (k : VoteKey) :
    (c.fileVote m).voteHistory.lookup k =
      if k = m.key then some m.blockHash else c.voteHistory.lookup k := by
  unfold fileVote
  split_ifs with hk
  · rw [hk]
    exact AList.lookup_insert _
  · exact AList.lookup_insert_ne hk

/-- The file has grown in the current round only. -/
structure Growth (c c' : BftConsensus) : Prop where
  validators : c'.validators = c.validators
  totalPower : c'.totalPower = c.totalPower
  round : c'.round = c.round
  keep : ∀ r voteType y id, c.HasFiled r voteType y id → c'.HasFiled r voteType y id
  past : ∀ r voteType y id, r ≠ c.round → c'.HasFiled r voteType y id → c.HasFiled r voteType y id

/-- With the same file in the rounds that count, only the valid value matters. -/
theorem Growth.sameFile {c c' : BftConsensus} (hvalidators : c'.validators = c.validators)
    (htotal : c'.totalPower = c.totalPower) (hround : c'.round = c.round)
    (hheight : c'.height = c.height) (hmessages : c'.voteMessages = c.voteMessages) :
    Growth c c' := by
  refine ⟨hvalidators, htotal, hround, ?_, ?_⟩
  · intro r voteType y id
    rw [HasFiled, HasFiled, hheight, hmessages]
    exact fun h => h
  · intro r voteType y id _
    rw [HasFiled, HasFiled, hheight, hmessages]
    exact fun h => h

section
variable [Crypto]

/-- What is on file was verified under the key it is filed under, and the votes counted in the
current round are on file. -/
structure Filed (c : BftConsensus) : Prop where
  message : ∀ k m, c.voteMessages.lookup k = some m →
    m.key = k ∧ m.verify = .ok () ∧ m.validatorId ∈ c.validators
  history : ∀ k, c.voteHistory.lookup k = (c.voteMessages.lookup k).map (·.blockHash)
  counted : ∀ voteType x, ∀ id ∈ getD c.votes (voteType, x) ∅, c.HasFiled c.round voteType x id

variable {c c' : BftConsensus} {x : String} {round : ℕ}

theorem Filed.hasFiled_of_mem (h : Filed c) {m : ConsensusMessage}
    (hm : m ∈ c.prevoteCertificate x round) : c.HasFiled round .prevote x m.validatorId := by
  obtain ⟨⟨k, hk⟩, hvotes⟩ := mem_prevoteCertificate.1 hm
  simp only [votesFor, decide_eq_true_eq] at hvotes
  obtain ⟨hheight, hround, htype, hhash⟩ := hvotes
  refine ⟨m, ?_, hhash⟩
  rw [← (h.message k m hk).1, ConsensusMessage.key, hheight, hround, htype] at hk
  exact hk

theorem Filed.exists_mem (h : Filed c) {id : String} (hid : c.HasFiled round .prevote x id) :
    ∃ m ∈ c.prevoteCertificate x round, m.validatorId = id := by
  obtain ⟨m, hm, hhash⟩ := hid
  have hkey := (h.message _ m hm).1
  simp only [ConsensusMessage.key, Prod.mk.injEq] at hkey
  obtain ⟨hheight, hround, htype, hid⟩ := hkey
  refine ⟨m, mem_prevoteCertificate.2 ⟨⟨_, hm⟩, ?_⟩, hid⟩
  simp [votesFor, hheight, hround, htype, hhash]

/-- The rebuilt proof names each validator once. -/
theorem Filed.nodup_prevoteCertificate (h : Filed c) :
    ((c.prevoteCertificate x round).map (·.validatorId)).Nodup := by
  have hsort : (c.prevoteCertificate x round).Perm
      ((values c.voteMessages).filter (votesFor c.height round .prevote x)) :=
    List.perm_insertionSort ..
  rw [(hsort.map _).nodup_iff]
  have hkeys : (values c.voteMessages).map ConsensusMessage.key = c.voteMessages.keys := by
    rw [values, List.map_map, AList.keys, List.keys]
    apply List.map_congr_left
    intro e he
    exact (h.message e.1 e.2 (AList.mem_lookup_iff.2 he)).1
  have hnodup : (((values c.voteMessages).filter (votesFor c.height round .prevote x)).map
      ConsensusMessage.key).Nodup := by
    refine List.Nodup.sublist (List.filter_sublist.map _) ?_
    rw [hkeys]
    exact c.voteMessages.keys_nodup
  have hkey : ((values c.voteMessages).filter (votesFor c.height round .prevote x)).map
      ConsensusMessage.key = (((values c.voteMessages).filter
        (votesFor c.height round .prevote x)).map (·.validatorId)).map
          fun id => (c.height, round, VoteType.prevote, id) := by
    rw [List.map_map]
    apply List.map_congr_left
    intro m hm
    have hvotes := (List.mem_filter.1 hm).2
    simp only [votesFor, decide_eq_true_eq] at hvotes
    obtain ⟨hheight, hround, htype, -⟩ := hvotes
    simp [ConsensusMessage.key, hheight, hround, htype]
  rw [hkey] at hnodup
  exact hnodup.of_map _

/-- A filed quorum gives back a proof that the machine itself accepts. -/
theorem Filed.checkValidValue (h : Filed c) (hpower : total c.validators ≤ u64Max)
    (hquorum : c.FiledQuorum x round) :
    c.checkValidValue x round (c.prevoteCertificate x round) = .ok () := by
  obtain ⟨ids, hids, hexceeds⟩ := hquorum
  have hmember : ∀ m ∈ c.prevoteCertificate x round,
      m.verify = .ok () ∧ m.validatorId ∈ c.validators := by
    intro m hm
    obtain ⟨⟨k, hk⟩, -⟩ := mem_prevoteCertificate.1 hm
    exact (h.message k m hk).2
  have hnodup : ((c.prevoteCertificate x round).map (·.validatorId)).Nodup :=
    h.nodup_prevoteCertificate
  have hlength : (c.prevoteCertificate x round).length ≤ c.validators.keys.length := by
    rw [← List.length_map (f := (·.validatorId))]
    refine (hnodup.subperm ?_).length_le
    intro id hid
    obtain ⟨m, hm, rfl⟩ := List.mem_map.1 hid
    exact AList.mem_keys.1 (hmember m hm).2
  have hsum : ((c.prevoteCertificate x round).map fun m => getD c.validators m.validatorId 0).sum =
      ∑ id ∈ ((c.prevoteCertificate x round).map (·.validatorId)).toFinset,
        getD c.validators id 0 := by
    rw [List.sum_toFinset _ hnodup, List.map_map]
    rfl
  have hle : ∑ id ∈ ids, getD c.validators id 0 ≤
      ∑ id ∈ ((c.prevoteCertificate x round).map (·.validatorId)).toFinset,
        getD c.validators id 0 := by
    refine Finset.sum_le_sum_of_subset fun id hid => ?_
    obtain ⟨m, hm, rfl⟩ := h.exists_mem (hids id hid)
    exact List.mem_toFinset.2 (List.mem_map_of_mem hm)
  have htop := (sum_getD_le_total c.validators
    ((c.prevoteCertificate x round).map (·.validatorId)).toFinset).trans hpower
  rw [← hsum] at hle htop
  have hcount := fun mismatch unknown duplicate overflow => count_complete
    (c.prevoteRule c.height round x mismatch unknown duplicate overflow)
    (fun m hm => ⟨(mem_prevoteCertificate.1 hm).2, (hmember m hm).1,
      AList.lookup_isSome.2 (hmember m hm).2⟩) hnodup htop
  simp only [BftConsensus.checkValidValue, check_bind_eq_ok, reject_eq_ok, not_lt]
  refine ⟨hlength, ?_⟩
  simp only [bind_eq_ok, reject_eq_ok, not_not]
  exact ⟨_, hcount .., exceedsTwoThirds_mono hle hexceeds⟩

/-- A proof that was accepted consists of verified votes for the block, of a quorum. -/
theorem voters_of_checkValidValue {votes : List ConsensusMessage}
    (hcheck : c.checkValidValue x round votes = .ok ()) :
    (∀ m ∈ votes, votesFor c.height round .prevote x m = true ∧ m.verify = .ok () ∧
        m.validatorId ∈ c.validators) ∧
      ∃ ids : Finset String, (∀ id ∈ ids, ∃ m ∈ votes, m.validatorId = id) ∧
        exceedsTwoThirds (∑ id ∈ ids, getD c.validators id 0) c.totalPower = true := by
  simp only [BftConsensus.checkValidValue, check_bind_eq_ok] at hcheck
  obtain ⟨-, hcheck⟩ := hcheck
  simp only [bind_eq_ok, reject_eq_ok, not_not] at hcheck
  obtain ⟨n, hcount, hexceeds⟩ := hcheck
  refine ⟨fun m hm => ?_, ?_⟩
  · obtain ⟨hmatching, hverify, hknown⟩ := accepted_of_loop _ hcount m hm
    exact ⟨hmatching, hverify, AList.lookup_isSome.1 hknown⟩
  · obtain ⟨ids, rfl, hids⟩ := count_sound _ hcount
    refine ⟨ids, fun id hid => ?_, hexceeds⟩
    obtain ⟨m, hm, hvoter, -⟩ := hids id hid
    exact ⟨m, hm, hvoter⟩

/-- The prevotes on file are none, or they pass the check of a proof. -/
def OnFile (c : BftConsensus) (x : String) (round : ℕ) : Prop :=
  c.prevoteCertificate x round = [] ∨
    c.checkValidValue x round (c.prevoteCertificate x round) = .ok ()

theorem OnFile.cases (h : c.OnFile x round) (hfiled : Filed c) :
    c.prevoteCertificate x round = [] ∨ c.FiledQuorum x round := by
  refine h.imp id fun hcheck => ?_
  obtain ⟨-, ids, hids, hexceeds⟩ := voters_of_checkValidValue hcheck
  refine ⟨ids, fun id hid => ?_, hexceeds⟩
  obtain ⟨m, hm, rfl⟩ := hids id hid
  exact hfiled.hasFiled_of_mem hm

/-! ## Filing -/

/-- Changes that leave the file, the round and the counted votes alone. -/
theorem Filed.congr (h : Filed c) (hmessages : c'.voteMessages = c.voteMessages)
    (hhistory : c'.voteHistory = c.voteHistory) (hvalidators : c'.validators = c.validators)
    (hheight : c'.height = c.height)
    (hvotes : c'.votes = ∅ ∨ c'.votes = c.votes ∧ c'.round = c.round) : Filed c' where
  message k m hm := by
    rw [hmessages] at hm
    rw [hvalidators]
    exact h.message k m hm
  history k := by
    rw [hhistory, hmessages]
    exact h.history k
  counted voteType x id hid := by
    rcases hvotes with hvotes | ⟨hvotes, hround⟩
    · rw [hvotes] at hid
      simp [getD] at hid
    · rw [hvotes] at hid
      unfold HasFiled
      rw [hmessages, hheight, hround]
      exact h.counted voteType x id hid

/-- A verified vote may be filed unless it replaces a different one that was counted. -/
theorem Filed.fileVote (h : Filed c) {m : ConsensusMessage} (hverify : m.verify = .ok ())
    (hmember : m.validatorId ∈ c.validators)
    (hkeep : m.round = c.round → ∀ filed, c.voteMessages.lookup m.key = some filed →
      filed.blockHash = m.blockHash) : Filed (c.fileVote m) where
  message k m' hm' := by
    rw [lookup_fileVote] at hm'
    split_ifs at hm' with hk
    · cases hm'
      exact ⟨hk.symm, hverify, hmember⟩
    · exact h.message k m' hm'
  history k := by
    rw [lookup_fileVote, history_fileVote]
    split_ifs
    · rfl
    · exact h.history k
  counted voteType x id hid := by
    obtain ⟨filed, hfiled, hhash⟩ := h.counted voteType x id hid
    unfold HasFiled
    simp only [lookup_fileVote]
    split_ifs with hk
    · refine ⟨m, rfl, ?_⟩
      have hround : m.round = c.round := (congrArg (fun k : VoteKey => k.2.1) hk).symm
      rw [← hkeep hround filed (by rw [← hk]; exact hfiled)]
      exact hhash
    · exact ⟨filed, hfiled, hhash⟩

/-- The votes of a proof are filed together. They may replace filed votes, but in the current
round only votes for the same block. -/
theorem Filed.foldl_fileVote {votes : List ConsensusMessage} (h : Filed c)
    (hvotes : ∀ m ∈ votes, votesFor c.height round .prevote x m = true ∧ m.verify = .ok () ∧
      m.validatorId ∈ c.validators)
    (hkeep : round = c.round → ∀ m ∈ votes, ∀ filed, c.voteMessages.lookup m.key = some filed →
      filed.blockHash = x) :
    Filed (votes.foldl BftConsensus.fileVote c) ∧
      ∀ id, c.HasFiled round .prevote x id ∨ (∃ m ∈ votes, m.validatorId = id) →
        (votes.foldl BftConsensus.fileVote c).HasFiled round .prevote x id := by
  induction votes generalizing c with
  | nil => exact ⟨h, fun _ hid => hid.elim (fun h => h) fun ⟨_, hm, _⟩ => absurd hm List.not_mem_nil⟩
  | cons m rest ih =>
      obtain ⟨hfor, hverify, hmember⟩ := hvotes m (List.mem_cons_self ..)
      have hcontent := hfor
      simp only [votesFor, decide_eq_true_eq] at hcontent
      obtain ⟨hheight, hround, htype, hhash⟩ := hcontent
      have hkey : m.key = (c.height, round, .prevote, m.validatorId) := by
        simp [ConsensusMessage.key, hheight, hround, htype]
      have hfiled : Filed (c.fileVote m) := by
        refine h.fileVote hverify hmember fun hcurrent filed hlookup => ?_
        rw [hhash]
        exact hkeep (hround.symm.trans hcurrent) m (List.mem_cons_self ..) filed hlookup
      obtain ⟨hrest, hnew⟩ := ih hfiled (fun v hv => hvotes v (List.mem_cons_of_mem _ hv)) (by
        intro hcurrent v hv filed hlookup
        rw [lookup_fileVote] at hlookup
        split_ifs at hlookup
        · cases hlookup
          exact hhash
        · exact hkeep hcurrent v (List.mem_cons_of_mem _ hv) filed hlookup)
      refine ⟨hrest, fun id hid => hnew id ?_⟩
      have hself : ∀ id, id = m.validatorId ∨ c.HasFiled round .prevote x id →
          (c.fileVote m).HasFiled round .prevote x id := by
        intro id hid
        unfold HasFiled
        have hsame : (c.fileVote m).height = c.height := rfl
        rw [hsame, lookup_fileVote, hkey]
        split_ifs with hk
        · exact ⟨m, rfl, hhash⟩
        · refine hid.resolve_left fun heq => hk ?_
          rw [heq]
      rcases hid with hid | ⟨v, hv, rfl⟩
      · exact .inl (hself id (.inr hid))
      · rcases List.mem_cons.1 hv with rfl | hv
        · exact .inl (hself _ (.inl rfl))
        · exact .inr ⟨v, hv, rfl⟩

theorem Filed.addVote (h : Filed c) {m : ConsensusMessage}
    (hm : c.HasFiled c.round m.voteType m.blockHash m.validatorId) : Filed (c.addVote m) where
  message := h.message
  history := h.history
  counted voteType x id hid := by
    rcases mem_votes_addVote hid with hid | ⟨rfl, rfl, rfl⟩
    · exact h.counted voteType x id hid
    · exact hm

/-- A counted quorum of prevotes is on file. -/
theorem Filed.quorum (h : Filed c) (hpower : total c.validators ≤ u64Max)
    (hquorum : c.hasQuorum .prevote x = true) : c.FiledQuorum x c.round := by
  refine ⟨getD c.votes (.prevote, x) ∅, fun id hid => h.counted _ _ id hid, ?_⟩
  have hle := (sum_getD_le_total c.validators (getD c.votes (.prevote, x) ∅)).trans hpower
  have hsum : c.votePower .prevote x =
      ∑ id ∈ getD c.votes (.prevote, x) ∅, getD c.validators id 0 := by
    refine Nat.mod_eq_of_lt (lt_of_le_of_lt hle ?_)
    norm_num [u64Max]
  rw [← hsum]
  exact hquorum

/-! ## The valid value can be proved -/

/-- The valid value is of a round that was reached, and where a block is kept for it, the
prevotes on file are none or a quorum. -/
structure Provable (c : BftConsensus) (kept : Option String) : Prop where
  filed : Filed c
  power : total c.validators ≤ u64Max
  reached : ∀ x vr, c.validPair = some (x, vr) →
    vr < c.round ∨ vr = c.round ∧ c.FiledQuorum x vr
  proved : ∀ x vr, c.validPair = some (x, vr) → kept = some x →
    (∀ id, ¬c.HasFiled vr .prevote x id) ∨ c.FiledQuorum x vr

variable {kept kept' : Option String}

theorem Filed.prevoteCertificate_eq_nil (h : Filed c) :
    c.prevoteCertificate x round = [] ↔ ∀ id, ¬c.HasFiled round .prevote x id := by
  constructor
  · intro hnil id hid
    obtain ⟨m, hm, -⟩ := h.exists_mem hid
    rw [hnil] at hm
    cases hm
  · intro hnone
    rw [List.eq_nil_iff_forall_not_mem]
    exact fun m hm => hnone _ (h.hasFiled_of_mem hm)

/-- What the machine reports of its valid value passes its own check. -/
theorem Provable.onFile (h : Provable c kept) {vr : ℕ} (hpair : c.validPair = some (x, vr))
    (hkept : kept = some x) : c.OnFile x vr := by
  rcases h.proved x vr hpair hkept with hnone | hquorum
  · exact .inl (h.filed.prevoteCertificate_eq_nil.2 hnone)
  · exact .inr (h.filed.checkValidValue h.power hquorum)

theorem Provable.validRound_le (h : Provable c kept) {vr : ℕ}
    (hpair : c.validPair = some (x, vr)) : vr ≤ c.round := by
  rcases h.reached x vr hpair with hlt | ⟨heq, -⟩ <;> omega

/-- The machine keeps its valid value while its file grows. -/
theorem Provable.grow (h : Provable c kept) (hgrowth : Growth c c') (hfiled : Filed c')
    (hpair : c'.validPair = c.validPair) : Provable c' kept where
  filed := hfiled
  power := by
    rw [hgrowth.validators]
    exact h.power
  reached x vr hx := by
    rw [hpair] at hx
    rw [hgrowth.round]
    exact (h.reached x vr hx).imp id fun ⟨heq, hquorum⟩ =>
      ⟨heq, hquorum.mono hgrowth.validators hgrowth.totalPower (hgrowth.keep _ _ _)⟩
  proved x vr hx hkept := by
    rw [hpair] at hx
    rcases h.proved x vr hx hkept with hnone | hquorum
    · -- nothing is on file, so the round is over and nothing comes after
      rcases h.reached x vr hx with hlt | ⟨-, hquorum⟩
      · exact .inl fun id hid => hnone id (hgrowth.past _ _ _ _ hlt.ne hid)
      · exact .inr (hquorum.mono hgrowth.validators hgrowth.totalPower (hgrowth.keep _ _ _))
    · exact .inr (hquorum.mono hgrowth.validators hgrowth.totalPower (hgrowth.keep _ _ _))

/-- A quorum of the current round on file proves any valid value taken from it. -/
theorem provable_of_quorum (hfiled : Filed c) (hpower : total c.validators ≤ u64Max) {vr : ℕ}
    (hpair : c.validPair = some (x, vr)) (hle : vr ≤ c.round) (hquorum : c.FiledQuorum x vr) :
    Provable c kept where
  filed := hfiled
  power := hpower
  reached y vr' hy := by
    cases hpair.symm.trans hy
    rcases hle.lt_or_eq with hlt | heq
    · exact .inl hlt
    · exact .inr ⟨heq, hquorum⟩
  proved y vr' hy _ := by
    cases hpair.symm.trans hy
    exact .inr hquorum

theorem Provable.forget (h : Provable c kept) : Provable c none :=
  ⟨h.filed, h.power, h.reached, by simp⟩

/-- A later round of the same height. -/
theorem Provable.enterRound (h : Provable c kept) {target : ℕ} (htarget : c.round < target) :
    Provable (c.enterRound c.height target) kept := by
  have hpair : (c.enterRound c.height target).validPair = c.validPair := by
    simp [BftConsensus.enterRound, validPair]
  have hfiled : ∀ r voteType y id, (c.enterRound c.height target).HasFiled r voteType y id ↔
      c.HasFiled r voteType y id := fun _ _ _ _ => Iff.rfl
  refine ⟨h.filed.congr rfl rfl rfl rfl (.inl rfl), h.power, fun x vr hx => ?_,
    fun x vr hx hkept => ?_⟩
  · rw [hpair] at hx
    exact .inl ((h.validRound_le hx).trans_lt htarget)
  · rw [hpair] at hx
    exact (h.proved x vr hx hkept).imp (fun hnone id hid => hnone id ((hfiled ..).1 hid))
      fun hquorum => hquorum.mono rfl rfl fun id hid => (hfiled ..).2 hid

/-- A proposal may replace the valid value by an older round for which few prevotes are on
file. -/
theorem Provable.handleProposal (h : Provable c kept) {p : SignedProposal}
    (hproposal : c.checkProposal p = .ok () → ∀ vr, p.validRound = some vr →
      kept = some p.block.hash → c.OnFile p.block.hash vr) :
    Provable (c.handleProposal p).1 kept := by
  unfold BftConsensus.handleProposal
  cases hcheck : c.checkProposal p with
  | error e => exact h
  | ok u =>
      have hnoted : Provable (c.noteValidRound p) kept := by
        unfold noteValidRound
        cases hvalid : p.validRound with
        | none => exact h
        | some vr =>
            obtain ⟨-, hround, -, -, hproof, -⟩ := checkProposal_eq_ok hcheck
            have hlt : vr < c.round := by
              have hcertificate := hproof vr hvalid
              simp only [verifyValidRoundCertificate, check_bind_eq_ok, reject_eq_ok, not_le]
                at hcertificate
              omega
            refine ⟨h.filed.congr rfl rfl rfl rfl (.inr ⟨rfl, rfl⟩), h.power, ?_, ?_⟩
            · rintro x vr' ⟨⟩
              exact .inl hlt
            · rintro x vr' ⟨⟩ hkept
              refine ((hproposal hcheck vr hvalid hkept).cases h.filed).imp ?_ ?_
              · exact fun hnil => h.filed.prevoteCertificate_eq_nil.1 hnil
              · exact fun hquorum => hquorum.mono rfl rfl fun _ hid => hid
      have hproposed : ∀ c' : BftConsensus, Provable c' kept →
          Provable (c'.propose p.proposerId p.block.hash).1 kept := by
        intro c' hc'
        unfold propose
        cases c'.checkPropose p.proposerId p.block.hash with
        | error e => exact hc'
        | ok u =>
            exact hc'.grow (.sameFile rfl rfl rfl rfl rfl)
              (hc'.filed.congr rfl rfl rfl rfl (.inr ⟨rfl, rfl⟩)) rfl
      dsimp only
      refine hproposed _ ?_
      unfold noteValidRound at hnoted
      cases hvalid : p.validRound with
      | none =>
          rw [hvalid] at hnoted
          exact hnoted
      | some vr =>
          rw [hvalid] at hnoted
          exact hnoted

/-- A vote that is filed adds to the file of the current round. -/
theorem growth_fileVote {m : ConsensusMessage} (hcheck : c.checkVote m = .ok ())
    (hnew : c.voteMessages.lookup m.key = none) : Growth c (c.fileVote m) := by
  obtain ⟨-, hround, -⟩ := checkVote_eq_ok hcheck
  refine ⟨rfl, rfl, rfl, ?_, ?_⟩
  · rintro r voteType y id ⟨filed, hfiled, hhash⟩
    refine ⟨filed, ?_, hhash⟩
    rw [lookup_fileVote, if_neg]
    · exact hfiled
    · intro hkey
      have hsame : (c.fileVote m).height = c.height := rfl
      rw [hsame] at hkey
      rw [hkey, hnew] at hfiled
      cases hfiled
  · rintro r voteType y id hne ⟨filed, hfiled, hhash⟩
    refine ⟨filed, ?_, hhash⟩
    rw [lookup_fileVote, if_neg] at hfiled
    · exact hfiled
    · intro hkey
      have hr : r = m.round := congrArg (fun k : VoteKey => k.2.1) hkey
      exact hne (hr.trans hround)

/-- The valid value after a vote: kept as it was, or newly locked with its quorum on file. -/
def AfterVote (c : BftConsensus) (kept : Option String) (c' : BftConsensus) : Prop :=
  Provable c' kept ∧ ¬(c.phase = .prevote ∧ c'.phase = .precommit) ∨ ∀ kept', Provable c' kept'

theorem AfterVote.same (h : Provable c' kept) (hphase : c'.phase = c.phase) :
    AfterVote c kept c' := by
  refine .inl ⟨h, ?_⟩
  rw [hphase]
  rintro ⟨hprevote, hprecommit⟩
  cases hprevote.symm.trans hprecommit

theorem Provable.advancePhase (h : Provable c kept) (m : ConsensusMessage) :
    AfterVote c kept (c.advancePhase m) := by
  rcases c.advancePhase_cases m with hcase | ⟨-, -, hquorum, hcase⟩ | ⟨-, -, -, hcase⟩
  · rw [hcase]
    exact .same h rfl
  · rw [hcase]
    right
    intro kept'
    have hfiled := h.filed.quorum h.power hquorum
    exact provable_of_quorum (h.filed.congr rfl rfl rfl rfl (.inr ⟨rfl, rfl⟩)) h.power rfl le_rfl
      (hfiled.mono rfl rfl fun _ hid => hid)
  · rw [hcase]
    refine .inl ⟨h.grow (.sameFile rfl rfl rfl rfl rfl)
      (h.filed.congr rfl rfl rfl rfl (.inr ⟨rfl, rfl⟩)) rfl, ?_⟩
    rintro ⟨-, ⟨⟩⟩

theorem Provable.countVote (h : Provable c kept) {m : ConsensusMessage}
    (hm : c.HasFiled c.round m.voteType m.blockHash m.validatorId) :
    AfterVote c kept (c.countVote m).1 := by
  unfold BftConsensus.countVote
  split_ifs
  · exact .same h rfl
  · have hadded : Provable (c.addVote m) kept :=
      h.grow (.sameFile rfl rfl rfl rfl rfl) (h.filed.addVote hm) rfl
    exact hadded.advancePhase m

/-- A vote is on file before it is counted. -/
theorem Provable.handle (h : Provable c kept) (m : ConsensusMessage) :
    AfterVote c kept (c.handle m).1 := by
  unfold BftConsensus.handle
  cases hcheck : c.checkVote m with
  | error e => exact .same h rfl
  | ok u =>
      obtain ⟨hheight, hround, hmember, hverify, -⟩ := checkVote_eq_ok hcheck
      have hkey : m.key = (c.height, c.round, m.voteType, m.validatorId) := by
        simp [ConsensusMessage.key, hheight, hround]
      have hhistory := h.filed.history m.key
      dsimp only
      cases hlookup : c.voteHistory.lookup m.key with
      | none =>
          have hnew : c.voteMessages.lookup m.key = none := by
            rw [hlookup] at hhistory
            exact Option.map_eq_none_iff.1 hhistory.symm
          have hfile : Provable (c.fileVote m) kept := by
            refine h.grow (growth_fileVote hcheck hnew) ?_ rfl
            refine h.filed.fileVote hverify hmember fun _ filed hfiled => ?_
            rw [hnew] at hfiled
            cases hfiled
          refine hfile.countVote ⟨m, ?_, rfl⟩
          rw [lookup_fileVote]
          exact if_pos hkey.symm
      | some previous =>
          dsimp only
          split_ifs with hconflict
          · refine .same ?_ (sameCore_recordEvidence c m).phase
            unfold recordEvidence
            split
            · exact h
            · dsimp only
              split_ifs
              · exact h.grow (.sameFile rfl rfl rfl rfl rfl)
                  (h.filed.congr rfl rfl rfl rfl (.inr ⟨rfl, rfl⟩)) rfl
              · exact h
          · rw [hlookup] at hhistory
            obtain ⟨filed, hfiled, hhash⟩ := Option.map_eq_some_iff.1 hhistory.symm
            rw [hkey] at hfiled
            exact h.countVote ⟨filed, hfiled, hhash.trans (not_not.1 hconflict)⟩

/-- A newer valid value is adopted together with its proof, and where its round is not later
than the current one it can be proved again. -/
theorem Provable.adoptValidValue (h : Provable c kept) {vr : ℕ} {votes : List ConsensusMessage}
    (hcheck : c.checkValidValue x vr votes = .ok ())
    (hnewer : c.validRound.all (· < vr) = true)
    (hkeep : vr = c.round → ∀ m ∈ votes, ∀ filed, c.voteMessages.lookup m.key = some filed →
      filed.blockHash = x) {c' : BftConsensus} (hc' : c' = (c.adoptValidValue x vr votes).1) :
    Filed c' ∧ c'.FiledQuorum x vr ∧ c'.validPair = some (x, vr) := by
  obtain ⟨hvotes, ids, hids, hexceeds⟩ := voters_of_checkValidValue hcheck
  have hadopted : c' = votes.foldl BftConsensus.fileVote
      { c with validValue := some x, validRound := some vr } := by
    rw [hc', BftConsensus.adoptValidValue, hcheck]
    dsimp only
    rw [if_pos hnewer]
  have hstart : Filed { c with validValue := some x, validRound := some vr } :=
    h.filed.congr rfl rfl rfl rfl (.inr ⟨rfl, rfl⟩)
  obtain ⟨hfiled, hnew⟩ := hstart.foldl_fileVote hvotes hkeep
  have hcore := sameCore_foldl_fileVote votes { c with validValue := some x, validRound := some vr }
  rw [← hadopted] at hfiled hnew hcore
  refine ⟨hfiled, ⟨ids, fun id hid => hnew id (.inr (hids id hid)), ?_⟩, ?_⟩
  · rw [hcore.validators, hcore.totalPower]
    exact hexceeds
  · rw [hadopted]
    exact validPair_foldl_fileVote votes _

end

end BftConsensus

end IeumChain
