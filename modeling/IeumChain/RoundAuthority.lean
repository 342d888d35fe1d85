import IeumChain.MachineCalls
import IeumChain.Settings

/-!
# Who may end a round

A node follows round changes to a later round only if registered validators with more than
a third of the power have signed for that round, or with more than two thirds for the round
before it. What the tracker holds for the rounds ahead is signed for them, by different
validators, in every run that keeps the validators. Within a height no round comes back.
-/
namespace IeumChain

open Outcome MachineWords FiniteMap

/-! ## The power of some of the validators -/

/-- The power of the listed validators with the given identifiers. -/
def heldPower (validators : List Validator) (ids : List String) : ℕ :=
  listedPower (validators.filter (·.id ∈ ids))

section
variable {validators : List Validator} {ids : List String}

theorem heldPower_le (validators : List Validator) (ids : List String) :
    heldPower validators ids ≤ listedPower validators :=
  (List.filter_sublist.map _).sum_le_sum fun _ _ => Nat.zero_le _

theorem heldPower_nil (validators : List Validator) : heldPower validators [] = 0 := by
  simp [heldPower, listedPower]

/-- A further validator adds its power. -/
theorem heldPower_cons (hnodup : (validators.map (·.id)).Nodup) {v : Validator}
    (hv : v ∈ validators) (hnew : v.id ∉ ids) :
    heldPower validators (v.id :: ids) = v.votingPower + heldPower validators ids := by
  induction validators with
  | nil => cases hv
  | cons u rest ih =>
      rw [List.map_cons, List.nodup_cons] at hnodup
      obtain ⟨hfresh, hnodup⟩ := hnodup
      unfold heldPower at *
      rcases List.mem_cons.1 hv with rfl | hv
      · have hrest : rest.filter (·.id ∈ v.id :: ids) = rest.filter (·.id ∈ ids) := by
          refine List.filter_congr fun w hw => ?_
          have hne : w.id ≠ v.id := fun heq => hfresh (heq ▸ List.mem_map_of_mem hw)
          simp [hne]
        rw [List.filter_cons_of_pos (by simp), List.filter_cons_of_neg (by simpa using hnew),
          hrest]
        simp [listedPower]
      · have hne : u.id ≠ v.id := fun heq => hfresh (heq ▸ List.mem_map_of_mem hv)
        by_cases hu : u.id ∈ ids
        · rw [List.filter_cons_of_pos (by simp [hu]), List.filter_cons_of_pos (by simpa using hu)]
          simp only [listedPower, List.map_cons, List.sum_cons] at ih ⊢
          rw [ih hnodup hv]
          omega
        · rw [List.filter_cons_of_neg (by simp [hu, hne]),
            List.filter_cons_of_neg (by simpa using hu)]
          exact ih hnodup hv

/-- Looking up the power of each signer and adding up is the power they hold. -/
theorem sum_find_powers (hnodup : (validators.map (·.id)).Nodup) {votes : List SignedRoundChange}
    (hdistinct : (votes.map (·.validatorId)).Nodup)
    (hregistered : ∀ m ∈ votes, m.validatorId ∈ validators.map (·.id)) :
    (votes.filterMap fun m =>
        (validators.find? (·.id = m.validatorId)).map (·.votingPower)).sum =
      heldPower validators (votes.map (·.validatorId)) := by
  induction votes with
  | nil => exact (heldPower_nil validators).symm
  | cons m rest ih =>
      rw [List.map_cons, List.nodup_cons] at hdistinct
      have hrest := ih hdistinct.2 fun m' hm' => hregistered m' (List.mem_cons_of_mem _ hm')
      obtain ⟨u, hu, hid⟩ := List.mem_map.1 (hregistered m (List.mem_cons_self ..))
      have hsome : (validators.find? (·.id = m.validatorId)).isSome = true := by
        rw [List.find?_isSome]
        exact ⟨u, hu, decide_eq_true hid⟩
      obtain ⟨v, hv⟩ := Option.isSome_iff_exists.1 hsome
      have hvid : v.id = m.validatorId := by simpa using List.find?_some hv
      rw [List.filterMap_cons, hv]
      simp only [Option.map_some, List.sum_cons, List.map_cons]
      rw [hrest, ← hvid, heldPower_cons hnodup (List.mem_of_find?_eq_some hv)]
      rw [hvid]
      exact hdistinct.1

end

/-! ## Rounds do not come back -/

namespace BftConsensus

/-- The machine is at a later height, or at the same height and at no earlier round. -/
def Onward (c c' : BftConsensus) : Prop :=
  c.height < c'.height ∨ c.height = c'.height ∧ c.round ≤ c'.round

section
variable {a b c c' : BftConsensus}

theorem Onward.refl (c : BftConsensus) : c.Onward c := .inr ⟨rfl, le_rfl⟩

theorem Onward.trans (h : a.Onward b) (h' : b.Onward c) : a.Onward c := by
  unfold Onward at *
  omega

theorem SameCore.onward (h : SameCore c c') : c.Onward c' := .inr ⟨h.height.symm, h.round.ge⟩

theorem onward_startRound (c : BftConsensus) (height round : ℕ) :
    c.Onward (c.startRound height round).1 := by
  unfold startRound
  split_ifs with h
  · exact .refl c
  · simp only [Onward, enterRound]
    omega

theorem onward_propose (c : BftConsensus) (proposer blockHash : String) :
    c.Onward (c.propose proposer blockHash).1 := by
  unfold propose
  split
  · exact .refl c
  · exact .inr ⟨rfl, le_rfl⟩

/-- No call on the machine takes it back to an earlier round. -/
theorem onward_after [Crypto] (c : BftConsensus) (input : Input) : c.Onward (c.after input) := by
  cases input with
  | startRound height round => exact c.onward_startRound height round
  | propose proposer blockHash => exact c.onward_propose proposer blockHash
  | handleProposal p =>
      simp only [after]
      rcases c.handleProposal_cases p with ⟨c', e, hcase, hcore⟩ | ⟨-, -, -, hcase⟩
      · rw [hcase]
        exact hcore.onward
      · rw [hcase]
        exact (c.sameCore_noteValidRound p).onward
  | handle m =>
      simp only [after]
      rcases c.handle_cases m with ⟨c', e, hcase, hcore⟩ | ⟨-, -, c₁, hcore, hcase⟩
      · rw [hcase]
        exact hcore.onward
      · rw [hcase]
        have hround := (c₁.addVote m).sameRound_advancePhase m
        exact hcore.onward.trans (.inr ⟨hround.height.symm, hround.round.ge⟩)
  | adoptValidValue blockHash validRound prevotes =>
      exact (c.sameCore_adoptValidValue blockHash validRound prevotes).onward
  | takeEvidence => exact .refl c
  | onTimeout =>
      simp only [after, onTimeout]
      split
      · exact .refl c
      · exact c.onward_startRound _ _

end

end BftConsensus

namespace ConsensusRuntime

/-- The validators of the node stay. -/
def KeepsValidators (_ : Env) (_ : ConsensusRuntime) (op : Operation) : Prop :=
  ∀ validators, op ≠ .replaceBootstrapValidators validators

/-- The signers of round changes of this chain and height for a round, which hold some power. -/
structure Called [Crypto] (rt : ConsensusRuntime) (round : ℕ) (votes : List SignedRoundChange) :
    Prop where
  distinct : (votes.map (·.validatorId)).Nodup
  registered : ∀ m ∈ votes, m.validatorId ∈ rt.validators.map (·.id)
  verified : ∀ m ∈ votes, m.verify = .ok ()
  chain : ∀ m ∈ votes, m.chainId = rt.chain.chainId
  genesis : ∀ m ∈ votes, m.genesisCommitment = rt.chain.genesisCommitment
  height : ∀ m ∈ votes, m.height = rt.consensus.height
  round : ∀ m ∈ votes, m.round = round

section
variable [Crypto] {rt rt' : ConsensusRuntime} {env : Env} {m : SignedRoundChange}

/-- Within a height no operation that keeps the validators takes a node to an earlier round. -/
theorem onward_perform (rt : ConsensusRuntime) (env : Env) {op : Operation}
    (hop : KeepsValidators env rt op) : rt.consensus.Onward (rt.perform env op).consensus := by
  have honward : ∀ c c', Calls c c' → c.Onward c' := by
    intro c c' h
    induction h with
    | refl => exact .refl _
    | tail _ hstep ih =>
        obtain ⟨input, -, rfl⟩ := hstep
        exact ih.trans (BftConsensus.onward_after _ input)
  rcases rt.calls_perform env op with hcalled | ⟨validators, c, hreplaces, -⟩
  · exact honward _ _ hcalled
  · exact absurd hreplaces (hop validators)

/-! ## The tracker -/

/-- The round changes on file for the rounds that the node has not left are signed for them. -/
def Filed (rt : ConsensusRuntime) : Prop :=
  ∀ round, rt.consensus.round ≤ round →
    rt.Called round (rt.filedRoundChanges (rt.consensus.height, round))

theorem called_nil (rt : ConsensusRuntime) (round : ℕ) : rt.Called round [] := by
  constructor <;> simp

theorem Called.congr {round : ℕ} {votes : List SignedRoundChange} (h : rt.Called round votes)
    (hvalidators : rt'.validators = rt.validators) (hchain : rt.chain.SameGenesis rt'.chain)
    (hheight : rt'.consensus.height = rt.consensus.height) : rt'.Called round votes where
  distinct := h.distinct
  registered m hm := by
    rw [hvalidators]
    exact h.registered m hm
  verified := h.verified
  chain m hm := (h.chain m hm).trans hchain.1.symm
  genesis m hm := (h.genesis m hm).trans hchain.2.symm
  height m hm := (h.height m hm).trans hheight.symm
  round := h.round

/-- A round change that passes its checks joins those of its round unless its validator has one
there. -/
theorem Called.record (hcheck : rt.checkRoundChange m = .ok ())
    (h : rt.Called m.round (rt.filedRoundChanges (m.height, m.round))) :
    rt.Called m.round ((rt.recordRoundChange m).filedRoundChanges (m.height, m.round)) := by
  simp only [checkRoundChange, check_bind_eq_ok, reject_eq_ok, not_or, not_not] at hcheck
  obtain ⟨hverify, ⟨hchain, hgenesis⟩, hheight, hregistered, -⟩ := hcheck
  unfold filedRoundChanges recordRoundChange at *
  dsimp only
  rw [getD_insert_self]
  split_ifs with hknown
  · exact h
  · simp only [isValidator, decide_eq_true_eq] at hregistered
    refine ⟨?_, ?_, ?_, ?_, ?_, ?_, ?_⟩
    · rw [List.map_append, List.nodup_append]
      refine ⟨h.distinct, List.nodup_singleton _, ?_⟩
      rintro id hid _ hm rfl
      rw [List.map_singleton, List.mem_singleton] at hm
      exact hknown (hm ▸ hid)
    all_goals
      intro m' hm'
      rcases List.mem_append.1 hm' with hm' | hm'
    · exact h.registered m' hm'
    · rwa [List.mem_singleton.1 hm']
    · exact h.verified m' hm'
    · rwa [List.mem_singleton.1 hm']
    · exact h.chain m' hm'
    · rwa [List.mem_singleton.1 hm']
    · exact h.genesis m' hm'
    · rwa [List.mem_singleton.1 hm']
    · exact h.height m' hm'
    · rwa [List.mem_singleton.1 hm']
    · exact h.round m' hm'
    · rw [List.mem_singleton.1 hm']

omit [Crypto] in
theorem filed_recordRoundChange_ne {key : ℕ × ℕ} (hkey : key ≠ (m.height, m.round)) :
    (rt.recordRoundChange m).filedRoundChanges key = rt.filedRoundChanges key :=
  getD_insert_ne _ hkey _ _

omit [Crypto] in
/-- Making room for further rounds forgets a round as a whole. -/
theorem filed_pruneRoundChanges_cases (rt : ConsensusRuntime) (key : ℕ × ℕ) :
    rt.pruneRoundChanges.filedRoundChanges key = rt.filedRoundChanges key ∨
      rt.pruneRoundChanges.filedRoundChanges key = [] := by
  unfold pruneRoundChanges
  split_ifs
  · cases oldestRound rt.roundChangeVotes.keys with
    | none => exact .inl rfl
    | some oldest =>
        by_cases hkey : key = oldest
        · right
          subst hkey
          simp [filedRoundChanges, getD]
        · exact .inl (getD_erase_ne _ hkey _)
  · exact .inl rfl

/-- The rounds ahead when one more round change is filed. -/
theorem Filed.record (h : Filed rt) (hcheck : rt.checkRoundChange m = .ok ()) {round : ℕ}
    (hround : rt.consensus.round ≤ round) :
    rt.Called round ((rt.recordRoundChange m).filedRoundChanges (m.height, round)) := by
  have hheight := height_of_checkRoundChange hcheck
  by_cases hown : round = m.round
  · subst hown
    refine Called.record hcheck ?_
    rw [hheight]
    exact h _ hround
  · rw [filed_recordRoundChange_ne fun heq => hown (congrArg Prod.snd heq), hheight]
    exact h round hround

theorem Filed.perform (h : Filed rt) (hbounded : Bounded rt) (env : Env) {op : Operation}
    (hop : KeepsValidators env rt op) : Filed (rt.perform env op) := by
  have hvalidators := rt.validators_perform env hop
  have hchain := rt.sameGenesis_perform env op
  have honward := rt.onward_perform env hop
  have htracking := perform_tracking hbounded env op
  generalize rt.perform env op = rt' at *
  have hempty : rt'.roundChangeVotes = ∅ → Filed rt' := by
    intro htracker round _
    rw [filedRoundChanges, htracker]
    exact rt'.called_nil round
  have hfiling : ∀ m, Filing env rt m rt' → Filed rt' := by
    intro m hfiling round hround
    have hheight := height_of_checkRoundChange hfiling.checked
    have hfirst : rt.consensus.round ≤ round := by
      rcases honward with hlt | ⟨-, hle⟩
      · have := hfiling.height
        omega
      · omega
    rw [hfiling.height, ← hheight, hfiling.tracker round hround]
    rcases filed_pruneRoundChanges_cases (rt.recordRoundChange m) (m.height, round) with
      hsame | hnone
    · rw [hsame]
      exact (h.record hfiling.checked hfirst).congr hvalidators hchain hfiling.height
    · rw [hnone]
      exact rt'.called_nil round
  cases htracking with
  | kept hkept =>
      intro round hround
      have hfirst : rt.consensus.round ≤ round := by
        rcases honward with hlt | ⟨-, hle⟩
        · have := hkept.height
          omega
        · omega
      rw [filedRoundChanges, hkept.tracker, hkept.height]
      exact (h round hfirst).congr hvalidators hchain hkept.height
  | received hreceived => exact hfiling _ hreceived
  | own _ hown => exact hfiling _ hown
  | next hnext _ => exact hempty hnext.tracker
  | reopened hopened => exact hempty hopened.tracker
  | replaced => exact absurd rfl (hop _)

/-- What holds of a node that was started with these validators and has kept them. -/
structure Tracked (validators : List Validator) (rt : ConsensusRuntime) : Prop where
  filed : Filed rt
  bounded : Bounded rt
  validators : rt.validators = validators

theorem tracked_prepared {validators : List Validator} (hstart : Prepared validators rt) :
    Tracked validators rt := by
  refine ⟨?_, bounded_prepared hstart, ?_⟩
  all_goals
    obtain ⟨chain, self, timeouts, instant, base, _, _, _, _, _, hbase, rfl⟩ := hstart
    simp only [withSigner, bind_eq_ok, pure_eq_ok] at hbase
    obtain ⟨c, -, rfl⟩ := hbase
  · exact fun round _ => called_nil _ round
  · rfl

theorem tracked_of_reached {validators : List Validator} {rt₀ : ConsensusRuntime}
    (hstart : Prepared validators rt₀) (hrun : Reached KeepsValidators rt₀ rt) :
    Tracked validators rt := by
  induction hrun with
  | refl => exact tracked_prepared hstart
  | tail _ hstep ih =>
      rcases hstep with ⟨env, op, hop, rfl⟩ | ⟨votes, rfl⟩
      · refine ⟨ih.filed.perform ih.bounded env hop, ?_, ?_⟩
        · exact (perform_tracking ih.bounded env op).bounded ih.bounded
        · exact (validators_perform _ env hop).trans ih.validators
      · refine ⟨fun round hround => ?_, ⟨ih.bounded.tracked, ih.bounded.height⟩, ih.validators⟩
        exact (ih.filed round hround).congr rfl (.refl _) rfl

/-! ## The jump -/

/-- Validators with more than a third of the power ask for the round, or validators with more
than two thirds leave the one before it. -/
def Authorised (rt : ConsensusRuntime) (validators : List Validator) (round : ℕ) : Prop :=
  ∃ votes, (rt.Called round votes ∧
      listedPower validators < 3 * heldPower validators (votes.map (·.validatorId))) ∨
    ∃ last, round = last + 1 ∧ rt.Called last votes ∧
      2 * listedPower validators < 3 * heldPower validators (votes.map (·.validatorId))

theorem Authorised.congr {validators : List Validator} {round : ℕ}
    (h : rt.Authorised validators round) (hvalidators : rt'.validators = rt.validators)
    (hchain : rt.chain.SameGenesis rt'.chain)
    (hheight : rt'.consensus.height = rt.consensus.height) : rt'.Authorised validators round := by
  obtain ⟨votes, ⟨hcalled, hpower⟩ | ⟨last, hlast, hcalled, hpower⟩⟩ := h
  · exact ⟨votes, .inl ⟨hcalled.congr hvalidators hchain hheight, hpower⟩⟩
  · exact ⟨votes, .inr ⟨last, hlast, hcalled.congr hvalidators hchain hheight, hpower⟩⟩

omit [Crypto] in
theorem nodup_of_prepared {validators : List Validator} (hstart : Prepared validators rt) :
    (validators.map (·.id)).Nodup := by
  obtain ⟨chain, self, timeouts, instant, base, _, _, _, _, _, hbase, rfl⟩ := hstart
  simp only [withSigner, bind_eq_ok] at hbase
  obtain ⟨c, hnew, -⟩ := hbase
  exact (BftConsensus.new_spec hnew).1

omit [Crypto] in
theorem calledRound_le {height round target : ℕ} (h : rt.calledRound height round = some target) :
    target ≤ round + 1 := by
  unfold calledRound at h
  dsimp only at h
  split_ifs at h
  · exact (checkedAdd_eq_some.1 h).1.ge
  · cases h
    exact Nat.le_succ _

/-- A round change takes a node to the round that is called for or leaves it where it is. -/
theorem receiveRoundChange_round (rt : ConsensusRuntime) (env : Env) (m : SignedRoundChange)
    (hmoved : rt.consensus.round < (rt.receiveRoundChange env m).1.consensus.round) :
    rt.checkRoundChange m = .ok () ∧
      (rt.recordRoundChange m).calledRound m.height m.round =
        some (rt.receiveRoundChange env m).1.consensus.round := by
  cases hcheck : rt.checkRoundChange m with
  | error e =>
      unfold receiveRoundChange at hmoved
      rw [hcheck] at hmoved
      exact absurd hmoved (lt_irrefl _)
  | ok u =>
      refine ⟨rfl, ?_⟩
      obtain ⟨-, hstayed⟩ := rt.adoptRoundChangeValue_frame env m
      cases hadopt : rt.adoptRoundChangeValue env m with
      | mk rt₁ result =>
          rw [hadopt] at hstayed
          have hsame := hstayed.core.round
          dsimp only at hsame
          cases result with
          | error e =>
              unfold receiveRoundChange at hmoved
              rw [hcheck, hadopt] at hmoved
              exact absurd hsame hmoved.ne'
          | ok u =>
              obtain ⟨-, hmachine, -, -⟩ := filed_ground rt₁ m
              rcases receiveRoundChange_adopted hcheck hadopt with
                ⟨target, hcalled, hlt, hcase⟩ | ⟨-, hcase, -⟩
              · have hheight : m.height =
                    (rt₁.recordRoundChange m).pruneRoundChanges.consensus.height := by
                  rw [hmachine, height_of_checkRoundChange hcheck, hstayed.core.height]
                have hlater : (rt₁.recordRoundChange m).pruneRoundChanges.consensus.round ≤
                    target := by
                  rw [hmachine, hsame]
                  exact hlt.le
                rw [hcalled, hcase]
                unfold jumpToRound
                rw [BftConsensus.startRound_of_le (.inr ⟨hheight.symm, hlater⟩)]
                rfl
              · rw [hcase, hmachine, hsame] at hmoved
                exact absurd hmoved (lt_irrefl _)

/-- In the range of the powers the words of the source count exactly. -/
theorem authorised_of_calledRound {validators : List Validator} {round target : ℕ}
    (hvalidators : rt.validators = validators) (hnodup : (validators.map (·.id)).Nodup)
    (hpower : listedPower validators < 2 ^ 62) {height : ℕ}
    (hfiled : rt.Called round (rt.filedRoundChanges (height, round)))
    (hcalled : rt.calledRound height round = some target) : rt.Authorised validators target := by
  have h64 : u64Max = 2 ^ 64 - 1 := rfl
  have htotal : wrappingSum u64Max (rt.validators.map (·.votingPower)) = listedPower validators := by
    rw [hvalidators]
    refine wrappingSum_of_le ?_
    unfold listedPower at hpower
    omega
  have hle := heldPower_le validators ((rt.filedRoundChanges (height, round)).map (·.validatorId))
  have hsigned : rt.roundChangePower height round =
      heldPower validators ((rt.filedRoundChanges (height, round)).map (·.validatorId)) := by
    have hsum := sum_find_powers hnodup hfiled.distinct (hvalidators ▸ hfiled.registered)
    unfold roundChangePower
    rw [hvalidators]
    rw [← hsum] at hle ⊢
    refine wrappingSum_of_le ?_
    exact hle.trans (by omega)
  unfold calledRound at hcalled
  dsimp only at hcalled
  rw [htotal, hsigned, saturatingMul_of_le (by omega), saturatingMul_of_le (by omega)] at hcalled
  refine ⟨rt.filedRoundChanges (height, round), ?_⟩
  split_ifs at hcalled with hthird hquorum
  · obtain ⟨rfl, -⟩ := checkedAdd_eq_some.1 hcalled
    exact .inr ⟨round, rfl, hfiled, by omega⟩
  · cases hcalled
    exact .inl ⟨hfiled, by omega⟩

/-- In every run that keeps the validators, a round change starts a later round only if
validators with the power for it have signed, and within a height no operation takes the node
to an earlier round. -/
theorem roundChange_authorised {validators : List Validator} {rt₀ : ConsensusRuntime}
    (hstart : Prepared validators rt₀) (hpower : listedPower validators < 2 ^ 62)
    (hrun : Reached KeepsValidators rt₀ rt) :
    (∀ env m, rt.consensus.round < (rt.receiveRoundChange env m).1.consensus.round →
        rt.Authorised validators (rt.receiveRoundChange env m).1.consensus.round) ∧
      ∀ env op, KeepsValidators env rt op →
        (rt.perform env op).consensus.height = rt.consensus.height →
        rt.consensus.round ≤ (rt.perform env op).consensus.round := by
  obtain ⟨hfiled, -, hvalidators⟩ := tracked_of_reached hstart hrun
  refine ⟨fun env m hmoved => ?_, fun env op hop hheight => ?_⟩
  · obtain ⟨hcheck, hcalled⟩ := rt.receiveRoundChange_round env m hmoved
    have hheight := height_of_checkRoundChange hcheck
    -- the called round is at most the one after that of the message, so the node has not left it
    have hahead : rt.consensus.round ≤ m.round := by
      have hle := calledRound_le hcalled
      omega
    have hrecorded : (rt.recordRoundChange m).Called m.round
        ((rt.recordRoundChange m).filedRoundChanges (m.height, m.round)) :=
      (hfiled.record hcheck hahead).congr rfl (.refl _) rfl
    have hauthorised : (rt.recordRoundChange m).Authorised validators _ :=
      authorised_of_calledRound hvalidators (nodup_of_prepared hstart) hpower hrecorded hcalled
    exact hauthorised.congr rfl (.refl _) rfl
  · rcases rt.onward_perform env hop with hlt | ⟨-, hle⟩
    · exact absurd hheight hlt.ne'
    · exact hle

end

end ConsensusRuntime

namespace Quartet

open ConsensusRuntime

attribute [local instance] timeoutsCrypto

/-- Two of the four validators ask for the same later round. -/
theorem roundChange_authorised_two : ∃ rt₀ rt, Prepared members rt₀ ∧
    listedPower members < 2 ^ 62 ∧ Reached KeepsValidators rt₀ rt ∧
    (rt.receiveRoundChange env (askedFor 3 7)).1.consensus.round = 7 ∧
    rt.Authorised members 7 := by
  obtain ⟨rt₀, h⟩ := started_ok
  obtain ⟨-, hvalidators, -, -, -⟩ := started_spec h
  obtain ⟨⟨hheight, hzero, -⟩, -, -, -, -⟩ := fresh_spec h
  set tracker : HashMap (ℕ × ℕ) (List SignedRoundChange) :=
    AList.insert (1, 7) [askedFor 2 7] ∅ with htracker
  set rt := tracking rt₀ tracker with hrt
  have hfirst : (rt₀.receiveRoundChange env (askedFor 2 7)).1 = rt := by
    have hcase := (receive_askedFor h (by decide : 2 ∈ [1, 2, 3, 4])
      (by decide : 7 ≤ maxFutureRoundDistance) (AList.notMem_empty (1, 7))).1
    rw [tracking_fresh h] at hcase
    rw [hcase]
    exact prune_tracking (by decide : tracker.keys.length ≤ maxTrackedRounds)
  have hcheck : rt.checkRoundChange (askedFor 3 7) = .ok () :=
    checkRoundChange_askedFor h (by decide : 3 ∈ [1, 2, 3, 4])
      (by decide : 7 ≤ maxFutureRoundDistance)
  have hdifferent : (askedFor 3 7).validatorId ∉ [askedFor 2 7].map (·.validatorId) := by
    rw [List.map_singleton, List.mem_singleton]
    exact StandIn.address_ne (by decide : UInt8.ofNat 3 ≠ UInt8.ofNat 2)
  have hfiled : (rt.recordRoundChange (askedFor 3 7)).filedRoundChanges (1, 7) =
      [askedFor 2 7, askedFor 3 7] := by
    have hkey : ((askedFor 3 7).height, (askedFor 3 7).round) = (1, 7) := rfl
    rw [filedRoundChanges, recordRoundChange, hkey]
    simp only [hrt, htracker, tracking, getD_insert_self, if_neg hdifferent]
    rfl
  have hpower : (rt.recordRoundChange (askedFor 3 7)).roundChangePower 1 7 = 2 := by
    have hmembers : (rt.recordRoundChange (askedFor 3 7)).validators = members := hvalidators
    unfold filedRoundChanges at hfiled
    rw [roundChangePower, hfiled, hmembers]
    simp only [List.filterMap_cons, power_askedFor (by decide : 2 ∈ [1, 2, 3, 4]),
      power_askedFor (by decide : 3 ∈ [1, 2, 3, 4])]
    rfl
  have hcalled : (rt.recordRoundChange (askedFor 3 7)).calledRound 1 7 = some 7 := by
    have htotal : wrappingSum u64Max ((rt.recordRoundChange (askedFor 3 7)).validators.map
        (·.votingPower)) = 4 := by
      show wrappingSum u64Max (rt₀.validators.map (·.votingPower)) = 4
      rw [hvalidators]
      rfl
    unfold calledRound
    rw [hpower, htotal]
    decide
  have hmoved : (rt.receiveRoundChange env (askedFor 3 7)).1.consensus.round = 7 := by
    have hadopt : rt.adoptRoundChangeValue env (askedFor 3 7) = (rt, .ok ()) := rfl
    obtain ⟨-, hmachine, -, -⟩ := filed_ground rt (askedFor 3 7)
    rcases receiveRoundChange_adopted hcheck hadopt with ⟨target, hsome, -, hcase⟩ | ⟨hnone, -⟩
    · obtain rfl : 7 = target := Option.some.inj (hcalled.symm.trans hsome)
      rw [hcase]
      unfold jumpToRound
      rw [BftConsensus.startRound_of_le]
      · rfl
      · rw [hmachine]
        exact .inr ⟨hheight, hzero.trans_le (Nat.zero_le _)⟩
    · exact absurd ⟨7, hcalled, hzero.trans_lt (by decide)⟩ hnone
  have hperform : rt₀.perform env (.call (.receiveRoundChange (askedFor 2 7))) = rt := by
    rw [perform_receiveRoundChange, hfirst]
  have hrun : Reached KeepsValidators rt₀ rt :=
    .single (.inl ⟨env, _, fun _ => Operation.noConfusion, hperform⟩)
  have hlisted : listedPower members < 2 ^ 62 := by decide
  have hlater : rt.consensus.round < (rt.receiveRoundChange env (askedFor 3 7)).1.consensus.round := by
    rw [hmoved]
    exact hzero.trans_lt (by decide)
  have hauthorised := (roundChange_authorised (prepared h) hlisted hrun).1 env _ hlater
  rw [hmoved] at hauthorised
  exact ⟨rt₀, rt, prepared h, hlisted, hrun, hmoved, hauthorised⟩

end Quartet

end IeumChain
