import IeumChain.Precommits

/-!
# Round changes on file

The round changes of at most 128 rounds are kept, and a round change for one more round
pushes out the lowest of them. A single validator can name as many rounds as it likes,
so the lowest round is at its mercy. A round change stays on file as long as nobody
opens a further round while its own is the lowest of 128, and the height is not started
over.
-/
namespace IeumChain

open Outcome MachineWords FiniteMap

namespace ConsensusRuntime

/-! ## The lowest round -/

theorem pairLe_refl (k : ℕ × ℕ) : pairLe k k := .inr ⟨rfl, le_rfl⟩

theorem pairLe_trans {a b c : ℕ × ℕ} (h : pairLe a b) (h' : pairLe b c) : pairLe a c := by
  unfold pairLe at *
  omega

theorem pairLe_total (a b : ℕ × ℕ) : pairLe a b ∨ pairLe b a := by
  unfold pairLe
  omega

theorem foldl_lowest (keys : List (ℕ × ℕ)) (first : ℕ × ℕ) :
    keys.foldl (fun a b => if pairLe a b then a else b) first ∈ first :: keys ∧
      ∀ k ∈ first :: keys, pairLe (keys.foldl (fun a b => if pairLe a b then a else b) first) k := by
  induction keys generalizing first with
  | nil =>
      refine ⟨List.mem_singleton_self _, fun k hk => ?_⟩
      rw [List.mem_singleton.1 hk]
      exact pairLe_refl _
  | cons next rest ih =>
      obtain ⟨hmem, hle⟩ := ih (if pairLe first next then first else next)
      rw [List.foldl_cons]
      have hfirst := hle _ (List.mem_cons_self ..)
      refine ⟨?_, fun k hk => ?_⟩
      · rcases List.mem_cons.1 hmem with heq | hrest
        · rw [heq]
          split_ifs
          · exact List.mem_cons_self ..
          · exact List.mem_cons_of_mem _ (List.mem_cons_self ..)
        · exact List.mem_cons_of_mem _ (List.mem_cons_of_mem _ hrest)
      · rcases List.mem_cons.1 hk with rfl | hk
        · refine pairLe_trans hfirst ?_
          split_ifs with hle'
          · exact pairLe_refl _
          · exact (pairLe_total k next).resolve_left hle'
        · rcases List.mem_cons.1 hk with rfl | hk
          · refine pairLe_trans hfirst ?_
            split_ifs with hle'
            · exact hle'
            · exact pairLe_refl _
          · exact hle k (List.mem_cons_of_mem _ hk)

theorem oldestRound_spec {keys : List (ℕ × ℕ)} {k : ℕ × ℕ} (h : oldestRound keys = some k) :
    k ∈ keys ∧ ∀ k' ∈ keys, pairLe k k' := by
  cases keys with
  | nil => cases h
  | cons first rest =>
      cases h
      exact foldl_lowest rest first

/-! ## Filing -/

/-- A round change of a further round pushes out the given one: as many rounds as possible are
tracked, and it is the lowest of them. -/
structure Evicts (rt : ConsensusRuntime) (m : SignedRoundChange) (key : ℕ × ℕ) : Prop where
  further : (m.height, m.round) ∉ rt.roundChangeVotes
  full : maxTrackedRounds ≤ rt.roundChangeVotes.keys.length
  below : pairLe key (m.height, m.round)
  lowest : ∀ k ∈ rt.roundChangeVotes.keys, pairLe key k

/-- The round changes on file. -/
def filedRoundChanges (rt : ConsensusRuntime) (key : ℕ × ℕ) : List SignedRoundChange :=
  getD rt.roundChangeVotes key []

/-- The round of the given one has not passed. -/
def Awaits (key : ℕ × ℕ) (rt : ConsensusRuntime) : Prop :=
  rt.consensus.height = key.1 ∧ rt.consensus.round ≤ key.2

/-- The tracker is within its limit, and the height is at most the one after the tip. -/
structure Bounded (rt : ConsensusRuntime) : Prop where
  tracked : rt.roundChangeVotes.keys.length ≤ maxTrackedRounds
  height : rt.consensus.height ≤ rt.chain.tipHeight + 1

/-- Nothing is filed or forgotten. -/
structure Kept (rt rt' : ConsensusRuntime) : Prop where
  tracker : rt'.roundChangeVotes = rt.roundChangeVotes
  height : rt'.consensus.height = rt.consensus.height
  tip : rt.chain.tipHeight ≤ rt'.chain.tipHeight

/-- The tracker starts over with the height. -/
structure Restarted (rt : ConsensusRuntime) : Prop where
  tracker : rt.roundChangeVotes = ∅
  height : rt.consensus.height ≤ rt.chain.tipHeight + 1

variable {rt rt' rt'' : ConsensusRuntime} {m : SignedRoundChange} {key : ℕ × ℕ}

theorem Kept.refl (rt : ConsensusRuntime) : Kept rt rt := ⟨rfl, rfl, le_rfl⟩

theorem Kept.trans (h : Kept rt rt') (h' : Kept rt' rt'') : Kept rt rt'' :=
  ⟨h'.tracker.trans h.tracker, h'.height.trans h.height, h.tip.trans h'.tip⟩

theorem kept_deferVote (rt : ConsensusRuntime) (vote : ConsensusMessage) :
    Kept rt (rt.deferVote vote) := by
  obtain ⟨hframe, hstayed⟩ := rt.frame_deferVote vote
  refine ⟨?_, hstayed.core.height, by rw [hframe.chain]⟩
  unfold deferVote
  split_ifs <;> rfl

theorem Kept.bounded (h : Kept rt rt') (hbounded : Bounded rt) : Bounded rt' := by
  refine ⟨?_, ?_⟩
  · rw [h.tracker]
    exact hbounded.tracked
  · rw [h.height]
    exact hbounded.height.trans (Nat.succ_le_succ h.tip)

theorem Restarted.bounded (h : Restarted rt) : Bounded rt := by
  refine ⟨?_, h.height⟩
  rw [h.tracker]
  exact Nat.zero_le _

/-- A round change on file stays there when another one is filed. -/
theorem mem_recordRoundChange {filed : SignedRoundChange} (h : filed ∈ rt.filedRoundChanges key) :
    filed ∈ (rt.recordRoundChange m).filedRoundChanges key := by
  unfold filedRoundChanges recordRoundChange at *
  dsimp only
  by_cases hkey : key = (m.height, m.round)
  · subst hkey
    rw [getD_insert_self]
    split_ifs
    · exact h
    · exact List.mem_append_left _ h
  · rw [getD_insert_ne _ hkey]
    exact h

/-- The first round change of a round is filed alone. -/
theorem recordRoundChange_new (hnew : (m.height, m.round) ∉ rt.roundChangeVotes) :
    rt.recordRoundChange m =
      { rt with roundChangeVotes := rt.roundChangeVotes.insert (m.height, m.round) [m] } := by
  simp [recordRoundChange, getD, AList.lookup_eq_none.2 hnew]

/-- After filing, a round change of that validator is on file for the round. -/
theorem exists_recordRoundChange (rt : ConsensusRuntime) (m : SignedRoundChange) :
    ∃ filed ∈ (rt.recordRoundChange m).filedRoundChanges (m.height, m.round),
      filed.validatorId = m.validatorId ∧
        (m.validatorId ∉ (rt.filedRoundChanges (m.height, m.round)).map (·.validatorId) →
          filed = m) := by
  unfold filedRoundChanges recordRoundChange
  dsimp only
  rw [getD_insert_self]
  split_ifs with hknown
  · obtain ⟨filed, hfiled, hid⟩ := List.mem_map.1 hknown
    exact ⟨filed, hfiled, hid, fun hnew => absurd hknown hnew⟩
  · exact ⟨m, List.mem_append_right _ (List.mem_singleton_self m), rfl, fun _ => rfl⟩

/-- Only the lowest round is ever pushed out. -/
theorem filed_pruneRoundChanges (hbounded : Bounded rt) (hkeeps : ¬Evicts rt m key) :
    (rt.recordRoundChange m).pruneRoundChanges.filedRoundChanges key =
      (rt.recordRoundChange m).filedRoundChanges key := by
  unfold pruneRoundChanges
  split_ifs with hover
  · cases holdest : oldestRound (rt.recordRoundChange m).roundChangeVotes.keys with
    | none => rfl
    | some oldest =>
        obtain ⟨-, hlowest⟩ := oldestRound_spec holdest
        refine getD_erase_ne _ ?_ _
        rintro rfl
        have hlength : (rt.recordRoundChange m).roundChangeVotes.keys.length =
            if (m.height, m.round) ∈ rt.roundChangeVotes then rt.roundChangeVotes.keys.length
            else rt.roundChangeVotes.keys.length + 1 := length_keys_insert _ _ _
        have hmem : ∀ k, k = (m.height, m.round) ∨ k ∈ rt.roundChangeVotes →
            k ∈ (rt.recordRoundChange m).roundChangeVotes.keys := by
          intro k hk
          exact AList.mem_keys.1 ((AList.mem_insert _).2 hk)
        have htracked := hbounded.tracked
        split_ifs at hlength with hknown
        · omega
        · exact hkeeps ⟨hknown, by omega, hlowest _ (hmem _ (.inl rfl)),
            fun k hk => hlowest k (hmem k (.inr (AList.mem_keys.2 hk)))⟩
  · rfl

theorem length_pruneRoundChanges (hbounded : Bounded rt) :
    (rt.recordRoundChange m).pruneRoundChanges.roundChangeVotes.keys.length ≤ maxTrackedRounds := by
  have hlength : (rt.recordRoundChange m).roundChangeVotes.keys.length =
      if (m.height, m.round) ∈ rt.roundChangeVotes then rt.roundChangeVotes.keys.length
      else rt.roundChangeVotes.keys.length + 1 := length_keys_insert _ _ _
  have htracked := hbounded.tracked
  unfold pruneRoundChanges
  split_ifs with hover
  · cases holdest : oldestRound (rt.recordRoundChange m).roundChangeVotes.keys with
    | none =>
        cases hkeys : (rt.recordRoundChange m).roundChangeVotes.keys with
        | nil => exact Nat.zero_le _
        | cons first rest =>
            rw [hkeys] at holdest
            cases holdest
    | some oldest =>
        dsimp only
        rw [length_keys_erase (AList.mem_keys.2 (oldestRound_spec holdest).1), hlength]
        split_ifs <;> omega
  · omega

/-- Pruning reads and writes the tracker only. -/
theorem tracker_pruneRoundChanges (h : rt'.roundChangeVotes = rt.roundChangeVotes) :
    rt'.pruneRoundChanges.roundChangeVotes = rt.pruneRoundChanges.roundChangeVotes := by
  unfold pruneRoundChanges
  rw [h]
  split_ifs
  · cases oldestRound rt.roundChangeVotes.keys with
    | none => exact h
    | some oldest => rfl
  · exact h

theorem le_max_of_calledRound {height round target : ℕ} (hround : round ≤ u32Max)
    (h : rt.calledRound height round = some target) : target ≤ u32Max := by
  unfold calledRound at h
  dsimp only at h
  split_ifs at h
  · exact (checkedAdd_eq_some.1 h).2
  · cases h
    exact hround

theorem leaveTimedOutRound_tracker (rt : ConsensusRuntime) (now : ℕ) (m : SignedRoundChange) :
    (rt.leaveTimedOutRound now m).1.roundChangeVotes = rt.roundChangeVotes ∧
      (rt.leaveTimedOutRound now m).1.consensus.height = rt.consensus.height ∧
      rt.consensus.round ≤ (rt.leaveTimedOutRound now m).1.consensus.round ∧
      (rt.leaveTimedOutRound now m).1.chain = rt.chain := by
  obtain ⟨hframe, hsame, hother⟩ := rt.leaveTimedOutRound_cases now m
  refine ⟨?_, ?_, ?_, hframe.chain⟩
  · unfold leaveTimedOutRound
    dsimp only
    split <;> rfl
  · by_cases hround : rt.consensus.round = m.round
    · rcases hsame hround with hstayed | ⟨c, target, -, -, hconsensus, -⟩
      · exact hstayed.core.height
      · rw [hconsensus]
        rfl
    · rw [(hother hround).1]
  · by_cases hround : rt.consensus.round = m.round
    · rcases hsame hround with hstayed | ⟨c, target, -, hlt, hconsensus, -⟩
      · exact hstayed.core.round.ge
      · rw [hconsensus]
        exact hlt.le
    · rw [(hother hround).1]

/-- Opening the next height keeps everything, or starts the tracker over. -/
theorem openNextHeight_tracker (rt : ConsensusRuntime) (env : Env) :
    (rt.openNextHeight env).1 = rt ∨
      Restarted (rt.openNextHeight env).1 ∧
        (rt.consensus.height < (rt.openNextHeight env).1.consensus.height ∨
          rt.consensus.height = rt.chain.tipHeight + 1 ∧ rt.consensus.round = 0) := by
  unfold openNextHeight
  rcases rt.consensus.startRound_cases (rt.chain.tipHeight + 1) 0 with ⟨e, hcase⟩ | ⟨hle, hcase⟩
  · rw [hcase]
    exact .inl rfl
  · rw [hcase]
    refine .inr ⟨⟨rfl, le_rfl⟩, ?_⟩
    show rt.consensus.height < rt.chain.tipHeight + 1 ∨ _
    omega

section
variable [Crypto]

/-- A round change that passes its checks was filed, and the rounds that the node has not left
are as they were then. -/
structure Filing (env : Env) (rt : ConsensusRuntime) (m : SignedRoundChange)
    (rt' : ConsensusRuntime) : Prop where
  checked : rt.checkRoundChange m = .ok ()
  adopted : ∀ v, m.validValue = some v → rt.checkRoundChangeValue env m v = .ok () ∧
    rt.consensus.checkValidValue v.block.hash v.validRound v.prevotes = .ok ()
  height : rt'.consensus.height = rt.consensus.height
  chain : rt'.chain = rt.chain
  tracker : ∀ round, rt'.consensus.round ≤ round →
    rt'.filedRoundChanges (m.height, round) =
      (rt.recordRoundChange m).pruneRoundChanges.filedRoundChanges (m.height, round)
  length : rt'.roundChangeVotes.keys.length ≤
    (rt.recordRoundChange m).pruneRoundChanges.roundChangeVotes.keys.length

variable {env : Env}

theorem Filing.bounded (h : Filing env rt m rt') (hbounded : Bounded rt) : Bounded rt' := by
  refine ⟨h.length.trans (length_pruneRoundChanges hbounded), ?_⟩
  rw [h.height, h.chain]
  exact hbounded.height

/-- What was on file is on file, unless its round was pushed out or left. -/
theorem Filing.mem (h : Filing env rt m rt') (hbounded : Bounded rt) (hkeeps : ¬Evicts rt m key)
    (hawaits : Awaits key rt') {filed : SignedRoundChange}
    (hfiled : filed ∈ rt.filedRoundChanges key) : filed ∈ rt'.filedRoundChanges key := by
  have hheight := height_of_checkRoundChange h.checked
  have hkey : key = (m.height, key.2) := by
    ext
    · rw [← hawaits.1, h.height, hheight]
    · rfl
  rw [hkey, h.tracker key.2 hawaits.2, ← hkey, filed_pruneRoundChanges hbounded hkeeps]
  exact mem_recordRoundChange hfiled

theorem round_le_of_checkRoundChange (h : rt.checkRoundChange m = .ok ()) : m.round ≤ u32Max := by
  simp only [checkRoundChange, check_bind_eq_ok, reject_eq_ok, not_lt] at h
  exact h.2.2.2.2.trans (min_le_right _ _)

/-- A round change is refused, or filed whatever follows. -/
theorem receiveRoundChange_filing (rt : ConsensusRuntime) (env : Env) (m : SignedRoundChange) :
    (Kept rt (rt.receiveRoundChange env m).1 ∧ ∃ e, (rt.receiveRoundChange env m).2 = .error e) ∨
      Filing env rt m (rt.receiveRoundChange env m).1 := by
  cases hcheck : rt.checkRoundChange m with
  | error e =>
      unfold receiveRoundChange
      rw [hcheck]
      exact .inl ⟨.refl _, e, rfl⟩
  | ok u =>
      have hheight := height_of_checkRoundChange hcheck
      obtain ⟨hframe, hstayed⟩ := rt.adoptRoundChangeValue_frame env m
      have htracker := rt.roundChangeVotes_adoptRoundChangeValue env m
      cases hadopt : rt.adoptRoundChangeValue env m with
      | mk rt₁ result =>
          rw [hadopt] at hframe hstayed htracker
          dsimp only at hframe hstayed htracker
          cases result with
          | error e =>
              unfold receiveRoundChange
              rw [hcheck, hadopt]
              exact .inl ⟨⟨htracker, hstayed.core.height, by rw [hframe.chain]⟩, e, rfl⟩
          | ok u =>
              right
              have hvalue := fun v => @checked_of_adoptRoundChangeValue _ rt env m (by rw [hadopt]) v
              have hpruned : (rt₁.recordRoundChange m).pruneRoundChanges.roundChangeVotes =
                  (rt.recordRoundChange m).pruneRoundChanges.roundChangeVotes := by
                refine tracker_pruneRoundChanges ?_
                simp only [recordRoundChange, htracker]
              obtain ⟨hground, hmachine, -, -⟩ := filed_ground rt₁ m
              rcases receiveRoundChange_adopted hcheck hadopt with
                ⟨target, hcalled, hlt, hcase⟩ | ⟨-, hcase, -⟩
              · have hplace : m.height =
                    (rt₁.recordRoundChange m).pruneRoundChanges.consensus.height := by
                  rw [hmachine, hheight, hstayed.core.height]
                have hlater : (rt₁.recordRoundChange m).pruneRoundChanges.consensus.round ≤
                    target := by
                  rw [hmachine, hstayed.core.round]
                  exact hlt.le
                have hle := le_max_of_calledRound (round_le_of_checkRoundChange hcheck) hcalled
                have hchain := hground.chain
                rw [hcase]
                unfold jumpToRound
                rw [BftConsensus.startRound_of_le (.inr ⟨hplace.symm, hlater⟩)]
                refine ⟨hcheck, hvalue, hheight, hchain.trans hframe.chain, fun round hround => ?_, ?_⟩
                · have hround' : target ≤ round := hround
                  rw [filedRoundChanges, filedRoundChanges, ← hpruned]
                  refine getD_retain ?_ _ _
                  simp only [decide_eq_true_eq, true_and, saturatingAdd]
                  omega
                · rw [← hpruned]
                  exact length_keys_retain _ _
              · rw [hcase]
                refine ⟨hcheck, hvalue, ?_, hground.chain.trans hframe.chain, fun round _ => ?_, ?_⟩
                · rw [hmachine, hstayed.core.height]
                · rw [filedRoundChanges, filedRoundChanges, hpruned]
                · rw [hpruned]

/-- The node moves on to a later round of the height afterwards. -/
theorem Filing.later (h : Filing env rt m rt')
    (htracker : rt''.roundChangeVotes = rt'.roundChangeVotes)
    (hheight : rt''.consensus.height = rt'.consensus.height)
    (hround : rt'.consensus.round ≤ rt''.consensus.round) (hchain : rt''.chain = rt'.chain) :
    Filing env rt m rt'' := by
  refine ⟨h.checked, h.adopted, hheight.trans h.height, hchain.trans h.chain, ?_, ?_⟩
  · intro round hle
    rw [filedRoundChanges, htracker]
    exact h.tracker round (hround.trans hle)
  · rw [htracker]
    exact h.length

/-! ## What an operation does to the tracker -/

/-- The ways in which an operation treats the round changes on file. -/
inductive Tracking (env : Env) (rt : ConsensusRuntime) : Operation → ConsensusRuntime → Prop
  | kept {op : Operation} {rt' : ConsensusRuntime} (h : Kept rt rt') : Tracking env rt op rt'
  | received {m : SignedRoundChange} {rt' : ConsensusRuntime} (h : Filing env rt m rt') :
      Tracking env rt (.call (.receiveRoundChange m)) rt'
  | own {op : Operation} {m : SignedRoundChange} {rt' : ConsensusRuntime}
      (hround : m.round = rt.consensus.round) (h : Filing env rt m rt') : Tracking env rt op rt'
  | next {op : Operation} {rt' : ConsensusRuntime} (h : Restarted rt')
      (hlt : rt.consensus.height < rt'.consensus.height) : Tracking env rt op rt'
  | reopened {rt' : ConsensusRuntime} (h : Restarted rt') (hphase : rt.consensus.phase = .finalized)
      (hheight : rt.consensus.height = rt.chain.tipHeight + 1) (hround : rt.consensus.round = 0) :
      Tracking env rt (.call .advanceAfterFinalization) rt'
  | replaced {validators : List Validator} {c : BftConsensus} {rt' : ConsensusRuntime}
      (h : Restarted rt') (htip : rt.chain.tipHeight = 0) (hpending : rt.pending = none)
      (hnew : BftConsensus.new validators = .ok c) :
      Tracking env rt (.replaceBootstrapValidators validators) rt'

theorem kept_receiveProposal (rt : ConsensusRuntime) (env : Env) (p : SignedProposal) :
    Kept rt (rt.receiveProposal env p).1 := by
  rcases rt.receiveProposal_cases env p with ⟨c', e, hcore, hcase⟩ | ⟨-, -, -, hcase⟩
  · rw [hcase]
    exact ⟨rfl, hcore.height, le_rfl⟩
  · rw [hcase]
    exact ⟨rfl, (rt.consensus.sameCore_noteValidRound p).height, le_rfl⟩

theorem kept_afterVote (rt : ConsensusRuntime) (env : Env) : Kept rt (rt.afterVote env).1 := by
  rcases rt.afterVote_cases env with hcase | ⟨b, -, -, hcase⟩ | ⟨b, -, -, hcase⟩ |
    ⟨b, chain, -, -, -, -, happly, hcase⟩
  · rw [hcase]
    exact .refl _
  · rw [hcase]
    exact ⟨rfl, rfl, le_rfl⟩
  · rw [hcase]
    exact ⟨rfl, rfl, le_rfl⟩
  · rw [hcase]
    refine ⟨rfl, rfl, ?_⟩
    have := Blockchain.tipHeight_applyBlock happly
    dsimp only
    omega

theorem kept_receiveVote (rt : ConsensusRuntime) (env : Env) (vote : ConsensusMessage) :
    Kept rt (rt.receiveVote env vote).1 := by
  rcases rt.receiveVote_cases env vote with ⟨c', e, hcore, hcase⟩ | ⟨-, -, c₁, hcore, hcase⟩
  · rw [hcase]
    exact ⟨rfl, hcore.height, le_rfl⟩
  · rw [hcase]
    refine Kept.trans ?_ (kept_afterVote _ env)
    obtain ⟨hframe, hconsensus, -⟩ :=
      frame_counted rt env vote ((c₁.addVote vote).advancePhase vote)
    refine ⟨?_, ?_, by rw [hframe.chain]⟩
    · unfold counted collectPrecommit afterPhaseChange resetDeadline
      split_ifs <;> rfl
    · rw [hconsensus, ← hcore.height]
      exact ((c₁.addVote vote).sameRound_advancePhase vote).height

theorem keptReplay (env : Env) (rt₀ : ConsensusRuntime) :
    ReplayRule env (Kept rt₀) (fun _ _ => True) (fun _ _ => True) where
  receive _ v h _ := h.trans (kept_receiveVote _ env v)
  keep _ _ _ _ _ _ := trivial
  keepSent _ _ _ _ _ _ := trivial
  reply _ _ _ _ _ _ := ⟨trivial, trivial⟩
  deferred _ _ _ _ := trivial
  store _ _ h _ := h.trans ⟨rfl, rfl, le_rfl⟩
  storeKeep _ _ _ _ := trivial
  storeSent _ _ _ _ := trivial

/-- Asking the signer changes nothing that filing reads. -/
theorem Filing.of_request (h : Filing env rt.recordRoundChangeRequest m rt') :
    Filing env rt m rt' := by
  have hpruned : (rt.recordRoundChangeRequest.recordRoundChange m).pruneRoundChanges.roundChangeVotes =
      (rt.recordRoundChange m).pruneRoundChanges.roundChangeVotes := tracker_pruneRoundChanges rfl
  refine ⟨h.checked, h.adopted, h.height, h.chain, fun round hround => ?_, ?_⟩
  · rw [h.tracker round hround, filedRoundChanges, hpruned, filedRoundChanges]
  · rw [← hpruned]
    exact h.length

theorem timeout_tracking (rt : ConsensusRuntime) (env : Env) (now : ℕ) (op : Operation) :
    Tracking env rt op (rt.timeoutIfDueWithRoundChange env now).1 := by
  by_cases hdue : now < rt.deadline ∨ rt.consensus.phase = .finalized
  · unfold timeoutIfDueWithRoundChange
    rw [if_pos hdue]
    exact .kept (.refl _)
  · have hrequest : Kept rt rt.recordRoundChangeRequest := ⟨rfl, rfl, le_rfl⟩
    rw [timeout_due hdue]
    cases env.sign _ with
    | error e => exact .kept hrequest
    | ok signature =>
        dsimp only
        cases (rt.recordRoundChangeRequest.ownRoundChange signature).verify with
        | error e => exact .kept hrequest
        | ok u =>
            have hreceived := rt.recordRoundChangeRequest.receiveRoundChange_filing env
              (rt.recordRoundChangeRequest.ownRoundChange signature)
            dsimp only
            generalize rt.recordRoundChangeRequest.receiveRoundChange env _ = received at hreceived
            obtain ⟨rt₁, result⟩ := received
            cases result with
            | error e =>
                rcases hreceived with ⟨hkept, -⟩ | hfiling
                · exact .kept (hrequest.trans hkept)
                · exact .own rfl hfiling.of_request
            | ok moved =>
                rcases hreceived with ⟨-, e, ⟨⟩⟩ | hfiling
                obtain ⟨htracker, hheight, hround, hchain⟩ := rt₁.leaveTimedOutRound_tracker now
                  (rt.recordRoundChangeRequest.ownRoundChange signature)
                exact .own rfl (hfiling.of_request.later htracker hheight hround hchain)

theorem applySyncCertificates_tracking (hbounded : Bounded rt) (env : Env)
    (certificates : List FinalityCertificate) (op : Operation) :
    Tracking env rt op (rt.applySyncCertificates env certificates).1 := by
  obtain ⟨chain, finalized, hloop⟩ := applySyncLoop_eq env certificates rt 0
  obtain ⟨n, hsynced, hcount⟩ := applySyncLoop_synced env certificates rt 0
  unfold applySyncCertificates
  generalize applySyncLoop env certificates rt 0 = result at *
  obtain ⟨rt₁, result⟩ := result
  have htip := hsynced.tipHeight
  have hkept : Kept rt rt₁ := by
    refine ⟨?_, by rw [hsynced.consensus], by dsimp only at htip; omega⟩
    obtain rfl : rt₁ = _ := hloop
    rfl
  cases result with
  | error e => exact .kept hkept
  | ok total =>
      have htotal := hcount total rfl
      dsimp only at htip ⊢
      split_ifs with hzero
      · exact .kept hkept
      · rcases rt₁.openNextHeight_tracker env with hsame | ⟨hrestarted, hlt | ⟨heq, -⟩⟩
        · rw [hsame]
          exact .kept hkept
        · refine .next hrestarted ?_
          rw [hkept.height] at hlt
          exact hlt
        · have hheight := hbounded.height
          rw [hkept.height] at heq
          omega

theorem advanceAfterFinalization_tracking (rt : ConsensusRuntime) (env : Env) :
    Tracking env rt (.call .advanceAfterFinalization) (rt.advanceAfterFinalization env).1 := by
  rcases rt.advanceAfterFinalization_cases env with hcase | ⟨hphase, hcase⟩
  · rw [hcase]
    exact .kept (.refl _)
  · rw [hcase]
    rcases rt.openNextHeight_tracker env with hsame | ⟨hrestarted, hlt | ⟨hheight, hround⟩⟩
    · rw [hsame]
      exact .kept (.refl _)
    · exact .next hrestarted hlt
    · exact .reopened hrestarted hphase hheight hround

theorem installCertifiedSnapshot_tracking (hbounded : Bounded rt) (env : Env)
    (snapshot : StateSnapshot) (certificate : SnapshotCertificate) (op : Operation) :
    Tracking env rt op (rt.installCertifiedSnapshot env snapshot certificate).1 := by
  unfold installCertifiedSnapshot
  cases hrestored : rt.restoreSnapshot snapshot certificate with
  | error e => exact .kept (.refl _)
  | ok restored =>
      cases restored with
      | none => exact .kept (.refl _)
      | some chain =>
          obtain ⟨-, -, hlt, hfrom, -⟩ := restoreSnapshot_eq_some.1 hrestored
          have htip := (fromSnapshotWithStaking_spec hfrom).1
          have hheight := hbounded.height
          dsimp only
          rw [BftConsensus.startRound_of_le (.inl (by omega))]
          refine .next ⟨rfl, ?_⟩ ?_
          · exact (congrArg (· + 1) htip.symm).le
          · show rt.consensus.height < snapshot.height + 1
            omega

theorem run_tracking (hbounded : Bounded rt) (env : Env) (call : Call) :
    Tracking env rt (.call call) (rt.run env call).1 := by
  cases call with
  | makeProposal block =>
      refine .kept ?_
      rcases rt.makeProposal_cases env block with hcase | ⟨_, _, _, _, _, hcase⟩
      · simp only [run, hcase]
        exact .refl _
      · simp only [run, hcase]
        exact ⟨rfl, rfl, le_rfl⟩
  | receiveProposal p => exact .kept (rt.kept_receiveProposal env p)
  | receiveVote vote => exact .kept (rt.kept_receiveVote env vote)
  | deferVote vote => exact .kept (rt.kept_deferVote vote)
  | replayDeferredVotes => exact .kept ((keptReplay env rt).replay (.refl _)).1
  | receiveRoundChange m =>
      rcases rt.receiveRoundChange_filing env m with ⟨hkept, -⟩ | hfiling
      · exact .kept hkept
      · exact .received hfiling
  | timeoutIfDueWithRoundChange now => exact rt.timeout_tracking env now _
  | applySyncCertificates certificates => exact applySyncCertificates_tracking hbounded env _ _
  | advanceAfterFinalization => exact rt.advanceAfterFinalization_tracking env
  | restartPhaseTimeout now => exact .kept ⟨rfl, rfl, le_rfl⟩
  | takeEvidence => exact .kept ⟨rfl, rfl, le_rfl⟩
  | takeFinalized => exact .kept ⟨rfl, rfl, le_rfl⟩

theorem perform_tracking (hbounded : Bounded rt) (env : Env) (op : Operation) :
    Tracking env rt op (rt.perform env op) := by
  cases op with
  | call call => exact run_tracking hbounded env call
  | timeoutIfDue now => exact rt.timeout_tracking env now _
  | forceTimeoutForTest =>
      refine .kept ?_
      simp only [perform, forceTimeoutForTest, BftConsensus.onTimeout]
      cases hnext : checkedAdd u32Max rt.consensus.round 1 with
      | none => exact ⟨rfl, rfl, le_rfl⟩
      | some next =>
          obtain ⟨rfl, -⟩ := checkedAdd_eq_some.1 hnext
          dsimp only
          rw [BftConsensus.startRound_of_le (.inr ⟨rfl, Nat.le_succ _⟩)]
          exact ⟨rfl, rfl, le_rfl⟩
  | applySyncBatch blocks =>
      obtain ⟨chain, hcase, htip, -⟩ := applySyncBatch_grown env blocks rt 0
      simp only [perform, hcase]
      exact .kept ⟨rfl, rfl, htip⟩
  | importCertificateHistory certificates =>
      obtain ⟨finalized, hcase⟩ := rt.importCertificateHistory_eq certificates
      simp only [perform, hcase]
      exact .kept ⟨rfl, rfl, le_rfl⟩
  | installCertifiedSnapshot snapshot certificate =>
      exact installCertifiedSnapshot_tracking hbounded env snapshot certificate _
  | replaceBootstrapValidators validators =>
      rcases rt.replaceBootstrapValidators_cases env validators with
        hcase | ⟨htip, hpending, c, hnew, hcase⟩
      · simp only [perform, hcase]
        exact .kept (.refl _)
      · simp only [perform, hcase]
        exact .replaced ⟨rfl, Nat.le_add_left 1 _⟩ htip hpending hnew
  | configure => exact .kept ⟨rfl, rfl, le_rfl⟩

/-! ## Runs -/

theorem Tracking.bounded {op : Operation} (h : Tracking env rt op rt') (hbounded : Bounded rt) :
    Bounded rt' := by
  cases h with
  | kept h => exact h.bounded hbounded
  | received h => exact h.bounded hbounded
  | own _ h => exact h.bounded hbounded
  | next h _ => exact h.bounded
  | reopened h => exact h.bounded
  | replaced h => exact h.bounded

omit [Crypto] in
theorem bounded_prepared {validators : List Validator} (hstart : Prepared validators rt) :
    Bounded rt := by
  obtain ⟨chain, self, timeouts, instant, base, _, _, _, _, _, hbase, rfl⟩ := hstart
  simp only [withSigner, bind_eq_ok, pure_eq_ok] at hbase
  obtain ⟨c, -, rfl⟩ := hbase
  exact ⟨Nat.zero_le _, le_rfl⟩

theorem bounded_operated {allowed : Env → ConsensusRuntime → Operation → Prop}
    (hbounded : Bounded rt) (hrun : Operated allowed rt rt') : Bounded rt' := by
  induction hrun with
  | refl => exact hbounded
  | tail _ hstep ih =>
      obtain ⟨env, op, -, rfl⟩ := hstep
      exact (perform_tracking ih env op).bounded ih

/-- No round change that passes its checks opens a further round while the given one is the
lowest of as many as are tracked, and the height is not started over. -/
def KeepsFiled (key : ℕ × ℕ) (env : Env) (rt : ConsensusRuntime) : Operation → Prop
  | .call (.receiveRoundChange m) =>
      rt.checkRoundChange m = .ok () →
        (∀ v, m.validValue = some v → rt.checkRoundChangeValue env m v = .ok () ∧
          rt.consensus.checkValidValue v.block.hash v.validRound v.prevotes = .ok ()) →
        ¬Evicts rt m key
  | .call .advanceAfterFinalization =>
      ¬(rt.consensus.phase = .finalized ∧ rt.consensus.height = rt.chain.tipHeight + 1 ∧
        rt.consensus.round = 0)
  | .replaceBootstrapValidators validators =>
      rt.chain.tipHeight = 0 → rt.pending = none → ∀ c, BftConsensus.new validators ≠ .ok c
  | _ => True

/-- Any sequence of operations after each of which the node is still waiting. -/
def OperatedWhile (waits : ConsensusRuntime → Prop)
    (allowed : Env → ConsensusRuntime → Operation → Prop) :
    ConsensusRuntime → ConsensusRuntime → Prop :=
  Relation.ReflTransGen fun rt rt' =>
    (∃ env op, allowed env rt op ∧ rt.perform env op = rt') ∧ waits rt'

theorem perform_receiveRoundChange (rt : ConsensusRuntime) (env : Env) (m : SignedRoundChange) :
    rt.perform env (.call (.receiveRoundChange m)) = (rt.receiveRoundChange env m).1 := rfl

/-- A round change on file survives an operation. -/
theorem Tracking.mem {op : Operation} (h : Tracking env rt op rt') (hbounded : Bounded rt)
    (hkeeps : KeepsFiled key env rt op) (hbefore : Awaits key rt) (hafter : Awaits key rt')
    {filed : SignedRoundChange} (hfiled : filed ∈ rt.filedRoundChanges key) :
    filed ∈ rt'.filedRoundChanges key := by
  cases h with
  | kept h =>
      rw [filedRoundChanges, h.tracker]
      exact hfiled
  | received h => exact h.mem hbounded (hkeeps h.checked h.adopted) hafter hfiled
  | @own _ m _ hround h =>
      -- the node's own round is not above the given one, and only a new round pushes one out
      refine h.mem hbounded (fun hevicts => hevicts.further ?_) hafter hfiled
      have hkey : key = (m.height, m.round) := by
        have hheight := height_of_checkRoundChange h.checked
        have hlast := hbefore.2
        rcases hevicts.below with hlt | ⟨heq, hle⟩
        · have := hbefore.1
          dsimp only at hlt
          omega
        · ext
          · exact heq
          · dsimp only at hle ⊢
            omega
      rw [← hkey, ← AList.lookup_isSome]
      by_contra hnone
      rw [filedRoundChanges, getD, Option.not_isSome_iff_eq_none.1 hnone] at hfiled
      cases hfiled
  | next h hlt =>
      have := hbefore.1
      have := hafter.1
      omega
  | reopened h hphase hheight hround => exact absurd ⟨hphase, hheight, hround⟩ hkeeps
  | replaced h htip hpending hnew => exact absurd hnew (hkeeps htip hpending _)

/-- In every run whose operations keep to the condition, a round change that was received stays
on file until its round has passed or the height changes. -/
theorem roundChange_filed_of_run {validators : List Validator} {rt₀ : ConsensusRuntime}
    (hstart : Prepared validators rt₀) (hrun : Operated (fun _ _ _ => True) rt₀ rt) {moved : Bool}
    (hreceived : (rt.receiveRoundChange env m).2 = .ok moved)
    (hkeeps : KeepsFiled (m.height, m.round) env rt (.call (.receiveRoundChange m)))
    (hwaits : Awaits (m.height, m.round) (rt.receiveRoundChange env m).1)
    (hlater : OperatedWhile (Awaits (m.height, m.round)) (KeepsFiled (m.height, m.round))
      (rt.receiveRoundChange env m).1 rt') :
    ∃ filed ∈ rt'.filedRoundChanges (m.height, m.round),
      filed.validatorId = m.validatorId ∧
        (m.validatorId ∉ (rt.filedRoundChanges (m.height, m.round)).map (·.validatorId) →
          filed = m) := by
  have hbounded := bounded_operated (bounded_prepared hstart) hrun
  have hfiling : Filing env rt m (rt.receiveRoundChange env m).1 := by
    rcases rt.receiveRoundChange_filing env m with ⟨-, e, herror⟩ | hfiling
    · rw [hreceived] at herror
      cases herror
    · exact hfiling
  obtain ⟨filed, hfiled, hid⟩ := rt.exists_recordRoundChange m
  refine ⟨filed, ?_, hid⟩
  have hfirst : filed ∈ (rt.receiveRoundChange env m).1.filedRoundChanges (m.height, m.round) := by
    rw [hfiling.tracker m.round hwaits.2,
      filed_pruneRoundChanges hbounded (hkeeps hfiling.checked hfiling.adopted)]
    exact hfiled
  have hlast : Bounded rt' ∧ Awaits (m.height, m.round) rt' ∧
      filed ∈ rt'.filedRoundChanges (m.height, m.round) := by
    induction hlater with
    | refl => exact ⟨hfiling.bounded hbounded, hwaits, hfirst⟩
    | tail _ hstep ih =>
        obtain ⟨⟨env, op, hallowed, rfl⟩, hafter⟩ := hstep
        obtain ⟨hbefore, hawaits, hmem⟩ := ih
        have htracking := perform_tracking hbefore env op
        exact ⟨htracking.bounded hbefore, hafter,
          htracking.mem hbefore hallowed hawaits hafter hmem⟩
  exact hlast.2.2

end

end ConsensusRuntime

namespace Quartet

open ConsensusRuntime

attribute [local instance] timeoutsCrypto

/-- A round change without a valid value. -/
def askedFor (n round : ℕ) : SignedRoundChange :=
  { chainId := chain.chainId, genesisCommitment := chain.genesisCommitment, height := 1, round
    validatorId := StandIn.address n, validValue := none
    signature := StandIn.sign n (SignedRoundChange.bytesToSign chain.chainId
      chain.genesisCommitment 1 round (StandIn.address n)) }

/-- The fresh node with round changes on file. -/
def tracking (rt : ConsensusRuntime) (tracker : HashMap (ℕ × ℕ) (List SignedRoundChange)) :
    ConsensusRuntime :=
  { rt with roundChangeVotes := tracker }

/-- The second validator has given up the current round, the third one the rounds up to the
given one. -/
def flood : ℕ → HashMap (ℕ × ℕ) (List SignedRoundChange)
  | 0 => AList.insert (1, 0) [askedFor 2 0] ∅
  | last + 1 => (flood last).insert (1, last + 1) [askedFor 3 (last + 1)]

theorem keys_flood (last : ℕ) :
    (flood last).keys.length = last + 1 ∧ ∀ k, k ∈ flood last ↔ k.1 = 1 ∧ k.2 ≤ last := by
  induction last with
  | zero =>
      refine ⟨rfl, fun k => ?_⟩
      rw [flood, AList.mem_insert, Prod.ext_iff]
      simp
  | succ last ih =>
      obtain ⟨hlength, hmem⟩ := ih
      refine ⟨?_, fun k => ?_⟩
      · rw [flood, length_keys_insert, if_neg, hlength]
        rw [hmem]
        omega
      · rw [flood, AList.mem_insert, hmem, Prod.ext_iff]
        dsimp only
        omega

section
variable {rt : ConsensusRuntime} {tracker : HashMap (ℕ × ℕ) (List SignedRoundChange)}

theorem checkRoundChange_askedFor (h : started = .ok rt) {n round : ℕ} (hn : n ∈ [1, 2, 3, 4])
    (hround : round ≤ maxFutureRoundDistance) :
    (tracking rt tracker).checkRoundChange (askedFor n round) = .ok () := by
  obtain ⟨hchain, hvalidators, -, -, -⟩ := started_spec h
  obtain ⟨⟨hheight, hfirst, -⟩, -, -, -, -⟩ := fresh_spec h
  have hverify : (askedFor n round).verify = .ok () := StandIn.verifySignature_sign _ n _
  have hnear : saturatingAdd u32Max 0 maxFutureRoundDistance = maxFutureRoundDistance := by decide
  simp only [tracking, ConsensusRuntime.checkRoundChange, check_bind_eq_ok, reject_eq_ok, hverify,
    hchain, hheight, hfirst, hnear, not_lt, not_not]
  refine ⟨trivial, by simp [askedFor], rfl, ?_, hround⟩
  have hmember : StandIn.address n ∈ members.map (·.id) := by
    simp only [members, List.map_map]
    exact List.mem_map_of_mem hn
  rw [ConsensusRuntime.isValidator, hvalidators]
  exact decide_eq_true hmember

/-- Each of the four has one of four votes. -/
theorem power_askedFor {n : ℕ} (hn : n ∈ [1, 2, 3, 4]) (round : ℕ) :
    (members.find? (·.id = (askedFor n round).validatorId)).map (·.votingPower) = some 1 := by
  have hone : ∀ v ∈ members, v.votingPower = 1 := by simp [members]
  have hfind : (members.find? (·.id = (askedFor n round).validatorId)).isSome = true := by
    rw [List.find?_isSome]
    exact ⟨⟨StandIn.address n, 1⟩, List.mem_map_of_mem hn, decide_eq_true rfl⟩
  obtain ⟨v, hv⟩ := Option.isSome_iff_exists.1 hfind
  rw [hv, Option.map_some, hone v (List.mem_of_find?_eq_some hv)]

/-- The first to give up a round calls for nothing. -/
theorem calledRound_askedFor (h : started = .ok rt) {n round : ℕ} (hn : n ∈ [1, 2, 3, 4])
    (hnew : (1, round) ∉ tracker) :
    (tracking rt tracker).recordRoundChange (askedFor n round) =
        tracking rt (tracker.insert (1, round) [askedFor n round]) ∧
      ((tracking rt tracker).recordRoundChange (askedFor n round)).calledRound 1 round = none := by
  obtain ⟨-, hvalidators, -, -, -⟩ := started_spec h
  have hrecorded : (tracking rt tracker).recordRoundChange (askedFor n round) =
      tracking rt (tracker.insert (1, round) [askedFor n round]) := recordRoundChange_new hnew
  refine ⟨hrecorded, ?_⟩
  have hpower : (tracking rt (tracker.insert (1, round) [askedFor n round])).roundChangePower
      1 round = 1 := by
    simp only [roundChangePower, tracking, getD_insert_self, hvalidators]
    rw [List.filterMap_cons, power_askedFor hn]
    rfl
  have htotal : wrappingSum u64Max (members.map (·.votingPower)) = 4 := rfl
  rw [hrecorded]
  unfold calledRound
  rw [hpower]
  simp only [tracking, hvalidators, htotal]
  rw [if_neg (by decide)]

theorem receive_askedFor (h : started = .ok rt) {n round : ℕ} (hn : n ∈ [1, 2, 3, 4])
    (hround : round ≤ maxFutureRoundDistance) (hnew : (1, round) ∉ tracker) :
    ((tracking rt tracker).receiveRoundChange env (askedFor n round)).1 =
        (tracking rt (tracker.insert (1, round) [askedFor n round])).pruneRoundChanges ∧
      ∃ moved, ((tracking rt tracker).receiveRoundChange env (askedFor n round)).2 = .ok moved := by
  have hcheck := @checkRoundChange_askedFor _ tracker h n round hn hround
  obtain ⟨hrecorded, hcalled⟩ := calledRound_askedFor h hn hnew
  have hadopt : (tracking rt tracker).adoptRoundChangeValue env (askedFor n round) =
      (tracking rt tracker, .ok ()) := rfl
  rcases receiveRoundChange_adopted hcheck hadopt with ⟨target, hsome, -⟩ | ⟨-, hcase, hok⟩
  · cases hcalled.symm.trans hsome
  · rw [hrecorded] at hcase
    refine ⟨hcase, hok (Nat.lt_of_le_of_lt hround ?_)⟩
    decide

theorem tracking_fresh (h : started = .ok rt) : tracking rt ∅ = rt := by
  simp only [started, withSigner, bind_eq_ok, pure_eq_ok] at h
  obtain ⟨c, -, rfl⟩ := h
  rfl

theorem awaits_tracking (h : started = .ok rt) : Awaits (1, 0) (tracking rt tracker) := by
  obtain ⟨⟨hheight, hround, -⟩, -⟩ := fresh_spec h
  exact ⟨hheight, hround.le⟩

theorem prune_tracking (hsmall : tracker.keys.length ≤ maxTrackedRounds) :
    (tracking rt tracker).pruneRoundChanges = tracking rt tracker := by
  unfold pruneRoundChanges
  exact if_neg (not_lt.2 hsmall)

theorem receive_flood (h : started = .ok rt) {last : ℕ} (hlast : last < maxFutureRoundDistance) :
    (tracking rt (flood last)).perform env (.call (.receiveRoundChange (askedFor 3 (last + 1)))) =
      (tracking rt (flood (last + 1))).pruneRoundChanges := by
  have hnew : (1, last + 1) ∉ flood last := by
    rw [(keys_flood last).2]
    omega
  rw [perform_receiveRoundChange]
  exact (receive_askedFor h (by decide : 3 ∈ [1, 2, 3, 4]) hlast hnew).1

/-- The third validator names one round after the other. -/
theorem flood_run (h : started = .ok rt) {last : ℕ} (hlast : last < maxTrackedRounds) :
    OperatedWhile (Awaits (1, 0))
      (fun _ _ op => ∃ round, op = .call (.receiveRoundChange (askedFor 3 round)))
      (tracking rt (flood 0)) (tracking rt (flood last)) := by
  induction last with
  | zero => exact .refl
  | succ last ih =>
      have hmany : maxTrackedRounds ≤ maxFutureRoundDistance := by decide
      have hcase := receive_flood h (by omega : last < maxFutureRoundDistance)
      rw [prune_tracking (by rw [(keys_flood _).1]; omega)] at hcase
      refine .tail (ih (Nat.lt_of_succ_lt hlast)) ⟨⟨env, _, ⟨last + 1, rfl⟩, hcase⟩, ?_⟩
      exact awaits_tracking h

/-- The round change of the second validator is filed. -/
theorem flood_start (h : started = .ok rt) :
    (rt.receiveRoundChange env (askedFor 2 0)).1 = tracking rt (flood 0) ∧
      ∃ moved, (rt.receiveRoundChange env (askedFor 2 0)).2 = .ok moved := by
  have hcase := receive_askedFor h (by decide : 2 ∈ [1, 2, 3, 4]) (Nat.zero_le _)
    (AList.notMem_empty (1, 0))
  rw [tracking_fresh h] at hcase
  rw [hcase.1]
  exact ⟨prune_tracking (by decide : (flood 0).keys.length ≤ maxTrackedRounds), hcase.2⟩

end

/-- One validator that names 128 later rounds erases the round change of another one. -/
theorem flood_erases_roundChange : ∃ rt₀ rt rt', Prepared members rt₀ ∧
    (rt₀.receiveRoundChange env (askedFor 2 0)).1 = rt ∧
    askedFor 2 0 ∈ rt.filedRoundChanges (1, 0) ∧
    OperatedWhile (Awaits (1, 0))
      (fun _ _ op => ∃ round, op = .call (.receiveRoundChange (askedFor 3 round))) rt rt' ∧
    Awaits (1, 0) rt' ∧ rt'.filedRoundChanges (1, 0) = [] := by
  obtain ⟨rt₀, h⟩ := started_ok
  obtain ⟨hfirst, -⟩ := flood_start h
  have hfull : maxTrackedRounds < (flood 128).keys.length := by
    rw [(keys_flood 128).1]
    decide
  obtain ⟨oldest, holdest⟩ : ∃ oldest, oldestRound (flood 128).keys = some oldest := by
    cases hkeys : (flood 128).keys with
    | nil =>
        rw [hkeys] at hfull
        cases hfull
    | cons k rest => exact ⟨_, rfl⟩
  have hlowest : oldest = (1, 0) := by
    obtain ⟨hin, hle⟩ := oldestRound_spec holdest
    have hoften := ((keys_flood 128).2 oldest).1 (AList.mem_keys.2 hin)
    have hzero := hle (1, 0) (AList.mem_keys.1 (((keys_flood 128).2 (1, 0)).2 (by decide)))
    unfold pairLe at hzero
    ext
    · exact hoften.1
    · dsimp only at hzero ⊢
      omega
  have hlast := receive_flood h (by decide : 127 < maxFutureRoundDistance)
  have hpruned : (tracking rt₀ (flood 128)).pruneRoundChanges =
      tracking rt₀ ((flood 128).erase (1, 0)) := by
    have hkeys : (tracking rt₀ (flood 128)).roundChangeVotes.keys = (flood 128).keys := rfl
    unfold pruneRoundChanges
    rw [if_pos (by rw [hkeys]; exact hfull), hkeys, holdest, hlowest]
    rfl
  refine ⟨rt₀, _, tracking rt₀ ((flood 128).erase (1, 0)), prepared h, hfirst, ?_, ?_,
    awaits_tracking h, ?_⟩
  · exact List.mem_singleton_self _
  · rw [hpruned] at hlast
    exact .tail (flood_run h (by decide : 127 < maxTrackedRounds))
      ⟨⟨env, _, ⟨128, rfl⟩, hlast⟩, awaits_tracking h⟩
  · simp only [filedRoundChanges, tracking, getD, AList.lookup_erase]
    rfl

/-- The round change of the second validator next to a later one of the third. -/
theorem roundChange_filed_of_run_flood : ∃ rt₀ rt', Prepared members rt₀ ∧
    OperatedWhile (Awaits (1, 0)) (KeepsFiled (1, 0))
      (rt₀.receiveRoundChange env (askedFor 2 0)).1 rt' ∧
    ∃ filed ∈ rt'.filedRoundChanges (1, 0), filed.validatorId = StandIn.address 2 := by
  obtain ⟨rt₀, h⟩ := started_ok
  obtain ⟨hfirst, moved, hmoved⟩ := flood_start h
  have hempty : rt₀.roundChangeVotes.keys.length = 0 := by
    rw [← tracking_fresh h]
    rfl
  have hkeeps : KeepsFiled (1, 0) env rt₀ (.call (.receiveRoundChange (askedFor 2 0))) := by
    intro _ _ hevicts
    have hfull := hevicts.full
    rw [hempty] at hfull
    cases hfull
  have hkeeps' : KeepsFiled (1, 0) env (tracking rt₀ (flood 0))
      (.call (.receiveRoundChange (askedFor 3 1))) := by
    intro _ _ hevicts
    exact absurd hevicts.full (by decide : ¬maxTrackedRounds ≤ (flood 0).keys.length)
  have hcase := receive_flood h (by decide : 0 < maxFutureRoundDistance)
  rw [prune_tracking (by rw [(keys_flood _).1]; decide)] at hcase
  have hwaits : Awaits (1, 0) (rt₀.receiveRoundChange env (askedFor 2 0)).1 := by
    rw [hfirst]
    exact awaits_tracking h
  have hrun : OperatedWhile (Awaits (1, 0)) (KeepsFiled (1, 0))
      (rt₀.receiveRoundChange env (askedFor 2 0)).1 (tracking rt₀ (flood 1)) := by
    rw [hfirst]
    exact .single ⟨⟨env, _, hkeeps', hcase⟩, awaits_tracking h⟩
  obtain ⟨filed, hfiled, hid, -⟩ :=
    roundChange_filed_of_run (prepared h) .refl hmoved hkeeps hwaits hrun
  exact ⟨rt₀, _, prepared h, hrun, filed, hfiled, hid⟩

end Quartet

end IeumChain
