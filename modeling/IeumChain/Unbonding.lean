import IeumChain.Execution
import IeumChain.StandIn

/-!
# Rights to unbonded amounts

The entries of all delegators stand in one list that undelegating sorts, slashing
rewrites and claiming filters. Beside it we keep a book with one right for every
undelegation, which is never removed and notes what was paid on it. At every point of a
run the list holds exactly the rights with something left, so what the book says of a
right is what happens to it.
-/
namespace IeumChain

open Outcome MachineWords FiniteMap

/-! ## The book -/

/-- A payment on a right. -/
structure Payout where
  time : ℕ
  amount : ℕ
  deriving Repr, DecidableEq

/-- What an undelegation entitles to, what is left of it and what was paid on it. -/
structure UnbondingRight where
  delegator : Address
  validator : Address
  granted : ℕ
  openedAt : ℕ
  remaining : ℕ
  payouts : List Payout
  deriving Repr, DecidableEq

namespace UnbondingRight

def maturesAt (r : UnbondingRight) : ℕ := r.openedAt + Staking.unbondingSeconds

/-- A claim of the delegator pays what is left, if the time has come. -/
def payable (delegator : Address) (timestamp : ℕ) (r : UnbondingRight) : Bool :=
  r.delegator = delegator ∧ r.maturesAt ≤ timestamp ∧ 0 < r.remaining

def claimed (delegator : Address) (timestamp : ℕ) (r : UnbondingRight) : UnbondingRight :=
  if r.payable delegator timestamp then
    { r with remaining := 0, payouts := r.payouts ++ [⟨timestamp, r.remaining⟩] }
  else r

def slashed (validator : Address) (penaltyBps : ℕ) (r : UnbondingRight) : UnbondingRight :=
  if r.validator = validator then
    { r with remaining := r.remaining - StakingState.slashCut penaltyBps r.remaining }
  else r

/-- The entry that stands for a right. -/
def entry (r : UnbondingRight) : UnbondingEntry :=
  { delegator := r.delegator, validator := r.validator, amount := r.remaining
    releaseAt := r.maturesAt }

end UnbondingRight

/-- What a block executes, one after the other. -/
inductive Move
  | transaction (timestamp : ℕ) (producer : Address) (tx : Transaction)
  | event (timestamp : ℕ) (e : ScheduledEvent)

namespace Move

/-- The right that a move opens. -/
def opens : Move → Option UnbondingRight
  | .transaction timestamp _ tx =>
      match tx.action with
      | .undelegate validator => some
          { delegator := tx.sender, validator, granted := tx.amount, openedAt := timestamp
            remaining := tx.amount, payouts := [] }
      | _ => none
  | .event _ _ => none

/-- What a move does to a right that is open already. -/
def changes (m : Move) (r : UnbondingRight) : UnbondingRight :=
  match m with
  | .transaction timestamp _ tx =>
      match tx.action with
      | .claimUnbonded => r.claimed tx.sender timestamp
      | _ => r
  | .event _ e =>
      match e.action with
      | .doubleVoteSlash evidence penaltyBps => r.slashed evidence.first.validatorId penaltyBps
      | _ => r

/-- The book after a move. -/
def enter (rights : List UnbondingRight) (m : Move) : List UnbondingRight :=
  rights.map m.changes ++ m.opens.toList

def run [Crypto] (chainId : ℕ) (l : Ledger) : Move → Except String Ledger
  | .transaction timestamp producer tx => applyTransaction chainId producer timestamp l tx
  | .event timestamp e => applySystemEvent timestamp l e

end Move

def Block.moves (b : Block) : List Move :=
  b.transactions.map (.transaction b.timestamp b.producer) ++
    b.systemEvents.map (.event b.timestamp)

def movesIn (blocks : List Block) : List Move := blocks.flatMap Block.moves

/-- The book after a list of moves. -/
def rightsAfter (moves : List Move) : List UnbondingRight := moves.foldl Move.enter []

/-! ## What the book says of a right -/

/-- Paid at most once, in time, at most what was granted, and then closed. -/
structure UnbondingRight.Honoured (r : UnbondingRight) : Prop where
  remaining_le : r.remaining ≤ r.granted
  once : r.payouts.length ≤ 1
  each : ∀ p ∈ r.payouts, r.maturesAt ≤ p.time ∧ p.amount ≤ r.granted ∧ r.remaining = 0

namespace UnbondingRight

variable {r : UnbondingRight}

theorem Honoured.claimed (h : r.Honoured) (delegator : Address) (timestamp : ℕ) :
    (r.claimed delegator timestamp).Honoured := by
  unfold UnbondingRight.claimed
  split_ifs with hpays
  · simp only [payable, decide_eq_true_eq] at hpays
    obtain ⟨-, hmature, hpos⟩ := hpays
    have hnone : r.payouts = [] := by
      rw [List.eq_nil_iff_forall_not_mem]
      intro p hp
      have := (h.each p hp).2.2
      omega
    refine ⟨Nat.zero_le _, by simp [hnone], ?_⟩
    intro p hp
    rw [hnone, List.nil_append, List.mem_singleton] at hp
    subst hp
    exact ⟨hmature, h.remaining_le, rfl⟩
  · exact h

theorem Honoured.slashed (h : r.Honoured) (validator : Address) (penaltyBps : ℕ) :
    (r.slashed validator penaltyBps).Honoured := by
  unfold UnbondingRight.slashed
  split_ifs
  · refine ⟨(Nat.sub_le _ _).trans h.remaining_le, h.once, fun p hp => ?_⟩
    obtain ⟨hmature, hle, hzero⟩ := h.each p hp
    refine ⟨hmature, hle, ?_⟩
    dsimp only
    omega
  · exact h

end UnbondingRight

/-- What a move changes about a right is its payment to the delegator or a penalty of its
validator. -/
theorem Move.changes_cases (m : Move) (r : UnbondingRight) :
    m.changes r = r ∨
      (∃ timestamp producer tx, m = .transaction timestamp producer tx ∧
        tx.action = .claimUnbonded ∧ r.payable tx.sender timestamp = true ∧
        m.changes r =
          { r with remaining := 0, payouts := r.payouts ++ [⟨timestamp, r.remaining⟩] }) ∨
      ∃ timestamp e evidence penaltyBps, m = .event timestamp e ∧
        e.action = .doubleVoteSlash evidence penaltyBps ∧
        r.validator = evidence.first.validatorId ∧
        m.changes r =
          { r with remaining := r.remaining - StakingState.slashCut penaltyBps r.remaining } := by
  cases m with
  | transaction timestamp producer tx =>
      cases haction : tx.action with
      | claimUnbonded =>
          have hchange : (transaction timestamp producer tx).changes r =
              r.claimed tx.sender timestamp := by
            simp only [changes, haction]
          rw [hchange, UnbondingRight.claimed]
          split_ifs with hpays
          · exact .inr (.inl ⟨timestamp, producer, tx, rfl, haction, hpays, rfl⟩)
          · exact .inl rfl
      | _ => simp [changes, haction]
  | event timestamp e =>
      cases haction : e.action with
      | doubleVoteSlash evidence penaltyBps =>
          have hchange : (event timestamp e).changes r =
              r.slashed evidence.first.validatorId penaltyBps := by
            simp only [changes, haction]
          rw [hchange, UnbondingRight.slashed]
          split_ifs with hvalidator
          · exact .inr (.inr ⟨timestamp, e, evidence, penaltyBps, rfl, haction, hvalidator, rfl⟩)
          · exact .inl rfl
      | _ => simp [changes, haction]

theorem Move.honoured_changes (m : Move) {r : UnbondingRight} (h : r.Honoured) :
    (m.changes r).Honoured := by
  cases m with
  | transaction timestamp producer tx =>
      simp only [changes]
      split
      · exact h.claimed _ _
      · exact h
  | event timestamp e =>
      simp only [changes]
      split
      · exact h.slashed _ _
      · exact h

theorem Move.honoured_opens {m : Move} {r : UnbondingRight} (h : m.opens = some r) :
    r.Honoured := by
  cases m with
  | event timestamp e => cases h
  | transaction timestamp producer tx =>
      simp only [opens] at h
      split at h
      · cases h
        exact ⟨le_rfl, Nat.zero_le _, fun p hp => by cases hp⟩
      · cases h

theorem rightsAfter_snoc (moves : List Move) (m : Move) :
    rightsAfter (moves ++ [m]) = (rightsAfter moves).map m.changes ++ m.opens.toList := by
  simp [rightsAfter, Move.enter]

theorem honoured_of_mem_rightsAfter {moves : List Move} {r : UnbondingRight}
    (h : r ∈ rightsAfter moves) : r.Honoured := by
  induction moves using List.reverseRecOn generalizing r with
  | nil => cases h
  | append_singleton moves m ih =>
      rw [rightsAfter_snoc] at h
      rcases List.mem_append.1 h with h | h
      · obtain ⟨r, hr, rfl⟩ := List.mem_map.1 h
        exact m.honoured_changes (ih hr)
      · exact Move.honoured_opens (Option.mem_toList.1 h)

/-! ## The list holds what is left -/

/-- The entries are those of the rights with something left. -/
def Matches (s : StakingState) (rights : List UnbondingRight) : Prop :=
  s.unbonding.Perm ((rights.filter (0 < ·.remaining)).map UnbondingRight.entry)

namespace StakingState

variable {s s' : StakingState} {rights : List UnbondingRight}

theorem delegateAt_unbonding {delegator validator : Address} {amount delegatedAt : ℕ}
    (h : s.delegateAt delegator validator amount delegatedAt = .ok s') :
    s'.unbonding.Perm s.unbonding := by
  simp only [delegateAt, check_bind_eq_ok] at h
  obtain ⟨-, -, -, h⟩ := h
  split at h
  · simp only [bind_eq_ok, pure_eq_ok] at h
    obtain ⟨raised, -, rfl⟩ := h
    exact List.perm_insertionSort _ _
  · rw [pure_eq_ok] at h
    subst h
    exact List.perm_insertionSort _ _

theorem undelegate_unbonding {delegator validator : Address} {amount blockTimestamp releaseAt : ℕ}
    (h : s.undelegate delegator validator amount blockTimestamp = .ok (s', releaseAt)) :
    0 < amount ∧ s'.unbonding.Perm (s.unbonding ++
      [{ delegator, validator, amount
         releaseAt := blockTimestamp + Staking.unbondingSeconds }]) := by
  simp only [undelegate, check_bind_eq_ok, reject_eq_ok] at h
  obtain ⟨hpos, h⟩ := h
  simp only [bind_eq_ok, okOr_eq_ok, checkedAdd_eq_some, pure_eq_ok, Prod.mk.injEq] at h
  obtain ⟨position, -, -, -, release, ⟨hrelease, -⟩, rfl, rfl⟩ := h
  refine ⟨Nat.pos_of_ne_zero hpos, ?_⟩
  rw [hrelease]
  exact List.perm_insertionSort _ _

theorem claim_unbonding {delegator : Address} {blockTimestamp amount : ℕ}
    (h : s.claim delegator blockTimestamp = .ok (s', amount)) :
    s'.unbonding = (s.unbonding.filter fun e => !isDue delegator blockTimestamp e) ∧
      amount = ((s.unbonding.filter (isDue delegator blockTimestamp)).map
        UnbondingEntry.amount).sum := by
  simp only [claim, bind_eq_ok, okOr_eq_ok, checkedSum_eq_some, pure_eq_ok, Prod.mk.injEq] at h
  obtain ⟨due, ⟨hdue, -⟩, -, -, rfl, rfl⟩ := h
  exact ⟨rfl, hdue.symm⟩

theorem slash_unbonding {evidenceId validator : String} {penaltyBps total : ℕ}
    (h : s.slash evidenceId validator penaltyBps = .ok (s', total)) :
    s'.unbonding = (s.unbonding.map fun e =>
      if e.validator = validator then { e with amount := e.amount - slashCut penaltyBps e.amount }
      else e).filter (0 < ·.amount) := by
  simp only [slash, check_bind_eq_ok] at h
  obtain ⟨-, -, h⟩ := h
  simp only [bind_eq_ok, pure_eq_ok, Prod.mk.injEq] at h
  obtain ⟨_, -, rfl, -⟩ := h
  rfl

end StakingState

namespace UnbondingRight

theorem isDue_entry (delegator : Address) (timestamp : ℕ) (r : UnbondingRight) :
    StakingState.isDue delegator timestamp r.entry = true ↔
      r.delegator = delegator ∧ r.maturesAt ≤ timestamp :=
  decide_eq_true_iff

theorem filter_entries (delegator : Address) (timestamp : ℕ) (rights : List UnbondingRight) :
    ((rights.filter (0 < ·.remaining)).map entry).filter (StakingState.isDue delegator timestamp) =
      (rights.filter (payable delegator timestamp)).map entry := by
  rw [List.filter_map, List.filter_filter]
  refine congrArg (List.map entry) (List.filter_congr fun r _ => ?_)
  rw [Bool.eq_iff_iff, Bool.and_eq_true, Function.comp_apply, isDue_entry, decide_eq_true_iff,
    payable, decide_eq_true_iff]
  tauto

/-- Claiming filters the list as it closes rights in the book. -/
theorem entries_claimed (delegator : Address) (timestamp : ℕ) (rights : List UnbondingRight) :
    ((rights.map (claimed delegator timestamp)).filter (0 < ·.remaining)).map entry =
      ((rights.filter (0 < ·.remaining)).map entry).filter
        fun e => !StakingState.isDue delegator timestamp e := by
  induction rights with
  | nil => rfl
  | cons r rest ih =>
      have hdue := isDue_entry delegator timestamp r
      by_cases hpos : 0 < r.remaining
      · by_cases hpays : r.payable delegator timestamp = true
        · have hclosed : ¬0 < (r.claimed delegator timestamp).remaining := by
            simp [claimed, hpays]
          have hdue' : StakingState.isDue delegator timestamp r.entry = true := by
            simp only [payable, decide_eq_true_eq] at hpays
            exact hdue.2 ⟨hpays.1, hpays.2.1⟩
          simp [hpos, hclosed, hdue', ih]
        · have hsame : r.claimed delegator timestamp = r := by simp [claimed, hpays]
          have hdue' : StakingState.isDue delegator timestamp r.entry = false := by
            rw [← Bool.not_eq_true, hdue]
            rintro ⟨howner, hmature⟩
            exact hpays (decide_eq_true ⟨howner, hmature, hpos⟩)
          simp [hsame, hpos, hdue', ih]
      · have hsame : r.claimed delegator timestamp = r := by
          have hnot : ¬r.payable delegator timestamp = true := by simp [payable, hpos]
          simp [claimed, hnot]
        simp [hsame, hpos, ih]

theorem entry_slashed (validator : Address) (penaltyBps : ℕ) (r : UnbondingRight) :
    (r.slashed validator penaltyBps).entry =
      if r.entry.validator = validator then
        { r.entry with
          amount := r.entry.amount - StakingState.slashCut penaltyBps r.entry.amount }
      else r.entry := by
  by_cases hvalidator : r.validator = validator
  · have hentry : r.entry.validator = validator := hvalidator
    rw [if_pos hentry, slashed, if_pos hvalidator]
    rfl
  · have hentry : ¬r.entry.validator = validator := hvalidator
    rw [if_neg hentry, slashed, if_neg hvalidator]

theorem remaining_slashed_le (validator : Address) (penaltyBps : ℕ) (r : UnbondingRight) :
    (r.slashed validator penaltyBps).remaining ≤ r.remaining := by
  unfold slashed
  split_ifs
  · exact Nat.sub_le _ _
  · exact le_rfl

/-- Slashing cuts the list as it cuts the book. -/
theorem entries_slashed (validator : Address) (penaltyBps : ℕ) (rights : List UnbondingRight) :
    ((rights.map (slashed validator penaltyBps)).filter (0 < ·.remaining)).map entry =
      (((rights.filter (0 < ·.remaining)).map entry).map fun e =>
        if e.validator = validator then
          { e with amount := e.amount - StakingState.slashCut penaltyBps e.amount }
        else e).filter (0 < ·.amount) := by
  have hcut : ∀ r : UnbondingRight, (if r.entry.validator = validator then
      { r.entry with amount := r.entry.amount - StakingState.slashCut penaltyBps r.entry.amount }
      else r.entry) = (r.slashed validator penaltyBps).entry :=
    fun r => (entry_slashed validator penaltyBps r).symm
  induction rights with
  | nil => rfl
  | cons r rest ih =>
      have hle := remaining_slashed_le validator penaltyBps r
      have hamount : (r.slashed validator penaltyBps).entry.amount =
          (r.slashed validator penaltyBps).remaining := rfl
      by_cases hpos : 0 < r.remaining
      · by_cases hleft : 0 < (r.slashed validator penaltyBps).remaining
        · simp only [List.map_cons, List.filter_cons, hpos, hleft, hcut, hamount, decide_true, if_true,
            ih]
        · simp only [List.map_cons, List.filter_cons, hpos, hleft, hcut, hamount, decide_true,
            decide_false, if_true, Bool.false_eq_true, if_false, ih]
      · have hleft : ¬0 < (r.slashed validator penaltyBps).remaining := by omega
        simp only [List.map_cons, List.filter_cons, hpos, hleft, decide_false, Bool.false_eq_true,
          if_false, ih]

end UnbondingRight

/-- What a claim pays by the book. -/
def claimable (delegator : Address) (timestamp : ℕ) (rights : List UnbondingRight) : ℕ :=
  ((rights.filter (UnbondingRight.payable delegator timestamp)).map (·.remaining)).sum

/-- Undelegating, claiming and slashing do to the list what they do to the book. -/
theorem Matches.claim {s s' : StakingState} {rights : List UnbondingRight}
    (h : Matches s rights) {delegator : Address} {timestamp amount : ℕ}
    (hclaim : s.claim delegator timestamp = .ok (s', amount)) :
    Matches s' (rights.map (UnbondingRight.claimed delegator timestamp)) ∧
      amount = claimable delegator timestamp rights := by
  obtain ⟨hleft, hamount⟩ := StakingState.claim_unbonding hclaim
  constructor
  · rw [Matches, hleft, UnbondingRight.entries_claimed]
    exact h.filter _
  · rw [hamount, ((h.filter _).map _).sum_eq, claimable, UnbondingRight.filter_entries, List.map_map]
    rfl

theorem Matches.undelegate {s s' : StakingState} {rights : List UnbondingRight}
    (h : Matches s rights) {delegator validator : Address} {timestamp amount releaseAt : ℕ}
    (hrun : s.undelegate delegator validator amount timestamp = .ok (s', releaseAt)) :
    Matches s' (rights ++ [{ delegator, validator, granted := amount, openedAt := timestamp
                             remaining := amount, payouts := [] }]) := by
  obtain ⟨hpos, hperm⟩ := StakingState.undelegate_unbonding hrun
  rw [Matches, List.filter_append, List.map_append]
  refine hperm.trans ?_
  simp only [List.filter_cons, hpos, decide_true, if_true, List.filter_nil]
  exact h.append_right _

theorem Matches.slash {s s' : StakingState} {rights : List UnbondingRight}
    (h : Matches s rights) {evidenceId validator : String} {penaltyBps total : ℕ}
    (hrun : s.slash evidenceId validator penaltyBps = .ok (s', total)) :
    Matches s' (rights.map (UnbondingRight.slashed validator penaltyBps)) := by
  rw [Matches, StakingState.slash_unbonding hrun, UnbondingRight.entries_slashed]
  exact (h.map _).filter _

/-! ## Runs -/

theorem Move.enter_eq {m : Move} {f : UnbondingRight → UnbondingRight} {opened : Option UnbondingRight}
    (hchanges : ∀ r, m.changes r = f r) (hopens : m.opens = opened) (rights : List UnbondingRight) :
    Move.enter rights m = rights.map f ++ opened.toList := by
  rw [Move.enter, hopens, List.map_congr_left fun r _ => hchanges r]

/-- A move that neither opens nor changes a right. -/
theorem Move.enter_idle {m : Move} (hchanges : ∀ r, m.changes r = r) (hopens : m.opens = none)
    (rights : List UnbondingRight) : Move.enter rights m = rights := by
  rw [Move.enter_eq hchanges hopens]
  simp

theorem Matches.transaction {rights : List UnbondingRight} {l acted : Ledger} {producer : Address}
    {timestamp : ℕ} {tx : Transaction} (h : Matches l.staking rights)
    (hacted : applyTransactionAction l timestamp tx = .ok acted) :
    Matches acted.staking (Move.enter rights (.transaction timestamp producer tx)) := by
  unfold applyTransactionAction at hacted
  cases haction : tx.action with
  | transfer =>
      simp only [haction, bind_eq_ok, pure_eq_ok] at hacted
      obtain ⟨balances, -, rfl⟩ := hacted
      rw [Move.enter_idle (fun r => by simp only [Move.changes, haction])
        (by simp only [Move.opens, haction])]
      exact h
  | delegate validator =>
      simp only [haction, bind_eq_ok, pure_eq_ok] at hacted
      obtain ⟨staking, hrun, rfl⟩ := hacted
      rw [Move.enter_idle (fun r => by simp only [Move.changes, haction])
        (by simp only [Move.opens, haction])]
      exact (StakingState.delegateAt_unbonding hrun).trans h
  | undelegate validator =>
      simp only [haction, bind_eq_ok, pure_eq_ok, Prod.exists] at hacted
      obtain ⟨staking, releaseAt, hrun, rfl⟩ := hacted
      rw [Move.enter_eq (f := id) (fun r => by simp only [Move.changes, haction, id])
        (by simp only [Move.opens, haction]; rfl), List.map_id]
      exact h.undelegate hrun
  | claimUnbonded =>
      simp only [haction, bind_eq_ok, pure_eq_ok, Prod.exists] at hacted
      obtain ⟨staking, claimed, hrun, balances, -, rfl⟩ := hacted
      rw [Move.enter_eq (fun r => by simp only [Move.changes, haction]; rfl)
        (by simp only [Move.opens, haction]; rfl)]
      simpa using (h.claim hrun).1

theorem Matches.event {rights : List UnbondingRight} {l l' : Ledger} {timestamp : ℕ}
    {e : ScheduledEvent} (h : Matches l.staking rights) (hrun : applyAction l e.id e.action = .ok l') :
    Matches l'.staking (Move.enter rights (.event timestamp e)) := by
  cases haction : e.action with
  | doubleVoteSlash evidence penaltyBps =>
      simp only [haction, applyAction, bind_eq_ok, pure_eq_ok, Prod.exists] at hrun
      obtain ⟨staking, slashed, hslash, balances, -, rfl⟩ := hrun
      have hopens : (Move.event timestamp e).opens = none := rfl
      rw [Move.enter_eq (fun r => by simp only [Move.changes, haction]; rfl) hopens]
      simpa using h.slash hslash
  | _ =>
      simp only [haction, applyAction, bind_eq_ok, pure_eq_ok] at hrun
      obtain ⟨balances, -, rfl⟩ := hrun
      rw [Move.enter_idle (fun r => by simp only [Move.changes, haction]) rfl]
      exact h

/-- The account of the sender gains exactly what the book says, and no other account does. -/
theorem Matches.credits {l acted : Ledger} {rights : List UnbondingRight} {timestamp : ℕ}
    {tx : Transaction} (h : Matches l.staking rights) (haction : tx.action = .claimUnbonded)
    (hacted : applyTransactionAction l timestamp tx = .ok acted) (a : Address) :
    acted.balanceOf a = l.balanceOf a +
      if a = tx.sender then claimable tx.sender timestamp rights else 0 := by
  simp only [applyTransactionAction, haction, bind_eq_ok, pure_eq_ok, Prod.exists] at hacted
  obtain ⟨staking, claimed, hclaim, balances, hcredit, rfl⟩ := hacted
  rw [← (h.claim hclaim).2]
  simp only [@eq_comm _ a]
  exact creditBalance_getD hcredit a

/-- What an undelegation says of the right that it opens. -/
def UnbondingRight.origin (r : UnbondingRight) : Address × Address × ℕ × ℕ :=
  (r.delegator, r.validator, r.granted, r.openedAt)

theorem origin_changes (m : Move) (r : UnbondingRight) : (m.changes r).origin = r.origin := by
  rcases m.changes_cases r with hsame | ⟨_, _, _, -, -, -, hcase⟩ | ⟨_, _, _, _, -, -, -, hcase⟩
  · rw [hsame]
  · rw [hcase]
    rfl
  · rw [hcase]
    rfl

theorem origins_rightsAfter (moves : List Move) :
    (rightsAfter moves).map UnbondingRight.origin =
      moves.filterMap fun m => m.opens.map UnbondingRight.origin := by
  induction moves using List.reverseRecOn with
  | nil => rfl
  | append_singleton moves m ih =>
      rw [rightsAfter_snoc, List.map_append, List.map_map, List.filterMap_append, ← ih]
      congr 1
      · exact List.map_congr_left fun r _ => origin_changes m r
      · cases hopens : m.opens <;> simp [hopens]

section
variable [Crypto]

theorem Matches.run {rights : List UnbondingRight} {chainId : ℕ} {l l' : Ledger} {m : Move}
    (h : Matches l.staking rights) (hrun : m.run chainId l = .ok l') :
    Matches l'.staking (Move.enter rights m) := by
  cases m with
  | transaction timestamp producer tx =>
      rw [Move.run, applyTransaction, check_bind_eq_ok] at hrun
      obtain ⟨-, acted, balances, hacted, -, rfl⟩ := runTransaction_acted hrun.2
      have hdebited : Matches (l.debit tx.sender (debitAmount tx + tx.fee)).staking rights := h
      have hmoved : Matches acted.staking (Move.enter rights (.transaction timestamp producer tx)) :=
        hdebited.transaction hacted
      exact hmoved
  | event timestamp e =>
      simp only [Move.run, applySystemEvent, check_bind_eq_ok] at hrun
      have hmarked : Matches { l with executedEvents := insert e.id l.executedEvents }.staking
          rights := h
      exact hmarked.event hrun.2.2.2

theorem Matches.moves {rights : List UnbondingRight} {chainId : ℕ} {l l' : Ledger}
    {moves : List Move} (h : Matches l.staking rights)
    (hrun : moves.foldlM (Move.run chainId) l = .ok l') :
    Matches l'.staking (moves.foldl Move.enter rights) := by
  induction moves generalizing l rights with
  | nil =>
      rw [List.foldlM_nil, pure_eq_ok] at hrun
      subst hrun
      exact h
  | cons m rest ih =>
      rw [List.foldlM_cons, bind_eq_ok] at hrun
      obtain ⟨l₁, hm, hrest⟩ := hrun
      exact ih (h.run hm) hrest

/-- The moves of the chain lead from the ledger of the genesis to the current one. -/
structure Executes (g c : Blockchain) : Prop where
  chainId : c.chainId = g.chainId
  ledger : (movesIn c.blocks).foldlM (Move.run g.chainId) g.toLedger = .ok c.toLedger

theorem moves_of_applyBlock {c c' : Blockchain} {block : Block}
    (h : c.applyBlock block = .ok c') :
    block.moves.foldlM (Move.run c.chainId) c.toLedger = .ok c'.toLedger := by
  obtain ⟨-, -, -, l, hl, rfl⟩ := Blockchain.applyBlock_eq_ok.1 h
  obtain ⟨l₁, htransactions, hevents, -⟩ := Blockchain.execute_eq_ok.1 hl
  rw [Block.moves, List.foldlM_append, List.foldlM_map, bind_eq_ok]
  refine ⟨l₁, htransactions, ?_⟩
  rw [List.foldlM_map]
  exact hevents

theorem Executes.offerAll {g c : Blockchain} (h : Executes g c) (offered : List Block) :
    Executes g (c.offerAll offered) := by
  induction offered generalizing c with
  | nil => exact h
  | cons block rest ih =>
      refine ih ?_
      unfold Blockchain.offer
      cases happly : c.applyBlock block with
      | error e => exact h
      | ok c' =>
          have hmoves := moves_of_applyBlock happly
          obtain ⟨-, -, -, l, -, rfl⟩ := Blockchain.applyBlock_eq_ok.1 happly
          refine ⟨h.chainId, ?_⟩
          have hblocks : movesIn (c.push l block).blocks = movesIn c.blocks ++ block.moves := by
            simp [movesIn, Blockchain.push]
          rw [hblocks, List.foldlM_append, bind_eq_ok]
          refine ⟨c.toLedger, h.ledger, ?_⟩
          rw [← h.chainId]
          exact hmoves

theorem executes_genesis {g : Blockchain} (hg : g.IsGenesis) : Executes g g := by
  obtain ⟨timestamp, hblocks⟩ := hg.blocks
  have hnone : movesIn g.blocks = [] := by
    rw [hblocks]
    rfl
  exact ⟨rfl, by rw [hnone]; rfl⟩

theorem matches_genesis {g : Blockchain} (hg : g.IsGenesis) : Matches g.staking [] := by
  rw [hg.staking]
  exact .refl _

/-- The chain `c` honours the undelegations executed since the genesis `g`. -/
structure HonoursUnbonding (g c : Blockchain) : Prop where
  /-- The entries of the ledger are those of the rights with something left. -/
  entries : Matches c.staking (rightsAfter (movesIn c.blocks))
  /-- One right for every undelegation, in the order of execution. -/
  opened : (rightsAfter (movesIn c.blocks)).map UnbondingRight.origin =
    (movesIn c.blocks).filterMap fun m => m.opens.map UnbondingRight.origin
  /-- Paid at most once, not before its time, at most what was granted. -/
  honoured : ∀ r ∈ rightsAfter (movesIn c.blocks), r.Honoured
  /-- A move changes a right only if it is a claim of its delegator, which pays what is left, or
  a penalty of its validator. -/
  changed : ∀ before m after, movesIn c.blocks = before ++ m :: after →
    ∀ (i : ℕ) (r : UnbondingRight), (rightsAfter before)[i]? = some r →
      ∃ r', (rightsAfter (before ++ [m]))[i]? = some r' ∧
        (r' = r ∨
          (∃ timestamp producer tx, m = .transaction timestamp producer tx ∧
            tx.action = .claimUnbonded ∧ r.payable tx.sender timestamp = true ∧
            r' = { r with remaining := 0, payouts := r.payouts ++ [⟨timestamp, r.remaining⟩] }) ∨
          ∃ timestamp e evidence penaltyBps, m = .event timestamp e ∧
            e.action = .doubleVoteSlash evidence penaltyBps ∧
            r.validator = evidence.first.validatorId ∧
            r' = { r with
              remaining := r.remaining - StakingState.slashCut penaltyBps r.remaining })
  /-- A claim credits its sender with what is left of the rights that are due, and nothing else. -/
  credited : ∀ before timestamp producer tx after,
    movesIn c.blocks = before ++ .transaction timestamp producer tx :: after →
    tx.action = .claimUnbonded →
      ∃ l acted, before.foldlM (Move.run g.chainId) g.toLedger = .ok l ∧
        applyTransactionAction (l.debit tx.sender tx.fee) timestamp tx = .ok acted ∧
        ∀ a, acted.balanceOf a = (l.debit tx.sender tx.fee).balanceOf a +
          if a = tx.sender then claimable tx.sender timestamp (rightsAfter before) else 0

/-- Whatever blocks are offered to a genesis chain, its undelegations are honoured. -/
theorem unbonding_honoured_of_offered {g : Blockchain} (hg : g.IsGenesis) (offered : List Block) :
    HonoursUnbonding g (g.offerAll offered) := by
  have hexecutes := (executes_genesis hg).offerAll offered
  refine ⟨(matches_genesis hg).moves hexecutes.ledger, origins_rightsAfter _,
    fun r => honoured_of_mem_rightsAfter, ?_, ?_⟩
  · intro before m after _ i r hr
    refine ⟨m.changes r, ?_, m.changes_cases r⟩
    have hlt : i < ((rightsAfter before).map m.changes).length := by
      rw [List.length_map]
      exact (List.getElem?_eq_some_iff.1 hr).1
    rw [rightsAfter_snoc, List.getElem?_append_left hlt, List.getElem?_map, hr]
    rfl
  · intro before timestamp producer tx after hsplit haction
    have hledger := hexecutes.ledger
    rw [hsplit, List.foldlM_append, bind_eq_ok] at hledger
    obtain ⟨l, hbefore, hrest⟩ := hledger
    rw [List.foldlM_cons, bind_eq_ok] at hrest
    obtain ⟨l', hrun, -⟩ := hrest
    rw [Move.run, applyTransaction, check_bind_eq_ok] at hrun
    obtain ⟨-, acted, balances, hacted, -⟩ := runTransaction_acted hrun.2
    have hnothing : debitAmount tx + tx.fee = tx.fee := by simp [debitAmount, haction]
    rw [hnothing] at hacted
    have hmatches : Matches l.staking (rightsAfter before) := (matches_genesis hg).moves hbefore
    have hdebited : Matches (l.debit tx.sender tx.fee).staking (rightsAfter before) := hmatches
    exact ⟨l, acted, hbefore, hacted, hdebited.credits haction hacted⟩

end

/-! A delegator takes half of its delegation back and claims it a week later. -/

namespace Unbonder

local instance unbondingCrypto : Crypto := StandIn.crypto StandIn.digest

def staking (amount nonce : ℕ) (action : TransactionAction) : Transaction :=
  StandIn.signed 1
    { sender := StandIn.address 1, receiver := RawTransaction.stakingSystemAddress, amount, fee := 0
      nonce, action, signature := "" }

def delegation : Transaction := staking (2 * ieumBaseUnit) 0 (.delegate (StandIn.address 2))

def undelegation : Transaction := staking ieumBaseUnit 1 (.undelegate (StandIn.address 2))

def claim : Transaction := staking 0 2 .claimUnbonded

def chain : Blockchain := Blockchain.withChainId 21005 [(StandIn.address 1, 3 * ieumBaseUnit)]

def first : Block := Block.new 1 chain.tipHash 10 "producer" [delegation, undelegation]

def second : Block := Block.new 2 first.hash (10 + Staking.unbondingSeconds) "producer" [claim]

theorem signed_staking (chainId amount nonce : ℕ) (action : TransactionAction) :
    checkTransactionSignature chainId (staking amount nonce action) = .ok () :=
  StandIn.checkTransactionSignature_signed _ _ _ _ rfl

theorem offered_blocks : (chain.offerAll [first, second]).blocks = chain.blocks ++ [first, second] := by
  obtain ⟨u, h⟩ := isOk_iff.1 (by decide : Except.isOk (do
    let l ← runTransaction "producer" 10 chain.toLedger delegation
    let l ← runTransaction "producer" 10 l undelegation
    validateSupplyCap l
    let l ← runTransaction "producer" (10 + Staking.unbondingSeconds) l claim
    validateSupplyCap l) = true)
  simp only [bind_eq_ok] at h
  obtain ⟨l₁, hdelegated, l₂, hundelegated, u', hcap, l₃, hclaimed, hcap'⟩ := h
  have hfirst : chain.applyBlock first = .ok (chain.push l₂ first) := by
    refine Blockchain.applyBlock_eq_ok.2 ⟨rfl, rfl, Block.new_hash .., l₂, ?_, rfl⟩
    refine Blockchain.execute_eq_ok.2 ⟨l₂, ?_, rfl, hcap⟩
    have htransactions : first.transactions = [delegation, undelegation] := rfl
    rw [htransactions, applyTransactions, List.foldlM_cons, bind_eq_ok]
    refine ⟨l₁, check_bind_eq_ok.2 ⟨signed_staking .., hdelegated⟩, ?_⟩
    rw [List.foldlM_cons, bind_eq_ok]
    exact ⟨l₂, check_bind_eq_ok.2 ⟨signed_staking .., hundelegated⟩, rfl⟩
  have hsecond : (chain.push l₂ first).applyBlock second =
      .ok ((chain.push l₂ first).push l₃ second) := by
    refine Blockchain.applyBlock_eq_ok.2 ⟨?_, ?_, Block.new_hash .., l₃, ?_, rfl⟩
    · rw [Blockchain.tipHeight, Blockchain.tip_push]
      rfl
    · rw [Blockchain.tipHash, Blockchain.tip_push]
      rfl
    · refine Blockchain.execute_eq_ok.2 ⟨l₃, ?_, rfl, hcap'⟩
      have htransactions : second.transactions = [claim] := rfl
      rw [htransactions, applyTransactions, List.foldlM_cons, bind_eq_ok]
      exact ⟨l₃, check_bind_eq_ok.2 ⟨signed_staking .., hclaimed⟩, rfl⟩
  rw [Blockchain.offerAll_cons, Blockchain.offer_of_applyBlock hfirst, Blockchain.offerAll_cons,
    Blockchain.offer_of_applyBlock hsecond, Blockchain.offerAll_nil]
  exact List.append_assoc chain.blocks [first] [second]

theorem unbonding_honoured_of_offered_claim :
    HonoursUnbonding chain (chain.offerAll [first, second]) ∧
      rightsAfter (movesIn (chain.offerAll [first, second]).blocks) =
        [{ delegator := StandIn.address 1, validator := StandIn.address 2, granted := ieumBaseUnit
           openedAt := 10, remaining := 0
           payouts := [⟨10 + Staking.unbondingSeconds, ieumBaseUnit⟩] }] := by
  refine ⟨unbonding_honoured_of_offered (Blockchain.isGenesis_withChainId _ _) _, ?_⟩
  have hmoves : movesIn (chain.blocks ++ [first, second]) =
      [.transaction 10 "producer" delegation, .transaction 10 "producer" undelegation,
        .transaction (10 + Staking.unbondingSeconds) "producer" claim] := rfl
  rw [offered_blocks, hmoves]
  simp [rightsAfter, Move.enter, Move.changes, Move.opens, UnbondingRight.claimed,
    UnbondingRight.payable, UnbondingRight.maturesAt, delegation, undelegation, claim, staking,
    StandIn.signed, ieumBaseUnit]

end Unbonder

end IeumChain
