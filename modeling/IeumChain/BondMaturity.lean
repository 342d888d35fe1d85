import IeumChain.FailedStaking

/-!
# The age of a bond

A position keeps one time for all of its amount, the latest at which something was added. So what
counts as mature never exceeds what was delegated early enough, in whatever order calls and their
times come.
-/
namespace IeumChain

open Text Outcome MachineWords

namespace StakingState

section
variable (delegator : Address) (timestamp maturitySeconds : ℕ)

/-- What a position adds to the mature amount of a delegator. -/
def matureAmount (p : DelegationPosition) : ℕ :=
  if p.delegator = delegator ∧ saturatingAdd u64Max p.delegatedAt maturitySeconds ≤ timestamp then
    p.amount
  else 0

def matureTotal (s : StakingState) : ℕ :=
  (s.delegations.map (matureAmount delegator timestamp maturitySeconds)).sum

/-- What a call of the delegator adds, if it succeeds and its time is early enough. -/
def maturing (s : StakingState) : Call → ℕ
  | .delegateAt delegator' validator amount delegatedAt =>
      if delegator' = delegator ∧ delegatedAt + maturitySeconds ≤ timestamp ∧
          (s.delegateAtInPlace delegator' validator amount delegatedAt).2.isOk = true then amount
      else 0
  | _ => 0

/-- The sum of what the calls of a run add. -/
def maturingAlong : StakingState → List Call → ℕ
  | _, [] => 0
  | s, call :: rest =>
      s.maturing delegator timestamp maturitySeconds call + maturingAlong (s.callInPlace call).1 rest

end

/-- The state after the calls, failed ones included. -/
def runCalls (s : StakingState) (calls : List Call) : StakingState :=
  calls.foldl (fun s call => (s.callInPlace call).1) s

/-- No time of a delegation is so late that its maturity leaves the clock. -/
def Call.InTime (maturitySeconds : ℕ) : Call → Prop
  | .delegateAt _ _ _ delegatedAt => delegatedAt < u64Max - maturitySeconds
  | _ => True

section
variable {delegator : Address} {timestamp maturitySeconds : ℕ}

theorem matureDelegatedBy_eq (s : StakingState) :
    s.matureDelegatedBy delegator timestamp maturitySeconds =
      min (s.matureTotal delegator timestamp maturitySeconds) u128Max := by
  have hsum : ∀ l : List DelegationPosition, ((l.filter fun p => p.delegator = delegator ∧
      saturatingAdd u64Max p.delegatedAt maturitySeconds ≤ timestamp).map
        DelegationPosition.amount).sum =
      (l.map (matureAmount delegator timestamp maturitySeconds)).sum := by
    intro l
    induction l with
    | nil => rfl
    | cons p rest ih =>
        rw [List.map_cons, List.sum_cons, ← ih, List.filter_cons, matureAmount]
        split_ifs with h h' h'
        · rw [List.map_cons, List.sum_cons]
        · exact absurd (of_decide_eq_true h) h'
        · exact absurd (decide_eq_true h') h
        · rw [Nat.zero_add]
  rw [matureDelegatedBy, foldl_saturatingAdd DelegationPosition.amount _ (Nat.zero_le _),
    Nat.zero_add, hsum, matureTotal]

theorem matureAmount_lower (p : DelegationPosition) (cut : ℕ) :
    matureAmount delegator timestamp maturitySeconds { p with amount := p.amount - cut } ≤
      matureAmount delegator timestamp maturitySeconds p := by
  unfold matureAmount
  split_ifs
  · exact Nat.sub_le _ _
  · exact le_rfl

theorem matureTotal_sort (s : StakingState) :
    s.sort.matureTotal delegator timestamp maturitySeconds =
      s.matureTotal delegator timestamp maturitySeconds := sum_map_insertionSort ..

/-! ## One call -/

/-- What is added later than a position was opened makes all of it younger. -/
theorem matureAmount_topUp {p : DelegationPosition} {amount delegatedAt : ℕ} :
    matureAmount delegator timestamp maturitySeconds
        { p with amount := p.amount + amount, delegatedAt := max p.delegatedAt delegatedAt } ≤
      matureAmount delegator timestamp maturitySeconds p +
        matureAmount delegator timestamp maturitySeconds
          { p with amount := amount, delegatedAt := delegatedAt } := by
  unfold matureAmount
  dsimp only
  by_cases hold : p.delegator = delegator ∧
      saturatingAdd u64Max (max p.delegatedAt delegatedAt) maturitySeconds ≤ timestamp
  · obtain ⟨hdelegator, hmature⟩ := hold
    have hmono : ∀ {a b : ℕ}, a ≤ b →
        saturatingAdd u64Max a maturitySeconds ≤ saturatingAdd u64Max b maturitySeconds :=
      fun h => min_le_min_right _ (Nat.add_le_add_right h _)
    rw [if_pos ⟨hdelegator, hmature⟩,
      if_pos ⟨hdelegator, (hmono (le_max_left _ _)).trans hmature⟩,
      if_pos ⟨hdelegator, (hmono (le_max_right _ _)).trans hmature⟩]
  · rw [if_neg hold]
    exact Nat.zero_le _

/-- Topping up counts only with a time of its own that is early enough. -/
theorem matureTotal_delegateAt (s : StakingState) (owner validator : Address)
    (amount delegatedAt : ℕ) (hintime : delegatedAt < u64Max - maturitySeconds) :
    (s.delegateAtInPlace owner validator amount delegatedAt).1.matureTotal delegator timestamp
        maturitySeconds ≤
      s.matureTotal delegator timestamp maturitySeconds +
        s.maturing delegator timestamp maturitySeconds
          (.delegateAt owner validator amount delegatedAt) := by
  have hclock : saturatingAdd u64Max delegatedAt maturitySeconds = delegatedAt + maturitySeconds :=
    min_eq_left (by omega)
  have hadded : ∀ s', s.delegateAtInPlace owner validator amount delegatedAt = (s', .ok ()) →
      s.maturing delegator timestamp maturitySeconds
          (.delegateAt owner validator amount delegatedAt) =
        matureAmount delegator timestamp maturitySeconds
          { delegator := owner, validator, amount, delegatedAt } := by
    intro s' hs'
    have hok : (s.delegateAtInPlace owner validator amount delegatedAt).2.isOk = true := by
      rw [hs']
      rfl
    simp only [maturing, matureAmount, hok, hclock, and_true]
  rcases s.delegateAtInPlace_cases owner validator amount delegatedAt with
    ⟨e, heq⟩ | ⟨position, hfind, heq⟩ | heq
  · rw [heq]
    exact Nat.le_add_right _ _
  · have hsum := sum_updateFirst (fun p => { p with
      amount := position.amount + amount, delegatedAt := max p.delegatedAt delegatedAt })
      (matureAmount delegator timestamp maturitySeconds) hfind
    have htopUp := @matureAmount_topUp delegator timestamp maturitySeconds position amount
      delegatedAt
    have hposition : isPosition owner validator position = true := List.find?_some hfind
    obtain ⟨rfl, rfl⟩ := of_decide_eq_true hposition
    rw [hadded _ heq, heq]
    dsimp only
    rw [matureTotal_sort]
    simp only [matureTotal] at hsum ⊢
    omega
  · rw [hadded _ heq, heq]
    dsimp only
    rw [matureTotal_sort]
    simp [matureTotal]

theorem matureTotal_lowerPosition (s : StakingState) (owner validator : Address) (amount : ℕ) :
    (s.lowerPosition owner validator amount).matureTotal delegator timestamp maturitySeconds ≤
      s.matureTotal delegator timestamp maturitySeconds := by
  have hupdate : ∀ l : List DelegationPosition,
      ((updateFirst (isPosition owner validator) (fun p => { p with amount := p.amount - amount })
        l).map (matureAmount delegator timestamp maturitySeconds)).sum ≤
      (l.map (matureAmount delegator timestamp maturitySeconds)).sum := by
    intro l
    induction l with
    | nil => exact le_rfl
    | cons p rest ih =>
        rw [updateFirst]
        split_ifs
        · exact Nat.add_le_add_right (matureAmount_lower p amount) _
        · exact Nat.add_le_add_left ih _
  have hfilter := (List.filter_sublist (p := fun p : DelegationPosition => decide (0 < p.amount))
    (l := updateFirst (isPosition owner validator) (fun p => { p with amount := p.amount - amount })
      s.delegations)).map (matureAmount delegator timestamp maturitySeconds)
  exact (hfilter.sum_le_sum fun _ _ => Nat.zero_le _).trans (hupdate s.delegations)

theorem matureTotal_undelegate (s : StakingState) (owner validator : Address)
    (amount blockTimestamp : ℕ) :
    (s.undelegateInPlace owner validator amount blockTimestamp).1.matureTotal delegator timestamp
        maturitySeconds ≤ s.matureTotal delegator timestamp maturitySeconds := by
  have hlower : (s.lowerPosition owner validator amount).matureTotal delegator timestamp
      maturitySeconds ≤ s.matureTotal delegator timestamp maturitySeconds :=
    s.matureTotal_lowerPosition owner validator amount
  unfold undelegateInPlace
  generalize checkedAdd u64Max blockTimestamp Staking.unbondingSeconds = release
  split_ifs
  · exact le_rfl
  · cases s.delegations.find? (isPosition owner validator) with
    | none => exact le_rfl
    | some position =>
        dsimp only
        split_ifs
        · exact le_rfl
        · cases release with
          | none => exact hlower
          | some releaseAt =>
              dsimp only
              rw [openEntry, matureTotal_sort]
              exact hlower

theorem matureTotal_slash (s : StakingState) (evidenceId validator : String) (penaltyBps : ℕ) :
    (s.slashInPlace evidenceId validator penaltyBps).1.matureTotal delegator timestamp
        maturitySeconds ≤ s.matureTotal delegator timestamp maturitySeconds := by
  have hcut : ((Staking.cutLoop (fun p : DelegationPosition => p.validator = validator) (·.amount)
      DelegationPosition.lower penaltyBps s.delegations 0).1.map
        (matureAmount delegator timestamp maturitySeconds)).sum ≤
      (s.delegations.map (matureAmount delegator timestamp maturitySeconds)).sum :=
    Staking.sum_cutLoop_le _ (fun cut p => matureAmount_lower p cut) s.delegations 0
  unfold slashInPlace
  split_ifs
  · exact le_rfl
  · generalize Staking.cutLoop (fun p : DelegationPosition => p.validator = validator) (·.amount)
      DelegationPosition.lower penaltyBps s.delegations 0 = first at hcut ⊢
    obtain ⟨delegations, outcome⟩ := first
    cases outcome with
    | error e => exact hcut
    | ok total =>
        dsimp only at hcut ⊢
        generalize Staking.cutLoop (fun e : UnbondingEntry => e.validator = validator) (·.amount)
          UnbondingEntry.lower penaltyBps s.unbonding total = second
        obtain ⟨unbonding, outcome⟩ := second
        cases outcome with
        | error e => exact hcut
        | ok total =>
            have hfilter := (List.filter_sublist
              (p := fun p : DelegationPosition => decide (0 < p.amount)) (l := delegations)).map
                (matureAmount delegator timestamp maturitySeconds)
            exact (hfilter.sum_le_sum fun _ _ => Nat.zero_le _).trans hcut
  · exact le_rfl

theorem matureTotal_claim (s : StakingState) (owner : Address) (blockTimestamp : ℕ) :
    (s.claimInPlace owner blockTimestamp).1.matureTotal delegator timestamp maturitySeconds =
      s.matureTotal delegator timestamp maturitySeconds := by
  unfold claimInPlace
  generalize checkedSum u128Max
    ((s.unbonding.filter (isDue owner blockTimestamp)).map UnbondingEntry.amount) = sum
  cases sum with
  | none => rfl
  | some amount =>
      dsimp only
      split_ifs
      · rfl
      · rfl

/-- A call adds at most what it delegates early enough. -/
theorem matureTotal_call (s : StakingState) {call : Call} (hintime : call.InTime maturitySeconds) :
    (s.callInPlace call).1.matureTotal delegator timestamp maturitySeconds ≤
      s.matureTotal delegator timestamp maturitySeconds +
        s.maturing delegator timestamp maturitySeconds call := by
  cases call with
  | delegateAt owner validator amount delegatedAt =>
      exact s.matureTotal_delegateAt owner validator amount delegatedAt hintime
  | undelegate owner validator amount blockTimestamp =>
      exact s.matureTotal_undelegate owner validator amount blockTimestamp
  | claim owner blockTimestamp =>
      exact (s.matureTotal_claim owner blockTimestamp).le
  | slash evidenceId validator penaltyBps =>
      exact s.matureTotal_slash evidenceId validator penaltyBps

/-! ## Runs -/

theorem matureTotal_run (s : StakingState) (calls : List Call)
    (hintime : ∀ call ∈ calls, call.InTime maturitySeconds) :
    (s.runCalls calls).matureTotal delegator timestamp maturitySeconds ≤
      s.matureTotal delegator timestamp maturitySeconds +
        s.maturingAlong delegator timestamp maturitySeconds calls := by
  induction calls generalizing s with
  | nil => exact le_rfl
  | cons call rest ih =>
      rw [List.forall_mem_cons] at hintime
      have hcall : (s.callInPlace call).1.matureTotal delegator timestamp maturitySeconds ≤
          s.matureTotal delegator timestamp maturitySeconds +
            s.maturing delegator timestamp maturitySeconds call := s.matureTotal_call hintime.1
      have hrest := ih (s.callInPlace call).1 hintime.2
      simp only [runCalls, List.foldl_cons, maturingAlong] at hrest ⊢
      omega

/-- What counts as mature was delegated early enough, whatever was added, taken back or cut in
between. -/
theorem mature_le_delegated (calls : List Call)
    (hintime : ∀ call ∈ calls, call.InTime maturitySeconds) :
    (empty.runCalls calls).matureDelegatedBy delegator timestamp maturitySeconds ≤
      empty.maturingAlong delegator timestamp maturitySeconds calls := by
  have hrun : (empty.runCalls calls).matureTotal delegator timestamp maturitySeconds ≤
      empty.matureTotal delegator timestamp maturitySeconds +
        empty.maturingAlong delegator timestamp maturitySeconds calls :=
    empty.matureTotal_run calls hintime
  have hempty : empty.matureTotal delegator timestamp maturitySeconds = 0 := rfl
  rw [hempty, Nat.zero_add] at hrun
  rw [matureDelegatedBy_eq]
  exact (min_le_left _ _).trans hrun

end

end StakingState

/-! ## A bond that is topped up -/

namespace ToppedUp

def validator : Address := String.ofList (List.replicate 64 'a')

/-- The second amount comes later than the time at which maturity is asked for. -/
def calls : List StakingState.Call :=
  [.delegateAt "0xa" validator Staking.minimumDelegation 100,
    .delegateAt "0xa" validator Staking.minimumDelegation 200]

theorem mature_le_delegated_toppedUp :
    (StakingState.empty.runCalls calls).matureDelegatedBy "0xa" 150 50 ≤
      Staking.minimumDelegation := by
  have hintime : ∀ call ∈ calls, call.InTime 50 := by
    have htime : 200 < u64Max - 50 := by decide
    simp only [calls, List.forall_mem_cons, StakingState.Call.InTime]
    exact ⟨by omega, htime, fun call hcall => absurd hcall List.not_mem_nil⟩
  have halong : StakingState.empty.maturingAlong "0xa" 150 50 calls = Staking.minimumDelegation := by
    decide +kernel
  exact (StakingState.mature_le_delegated calls hintime).trans halong.le

end ToppedUp

end IeumChain
