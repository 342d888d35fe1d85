import IeumChain.StakingOrder

/-!
# Staking calls that fail

Every call works on the state in place. Most checks come before the first write. The release time
of an undelegation and the sum of the penalties are computed after it, so a call that stops there
has already taken something away.
-/
namespace IeumChain

open Text Outcome MachineWords

namespace StakingState

/-- The amount of a position is written once the sum is known to fit. -/
def delegateAtInPlace (s : StakingState) (delegator validator : Address)
    (amount delegatedAt : ℕ) : StakingState × Except String Unit :=
  match RawTransaction.validateValidator validator with
  | .error e => (s, .error e)
  | .ok _ =>
      if amount < Staking.minimumDelegation then (s, .error "최소 위임 수량은 1 IEUM입니다.")
      else if delegator = validator then (s, .error "자기 자신에게는 위임할 수 없습니다.")
      else
        match s.delegations.find? (isPosition delegator validator) with
        | some position =>
            match checkedAdd u128Max position.amount amount with
            | none => (s, .error "위임액이 u128 범위를 넘습니다.")
            | some raised =>
                (sort { s with
                  delegations := updateFirst (isPosition delegator validator)
                    (fun p => { p with
                      amount := raised, delegatedAt := max p.delegatedAt delegatedAt })
                    s.delegations }, .ok ())
        | none =>
            (sort { s with
              delegations := s.delegations ++ [{ delegator, validator, amount, delegatedAt }] },
              .ok ())

/-- The entries are removed once their sum is known. -/
def claimInPlace (s : StakingState) (delegator : Address) (blockTimestamp : ℕ) :
    StakingState × Except String ℕ :=
  match checkedSum u128Max
      ((s.unbonding.filter (isDue delegator blockTimestamp)).map UnbondingEntry.amount) with
  | none => (s, .error "청구액이 u128 범위를 넘습니다.")
  | some amount =>
      if amount = 0 then (s, .error "아직 청구할 수 있는 해제 잔액이 없습니다.")
      else
        ({ s with unbonding := s.unbonding.filter fun e => !isDue delegator blockTimestamp e },
          .ok amount)

/-- Forgets what a successful call returns. -/
def withoutValue {α : Type} (result : StakingState × Except String α) :
    StakingState × Except String Unit :=
  (result.1, result.2.map fun _ => ())

theorem withoutValue_error {α : Type} {result : StakingState × Except String α} {e : String} :
    (withoutValue result).2 = .error e ↔ result.2 = .error e := by
  obtain ⟨s', outcome⟩ := result
  cases outcome <;> simp [withoutValue, Except.map]

/-- The state a call leaves, with its verdict. -/
def callInPlace (s : StakingState) : Call → StakingState × Except String Unit
  | .delegateAt delegator validator amount delegatedAt =>
      s.delegateAtInPlace delegator validator amount delegatedAt
  | .undelegate delegator validator amount blockTimestamp =>
      withoutValue (s.undelegateInPlace delegator validator amount blockTimestamp)
  | .claim delegator blockTimestamp => withoutValue (s.claimInPlace delegator blockTimestamp)
  | .slash evidenceId validator penaltyBps =>
      withoutValue (s.slashInPlace evidenceId validator penaltyBps)

/-- The penalties that a slash adds up. -/
def cuts (s : StakingState) (validator : String) (penaltyBps : ℕ) : List ℕ :=
  ((s.delegations.filter (·.validator = validator)).map fun p => slashCut penaltyBps p.amount) ++
    (s.unbonding.filter (·.validator = validator)).map fun e => slashCut penaltyBps e.amount

/-- Passes every check that comes before the first write, and then a number does not fit. -/
def Overflows (s : StakingState) : Call → Prop
  | .delegateAt _ _ _ _ => False
  | .undelegate delegator validator amount blockTimestamp =>
      amount ≠ 0 ∧ u64Max < blockTimestamp + Staking.unbondingSeconds ∧
        ∃ position, s.delegations.find? (isPosition delegator validator) = some position ∧
          amount ≤ position.amount
  | .claim _ _ => False
  | .slash evidenceId validator penaltyBps =>
      (1 ≤ penaltyBps ∧ penaltyBps ≤ Staking.doubleVoteSlashBps) ∧
        evidenceId ∉ s.appliedSlashes ∧ u128Max < (s.cuts validator penaltyBps).sum

/-- What it means that a failed call has not touched the state. -/
def FailsUnchanged (s : StakingState) (call : Call) : Prop :=
  ∀ e, (s.callInPlace call).2 = .error e → (s.callInPlace call).1 = s

end StakingState

/-! ## The loops of a slash -/

namespace Staking

section
variable {α : Type} {hit : α → Bool} {amount : α → ℕ} {lower : ℕ → α → α} {penaltyBps : ℕ}

theorem slashCut_le (hbps : penaltyBps ≤ doubleVoteSlashBps) (held : ℕ) :
    StakingState.slashCut penaltyBps held ≤ held := by
  rcases Nat.eq_zero_or_pos held with rfl | hpos
  · simp [StakingState.slashCut, saturatingMul]
  · exact (slashCut_lt hbps hpos).le

/-- No cut adds anything, by whatever measure of the elements. -/
theorem sum_cutLoop_le (weight : α → ℕ) (hweight : ∀ cut a, weight (lower cut a) ≤ weight a)
    (l : List α) (total : ℕ) :
    ((cutLoop hit amount lower penaltyBps l total).1.map weight).sum ≤ (l.map weight).sum := by
  induction l generalizing total with
  | nil => exact le_rfl
  | cons a rest ih =>
      simp only [cutLoop]
      split_ifs
      · cases checkedAdd u128Max total (StakingState.slashCut penaltyBps (amount a)) with
        | none =>
            simp only [List.map_cons, List.sum_cons]
            exact Nat.add_le_add_right (hweight _ a) _
        | some next =>
            simp only [List.map_cons, List.sum_cons]
            exact Nat.add_le_add (hweight _ a) (ih next)
      · simp only [List.map_cons, List.sum_cons]
        exact Nat.add_le_add_left (ih total) _

/-- The loop stops at a cut of more than nothing, and that cut has been made. -/
theorem sum_cutLoop_lt (hbps : penaltyBps ≤ doubleVoteSlashBps)
    (hlower : ∀ cut a, amount (lower cut a) = amount a - cut) {l : List α} {total : ℕ}
    (htotal : total ≤ u128Max) {e : String}
    (h : (cutLoop hit amount lower penaltyBps l total).2 = .error e) :
    ((cutLoop hit amount lower penaltyBps l total).1.map amount).sum < (l.map amount).sum := by
  have hle : ∀ cut a, amount (lower cut a) ≤ amount a := fun cut a =>
    (hlower cut a).le.trans (Nat.sub_le _ _)
  induction l generalizing total with
  | nil => cases h
  | cons a rest ih =>
      simp only [cutLoop] at h ⊢
      split_ifs at h ⊢
      · cases hsum : checkedAdd u128Max total (StakingState.slashCut penaltyBps (amount a)) with
        | none =>
            have hcut := slashCut_le hbps (amount a)
            have hover : u128Max < total + StakingState.slashCut penaltyBps (amount a) := by
              by_contra hfits
              cases hsum.symm.trans (checkedAdd_eq_some.2 ⟨rfl, not_lt.1 hfits⟩)
            simp only [List.map_cons, List.sum_cons, hlower]
            omega
        | some next =>
            rw [hsum] at h
            have hrest := ih (checkedAdd_eq_some.1 hsum).2 h
            simp only [List.map_cons, List.sum_cons]
            exact Nat.add_lt_add_of_le_of_lt (hle _ a) hrest
      · have hrest := ih htotal h
        simp only [List.map_cons, List.sum_cons]
        omega

end

end Staking

namespace StakingState

variable {s : StakingState}

/-! ## Each call -/

/-- A delegation fails without a trace, adds to its position, or opens one. -/
theorem delegateAtInPlace_cases (s : StakingState) (delegator validator : Address)
    (amount delegatedAt : ℕ) :
    (∃ e, s.delegateAtInPlace delegator validator amount delegatedAt = (s, .error e)) ∨
    (∃ position, s.delegations.find? (isPosition delegator validator) = some position ∧
      s.delegateAtInPlace delegator validator amount delegatedAt =
        (sort { s with
          delegations := updateFirst (isPosition delegator validator)
            (fun p => { p with
              amount := position.amount + amount, delegatedAt := max p.delegatedAt delegatedAt })
            s.delegations }, .ok ())) ∨
    s.delegateAtInPlace delegator validator amount delegatedAt =
      (sort { s with
        delegations := s.delegations ++ [{ delegator, validator, amount, delegatedAt }] },
        .ok ()) := by
  unfold delegateAtInPlace
  cases RawTransaction.validateValidator validator with
  | error e => exact .inl ⟨e, rfl⟩
  | ok u =>
      dsimp only
      split_ifs
      · exact .inl ⟨_, rfl⟩
      · exact .inl ⟨_, rfl⟩
      · cases s.delegations.find? (isPosition delegator validator) with
        | none => exact .inr (.inr rfl)
        | some position =>
            dsimp only
            cases hsum : checkedAdd u128Max position.amount amount with
            | none => exact .inl ⟨_, rfl⟩
            | some raised =>
                obtain ⟨rfl, -⟩ := checkedAdd_eq_some.1 hsum
                exact .inr (.inl ⟨position, rfl, rfl⟩)

theorem delegateAt_unchanged {delegator validator : Address} {amount delegatedAt : ℕ} {e : String}
    (h : (s.delegateAtInPlace delegator validator amount delegatedAt).2 = .error e) :
    (s.delegateAtInPlace delegator validator amount delegatedAt).1 = s := by
  rcases s.delegateAtInPlace_cases delegator validator amount delegatedAt with
    ⟨e', heq⟩ | ⟨position, -, heq⟩ | heq
  · rw [heq]
  · rw [heq] at h
    cases h
  · rw [heq] at h
    cases h

theorem claim_unchanged {delegator : Address} {blockTimestamp : ℕ} {e : String}
    (h : (s.claimInPlace delegator blockTimestamp).2 = .error e) :
    (s.claimInPlace delegator blockTimestamp).1 = s := by
  unfold claimInPlace at h ⊢
  generalize checkedSum u128Max
    ((s.unbonding.filter (isDue delegator blockTimestamp)).map UnbondingEntry.amount) = sum at h ⊢
  cases sum with
  | none => rfl
  | some amount =>
      dsimp only at h ⊢
      split_ifs at h ⊢
      rfl

/-- Lowering a position takes something away. -/
theorem lowerPosition_ne {delegator validator : Address} {amount : ℕ}
    {position : DelegationPosition}
    (hfind : s.delegations.find? (isPosition delegator validator) = some position)
    (hne : amount ≠ 0) (hle : amount ≤ position.amount) :
    s.lowerPosition delegator validator amount ≠ s := by
  have hsum := sum_updateFirst (fun p => { p with amount := p.amount - amount })
    DelegationPosition.amount hfind
  have htotal : (s.lowerPosition delegator validator amount).delegatedTotal < s.delegatedTotal := by
    simp only [delegatedTotal, lowerPosition, sum_map_filter_pos]
    dsimp only at hsum
    omega
  intro heq
  rw [heq] at htotal
  exact htotal.false

theorem undelegateInPlace_overflow {delegator validator : Address} {amount blockTimestamp : ℕ}
    (h : s.Overflows (.undelegate delegator validator amount blockTimestamp)) :
    s.undelegateInPlace delegator validator amount blockTimestamp =
      (s.lowerPosition delegator validator amount, .error "해제 시각이 범위를 넘습니다.") := by
  obtain ⟨hne, hlate, position, hfind, hle⟩ := h
  have hnone : checkedAdd u64Max blockTimestamp Staking.unbondingSeconds = none :=
    if_neg (not_le.2 hlate)
  rw [undelegateInPlace, if_neg hne, hfind]
  dsimp only
  rw [if_neg (not_lt.2 hle), hnone]

theorem undelegate_unchanged {delegator validator : Address} {amount blockTimestamp : ℕ}
    (hfits : ¬s.Overflows (.undelegate delegator validator amount blockTimestamp)) {e : String}
    (h : (s.undelegateInPlace delegator validator amount blockTimestamp).2 = .error e) :
    (s.undelegateInPlace delegator validator amount blockTimestamp).1 = s := by
  unfold undelegateInPlace at h ⊢
  split_ifs at h ⊢ with hzero
  · rfl
  · cases hfind : s.delegations.find? (isPosition delegator validator) with
    | none => rfl
    | some position =>
        rw [hfind] at h
        dsimp only at h ⊢
        split_ifs at h ⊢ with hlow
        · rfl
        · cases hsum : checkedAdd u64Max blockTimestamp Staking.unbondingSeconds with
          | none =>
              have hlate : u64Max < blockTimestamp + Staking.unbondingSeconds := by
                by_contra hle
                cases hsum.symm.trans (checkedAdd_eq_some.2 ⟨rfl, not_lt.1 hle⟩)
              exact absurd ⟨hzero, hlate, position, hfind, not_lt.1 hlow⟩ hfits
          | some releaseAt =>
              rw [hsum] at h
              cases h

theorem slashInPlace_refused {evidenceId validator : String} {penaltyBps : ℕ}
    (h : ¬((1 ≤ penaltyBps ∧ penaltyBps ≤ Staking.doubleVoteSlashBps) ∧
      evidenceId ∉ s.appliedSlashes)) : (s.slashInPlace evidenceId validator penaltyBps).1 = s := by
  unfold slashInPlace
  split_ifs with hbps hknown
  · rfl
  · exact absurd ⟨hbps, hknown⟩ h
  · rfl

/-- A penalty that is checked and fails has cut something. -/
theorem slashInPlace_ne {evidenceId validator : String} {penaltyBps : ℕ} {e : String}
    (hbps : 1 ≤ penaltyBps ∧ penaltyBps ≤ Staking.doubleVoteSlashBps)
    (hknown : evidenceId ∉ s.appliedSlashes)
    (h : (s.slashInPlace evidenceId validator penaltyBps).2 = .error e) :
    (s.slashInPlace evidenceId validator penaltyBps).1 ≠ s := by
  rw [slashInPlace, if_neg (not_not.2 hbps), if_neg hknown] at h ⊢
  cases hfirst : Staking.cutLoop (fun p : DelegationPosition => decide (p.validator = validator))
      (·.amount) DelegationPosition.lower penaltyBps s.delegations 0 with
  | mk delegations outcome =>
      rw [hfirst] at h
      cases outcome with
      | error e' =>
          have hless := Staking.sum_cutLoop_lt hbps.2 (fun _ _ => rfl) (Nat.zero_le u128Max)
            (congrArg Prod.snd hfirst)
          rw [hfirst] at hless
          intro heq
          have hdelegations : delegations = s.delegations := congrArg StakingState.delegations heq
          rw [hdelegations] at hless
          exact hless.false
      | ok delegated =>
          have hfits := ((Staking.cutLoop_eq_ok _ (Nat.zero_le u128Max)).1 hfirst).2.2
          dsimp only at h ⊢
          cases hsecond : Staking.cutLoop (fun e : UnbondingEntry => decide (e.validator = validator))
              (·.amount) UnbondingEntry.lower penaltyBps s.unbonding delegated with
          | mk unbonding outcome =>
              rw [hsecond] at h
              cases outcome with
              | error e' =>
                  have hless := Staking.sum_cutLoop_lt hbps.2 (fun _ _ => rfl) hfits
                    (congrArg Prod.snd hsecond)
                  rw [hsecond] at hless
                  intro heq
                  have hunbonding : unbonding = s.unbonding := congrArg StakingState.unbonding heq
                  rw [hunbonding] at hless
                  exact hless.false
              | ok total => cases h

/-- A penalty that passes its checks fails exactly if its cuts do not fit. -/
theorem slashInPlace_error_iff {evidenceId validator : String} {penaltyBps : ℕ}
    (hbps : 1 ≤ penaltyBps ∧ penaltyBps ≤ Staking.doubleVoteSlashBps)
    (hknown : evidenceId ∉ s.appliedSlashes) :
    (∃ e, (s.slashInPlace evidenceId validator penaltyBps).2 = .error e) ↔
      u128Max < (s.cuts validator penaltyBps).sum := by
  cases hresult : s.slashInPlace evidenceId validator penaltyBps with
  | mk s' outcome =>
      cases outcome with
      | error e =>
          refine iff_of_true ⟨e, rfl⟩ ?_
          by_contra hfits
          have hslash : ∃ result, s.slash evidenceId validator penaltyBps = .ok result := by
            simp only [slash, bind_eq_ok, reject_eq_ok, okOr_eq_ok, checkedSum_eq_some, pure_eq_ok]
            exact ⟨_, (), not_not.2 hbps, (), hknown, _, ⟨rfl, not_lt.1 hfits⟩, rfl⟩
          obtain ⟨⟨s₁, total⟩, hslash⟩ := hslash
          cases hresult.symm.trans (slashInPlace_eq_ok.2 hslash)
      | ok total =>
          have hsucceeds : ¬∃ e, Except.ok total = (Except.error e : Except String ℕ) := by
            rintro ⟨e, he⟩
            cases he
          refine iff_of_false hsucceeds (not_lt.2 ?_)
          have hslash := slashInPlace_eq_ok.1 hresult
          simp only [slash, bind_eq_ok, reject_eq_ok, okOr_eq_ok, checkedSum_eq_some,
            pure_eq_ok] at hslash
          obtain ⟨-, -, -, -, _, ⟨hsum, hle⟩, -⟩ := hslash
          exact hsum.le.trans hle

/-! ## All calls -/

/-- A failed call leaves the state as it was exactly if no number overflowed behind its checks. -/
theorem failsUnchanged_iff (s : StakingState) (call : Call) :
    s.FailsUnchanged call ↔ ¬s.Overflows call := by
  cases call with
  | delegateAt delegator validator amount delegatedAt =>
      exact iff_of_true (fun e => delegateAt_unchanged) id
  | undelegate delegator validator amount blockTimestamp =>
      constructor
      · intro h hover
        have heq := undelegateInPlace_overflow hover
        obtain ⟨hne, -, position, hfind, hle⟩ := hover
        have hsame := h _ (withoutValue_error.2 (congrArg Prod.snd heq))
        rw [callInPlace, withoutValue, heq] at hsame
        exact lowerPosition_ne hfind hne hle hsame
      · intro hfits e he
        rw [callInPlace, withoutValue_error] at he
        rw [callInPlace, withoutValue]
        exact undelegate_unchanged hfits he
  | claim delegator blockTimestamp =>
      exact iff_of_true (fun e he => claim_unchanged (withoutValue_error.1 he)) id
  | slash evidenceId validator penaltyBps =>
      by_cases hchecks : (1 ≤ penaltyBps ∧ penaltyBps ≤ Staking.doubleVoteSlashBps) ∧
          evidenceId ∉ s.appliedSlashes
      · obtain ⟨hbps, hknown⟩ := hchecks
        rw [Overflows, and_iff_right hbps, and_iff_right hknown,
          ← slashInPlace_error_iff hbps hknown]
        constructor
        · rintro h ⟨e, he⟩
          exact slashInPlace_ne hbps hknown he (h e (withoutValue_error.2 he))
        · exact fun hnone e he => absurd ⟨e, withoutValue_error.1 he⟩ hnone
      · refine iff_of_true (fun e _ => slashInPlace_refused hchecks) fun hover => hchecks ?_
        exact ⟨hover.1, hover.2.1⟩

end StakingState

/-! ## The last seconds of the clock -/

namespace LateUndelegation

def state : StakingState :=
  { delegations := [{ delegator := "0xa", validator := "v", amount := 5, delegatedAt := 0 }]
    unbonding := [], appliedSlashes := [] }

/-- The position is lowered although the call returns an error. -/
theorem error_lowers_position :
    ∃ s', state.callInPlace (.undelegate "0xa" "v" 2 u64Max) =
        (s', .error "해제 시각이 범위를 넘습니다.") ∧ s' ≠ state := by
  have hover : state.Overflows (.undelegate "0xa" "v" 2 u64Max) :=
    ⟨by decide, Nat.lt_add_of_pos_right (by decide), _, rfl, by decide⟩
  refine ⟨state.lowerPosition "0xa" "v" 2, ?_,
    StakingState.lowerPosition_ne rfl (by decide) (by decide)⟩
  rw [StakingState.callInPlace, StakingState.undelegateInPlace_overflow hover]
  rfl

end LateUndelegation

end IeumChain
