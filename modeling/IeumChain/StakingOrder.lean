import IeumChain.LedgerKeys
import IeumChain.Library.KeyedLists
import Mathlib.Data.Prod.Lex

/-!
# The lists of the staking state

The state root hashes the staking lists in their order. Whatever sequence of calls a state has
seen, failed ones that stopped half way included, positions are strictly sorted by delegator and
validator, unbonding entries are sorted by release time, and nothing in them is zero.
-/
namespace IeumChain

open Text Outcome MachineWords KeyedLists

def DelegationPosition.key (p : DelegationPosition) : Address ×ₗ Address :=
  toLex (p.delegator, p.validator)

def UnbondingEntry.key (e : UnbondingEntry) : ℕ ×ₗ Address ×ₗ Address :=
  toLex (e.releaseAt, toLex (e.delegator, e.validator))

namespace Staking

/-- Cuts what belongs to one validator, element by element, until the sum does not fit. -/
def cutLoop {α : Type} (hit : α → Bool) (amount : α → ℕ) (lower : ℕ → α → α) (penaltyBps : ℕ) :
    List α → ℕ → List α × Except String ℕ
  | [], total => ([], .ok total)
  | a :: rest, total =>
      if hit a then
        let cut := StakingState.slashCut penaltyBps (amount a)
        match checkedAdd u128Max total cut with
        | none => (lower cut a :: rest, .error "페널티 합계가 넘습니다.")
        | some total =>
            let (rest, result) := cutLoop hit amount lower penaltyBps rest total
            (lower cut a :: rest, result)
      else
        let (rest, result) := cutLoop hit amount lower penaltyBps rest total
        (a :: rest, result)

end Staking

def DelegationPosition.lower (cut : ℕ) (p : DelegationPosition) : DelegationPosition :=
  { p with amount := p.amount - cut }

def UnbondingEntry.lower (cut : ℕ) (e : UnbondingEntry) : UnbondingEntry :=
  { e with amount := e.amount - cut }

namespace StakingState

/-- Takes an amount out of a position and drops the position if nothing is left. -/
def lowerPosition (s : StakingState) (delegator validator : Address) (amount : ℕ) :
    StakingState :=
  { s with
    delegations := (updateFirst (isPosition delegator validator)
      (fun p => { p with amount := p.amount - amount }) s.delegations).filter (0 < ·.amount) }

def openEntry (s : StakingState) (e : UnbondingEntry) : StakingState :=
  sort { s with unbonding := s.unbonding ++ [e] }

/-- The position is lowered before the release time is computed. -/
def undelegateInPlace (s : StakingState) (delegator validator : Address)
    (amount blockTimestamp : ℕ) : StakingState × Except String ℕ :=
  if amount = 0 then (s, .error "해제 수량은 0보다 커야 합니다.")
  else
    match s.delegations.find? (isPosition delegator validator) with
    | none => (s, .error "해제할 위임이 없습니다.")
    | some position =>
        if position.amount < amount then (s, .error "해제 수량이 위임 잔액보다 큽니다.")
        else
          match checkedAdd u64Max blockTimestamp Staking.unbondingSeconds with
          | none => (s.lowerPosition delegator validator amount, .error "해제 시각이 범위를 넘습니다.")
          | some releaseAt =>
              ((s.lowerPosition delegator validator amount).openEntry
                { delegator, validator, amount, releaseAt }, .ok releaseAt)

/-- A sum that does not fit ends the call with the cuts made so far. -/
def slashInPlace (s : StakingState) (evidenceId validator : String) (penaltyBps : ℕ) :
    StakingState × Except String ℕ :=
  if ¬(1 ≤ penaltyBps ∧ penaltyBps ≤ Staking.doubleVoteSlashBps) then
    (s, .error "허용되지 않은 페널티 비율입니다.")
  else if evidenceId ∈ s.appliedSlashes then (s, .error "이미 적용한 이중투표 페널티입니다.")
  else
    match Staking.cutLoop (·.validator = validator) (·.amount) DelegationPosition.lower penaltyBps
        s.delegations 0 with
    | (delegations, .error e) => ({ s with delegations }, .error e)
    | (delegations, .ok total) =>
        match Staking.cutLoop (·.validator = validator) (·.amount) UnbondingEntry.lower penaltyBps
            s.unbonding total with
        | (unbonding, .error e) => ({ s with delegations, unbonding }, .error e)
        | (unbonding, .ok total) =>
            ({ delegations := delegations.filter (0 < ·.amount)
               unbonding := unbonding.filter (0 < ·.amount)
               appliedSlashes := (s.appliedSlashes ++ [evidenceId]).insertionSort (· ≤ ·) },
              .ok total)

inductive Call
  | delegateAt (delegator validator : Address) (amount delegatedAt : ℕ)
  | undelegate (delegator validator : Address) (amount blockTimestamp : ℕ)
  | claim (delegator : Address) (blockTimestamp : ℕ)
  | slash (evidenceId validator : String) (penaltyBps : ℕ)

/-- The state after a call, whatever the call returned. -/
def perform (s : StakingState) : Call → StakingState
  | .delegateAt delegator validator amount delegatedAt =>
      match s.delegateAt delegator validator amount delegatedAt with
      | .error _ => s
      | .ok s => s
  | .undelegate delegator validator amount blockTimestamp =>
      (s.undelegateInPlace delegator validator amount blockTimestamp).1
  | .claim delegator blockTimestamp =>
      match s.claim delegator blockTimestamp with
      | .error _ => s
      | .ok (s, _) => s
  | .slash evidenceId validator penaltyBps => (s.slashInPlace evidenceId validator penaltyBps).1

end StakingState

/-! ## Sorted by a key -/

section
variable {α κ : Type} [LinearOrder κ]

theorem pairwise_lt_iff {l : List κ} :
    l.Pairwise (· < ·) ↔ l.Pairwise (· ≤ ·) ∧ l.Nodup := by
  rw [List.Nodup, ← List.pairwise_and_iff]
  exact ⟨List.Pairwise.imp fun h => ⟨h.le, h.ne⟩, List.Pairwise.imp fun h => h.1.lt_of_ne h.2⟩

end

theorem DelegationPosition.key_le (a b : DelegationPosition) :
    pairLe (a.delegator, a.validator) (b.delegator, b.validator) ↔ a.key ≤ b.key :=
  Prod.Lex.toLex_le_toLex.symm

theorem UnbondingEntry.key_le (a b : UnbondingEntry) :
    (a.releaseAt < b.releaseAt ∨ a.releaseAt = b.releaseAt ∧
      pairLe (a.delegator, a.validator) (b.delegator, b.validator)) ↔ a.key ≤ b.key := by
  rw [UnbondingEntry.key, UnbondingEntry.key, Prod.Lex.toLex_le_toLex, Prod.Lex.toLex_le_toLex]
  exact Iff.rfl

/-! ## Cuts -/

namespace Staking

theorem slashCut_lt {penaltyBps amount : ℕ} (hbps : penaltyBps ≤ doubleVoteSlashBps)
    (hpos : 0 < amount) : StakingState.slashCut penaltyBps amount < amount := by
  have hle : saturatingMul u128Max amount penaltyBps ≤ amount * 500 :=
    (min_le_left _ _).trans (Nat.mul_le_mul_left amount hbps)
  rw [StakingState.slashCut, Nat.div_lt_iff_lt_mul (by decide)]
  simp only [bpsDenominator]
  omega

section
variable {α : Type} {hit : α → Bool} {amount : α → ℕ} {lower : ℕ → α → α} {penaltyBps : ℕ}

variable (hit amount lower penaltyBps) in
theorem map_cutLoop {κ : Type} (key : α → κ) (hkey : ∀ cut a, key (lower cut a) = key a)
    (l : List α) (total : ℕ) :
    (cutLoop hit amount lower penaltyBps l total).1.map key = l.map key := by
  induction l generalizing total with
  | nil => rfl
  | cons a rest ih =>
      simp only [cutLoop]
      split_ifs
      · cases checkedAdd u128Max total (StakingState.slashCut penaltyBps (amount a)) with
        | none => simp [hkey]
        | some total => simp [hkey, ih]
      · simp [ih]

variable (hit lower) in
/-- A cut leaves something of everything. -/
theorem pos_of_mem_cutLoop (hbps : penaltyBps ≤ doubleVoteSlashBps)
    (hlower : ∀ cut a, amount (lower cut a) = amount a - cut) {l : List α}
    (hpos : ∀ a ∈ l, 0 < amount a) (total : ℕ) :
    ∀ a ∈ (cutLoop hit amount lower penaltyBps l total).1, 0 < amount a := by
  induction l generalizing total with
  | nil => exact hpos
  | cons a rest ih =>
      rw [List.forall_mem_cons] at hpos
      have hcut : 0 < amount (lower (StakingState.slashCut penaltyBps (amount a)) a) := by
        rw [hlower]
        exact Nat.sub_pos_of_lt (slashCut_lt hbps hpos.1)
      simp only [cutLoop]
      split_ifs
      · cases checkedAdd u128Max total (StakingState.slashCut penaltyBps (amount a)) with
        | none => exact List.forall_mem_cons.2 ⟨hcut, hpos.2⟩
        | some total => exact List.forall_mem_cons.2 ⟨hcut, ih hpos.2 total⟩
      · exact List.forall_mem_cons.2 ⟨hpos.1, ih hpos.2 total⟩

/-- What one element adds to the result of the loop over the others. -/
theorem cons_eq_ok {a : α} {result : List α × Except String ℕ} {l' : List α} {total : ℕ} :
    (a :: result.1, result.2) = (l', .ok total) ↔
      ∃ rest, l' = a :: rest ∧ result = (rest, .ok total) := by
  obtain ⟨rest, outcome⟩ := result
  simp only [Prod.mk.injEq]
  constructor
  · rintro ⟨rfl, rfl⟩
    exact ⟨rest, rfl, rfl, rfl⟩
  · rintro ⟨rest, rfl, rfl, rfl⟩
    exact ⟨rfl, rfl⟩

variable (lower) in
/-- The loop ends exactly when the sum of all cuts fits. -/
theorem cutLoop_eq_ok {l l' : List α} {total total' : ℕ} (hfits : total ≤ u128Max) :
    cutLoop hit amount lower penaltyBps l total = (l', .ok total') ↔
      l' = l.map (fun a =>
        if hit a then lower (StakingState.slashCut penaltyBps (amount a)) a else a) ∧
      total + ((l.filter hit).map fun a => StakingState.slashCut penaltyBps (amount a)).sum =
        total' ∧ total' ≤ u128Max := by
  induction l generalizing l' total with
  | nil =>
      simp only [cutLoop, Prod.mk.injEq, Except.ok.injEq, List.map_nil, List.filter_nil,
        List.sum_nil, Nat.add_zero]
      constructor
      · rintro ⟨rfl, rfl⟩
        exact ⟨rfl, rfl, hfits⟩
      · rintro ⟨rfl, rfl, -⟩
        exact ⟨rfl, rfl⟩
  | cons a rest ih =>
      simp only [cutLoop, List.map_cons, List.filter_cons]
      by_cases hhit : hit a = true
      · simp only [hhit, if_true, List.map_cons, List.sum_cons, ← Nat.add_assoc]
        cases hsum : checkedAdd u128Max total (StakingState.slashCut penaltyBps (amount a)) with
        | none =>
            constructor
            · intro h
              cases (Prod.mk.inj h).2
            · rintro ⟨-, rfl, hle⟩
              have hsome := checkedAdd_eq_some.2 ⟨rfl, (Nat.le_add_right _ _).trans hle⟩
              cases hsum.symm.trans hsome
        | some next =>
            obtain ⟨rfl, hle⟩ := checkedAdd_eq_some.1 hsum
            refine cons_eq_ok.trans ?_
            simp only [ih hle]
            constructor
            · rintro ⟨_, rfl, rfl, htotal⟩
              exact ⟨rfl, htotal⟩
            · rintro ⟨rfl, htotal⟩
              exact ⟨_, rfl, rfl, htotal⟩
      · simp only [hhit, Bool.false_eq_true, if_false]
        refine cons_eq_ok.trans ?_
        simp only [ih hfits]
        constructor
        · rintro ⟨_, rfl, rfl, htotal⟩
          exact ⟨rfl, htotal⟩
        · rintro ⟨rfl, htotal⟩
          exact ⟨_, rfl, rfl, htotal⟩

end

end Staking

namespace StakingState

variable {s s' : StakingState}

/-- A penalty that returns has been through both loops. -/
theorem slashInPlace_eq_ok_iff_loops {evidenceId validator : String} {penaltyBps total : ℕ} :
    s.slashInPlace evidenceId validator penaltyBps = (s', .ok total) ↔
      (1 ≤ penaltyBps ∧ penaltyBps ≤ Staking.doubleVoteSlashBps) ∧
      evidenceId ∉ s.appliedSlashes ∧ ∃ delegations delegated unbonding,
        Staking.cutLoop (·.validator = validator) (·.amount) DelegationPosition.lower penaltyBps
          s.delegations 0 = (delegations, .ok delegated) ∧
        Staking.cutLoop (·.validator = validator) (·.amount) UnbondingEntry.lower penaltyBps
          s.unbonding delegated = (unbonding, .ok total) ∧
        { delegations := delegations.filter (0 < ·.amount)
          unbonding := unbonding.filter (0 < ·.amount)
          appliedSlashes := (s.appliedSlashes ++ [evidenceId]).insertionSort (· ≤ ·) } = s' := by
  rw [slashInPlace]
  by_cases hbps : 1 ≤ penaltyBps ∧ penaltyBps ≤ Staking.doubleVoteSlashBps
  · by_cases hknown : evidenceId ∈ s.appliedSlashes
    · simp [hbps, hknown]
    · simp only [hbps, hknown, not_true, if_false, not_false_iff, true_and]
      generalize Staking.cutLoop (fun p : DelegationPosition => p.validator = validator) (·.amount)
        DelegationPosition.lower penaltyBps s.delegations 0 = first
      obtain ⟨delegations, outcome⟩ := first
      cases outcome with
      | error e => simp
      | ok delegated =>
          dsimp only
          cases hsecond : Staking.cutLoop (fun e : UnbondingEntry => e.validator = validator)
            (·.amount) UnbondingEntry.lower penaltyBps s.unbonding delegated with
          | mk unbonding outcome =>
              constructor
              · intro h
                cases outcome with
                | error e => cases (Prod.mk.inj h).2
                | ok total =>
                    obtain ⟨rfl, hsame⟩ := Prod.mk.inj h
                    cases hsame
                    exact ⟨delegations, delegated, unbonding, rfl, hsecond, rfl⟩
              · rintro ⟨_, _, unbonding, hfirst, hthen, rfl⟩
                cases hfirst
                cases hsecond.symm.trans hthen
                rfl
  · simp [hbps]

theorem slashInPlace_eq_ok {evidenceId validator : String} {penaltyBps total : ℕ} :
    s.slashInPlace evidenceId validator penaltyBps = (s', .ok total) ↔
      s.slash evidenceId validator penaltyBps = .ok (s', total) := by
  simp only [slashInPlace_eq_ok_iff_loops, slash, bind_eq_ok, reject_eq_ok, okOr_eq_ok,
    checkedSum_eq_some, pure_eq_ok, not_not, List.sum_append, Prod.mk.injEq]
  constructor
  · rintro ⟨hbps, hknown, delegations, delegated, unbonding, hfirst, hsecond, rfl⟩
    obtain ⟨rfl, hdelegated, hle⟩ := (Staking.cutLoop_eq_ok _ (Nat.zero_le _)).1 hfirst
    obtain ⟨rfl, htotal, hle'⟩ := (Staking.cutLoop_eq_ok _ hle).1 hsecond
    rw [← hdelegated, Nat.zero_add] at htotal
    simp only [decide_eq_true_eq]
    exact ⟨(), hbps, (), hknown, total, ⟨htotal, hle'⟩, rfl, rfl⟩
  · rintro ⟨-, hbps, -, hknown, _, ⟨hsum, hle⟩, rfl, rfl⟩
    have hdelegated := (Nat.le_add_right _ _).trans (hsum.le.trans hle)
    have hfirst := (Staking.cutLoop_eq_ok DelegationPosition.lower (Nat.zero_le _)).2
      ⟨rfl, Nat.zero_add _, hdelegated⟩
    have hsecond := (Staking.cutLoop_eq_ok UnbondingEntry.lower hdelegated).2 ⟨rfl, hsum, hle⟩
    refine ⟨hbps, hknown, _, _, _, hfirst, hsecond, ?_⟩
    simp only [decide_eq_true_eq]
    rfl

/-! ## The order of the lists -/

/-- Positions in strict order, unbonding entries in order, penalties in strict order, and no
zeros. -/
structure WellFormed (s : StakingState) : Prop where
  delegations : (s.delegations.map DelegationPosition.key).Pairwise (· < ·)
  delegated : ∀ p ∈ s.delegations, 0 < p.amount
  unbonding : (s.unbonding.map UnbondingEntry.key).Pairwise (· ≤ ·)
  waiting : ∀ e ∈ s.unbonding, 0 < e.amount
  appliedSlashes : s.appliedSlashes.Pairwise (· < ·)

theorem wellFormed_empty : empty.WellFormed :=
  ⟨.nil, fun _ => False.elim ∘ List.not_mem_nil, .nil, fun _ => False.elim ∘ List.not_mem_nil,
    .nil⟩

/-- Sorting puts the lists in order, whatever their order was. -/
theorem wellFormed_sort (hkeys : (s.delegations.map DelegationPosition.key).Nodup)
    (hdelegated : ∀ p ∈ s.delegations, 0 < p.amount) (hwaiting : ∀ e ∈ s.unbonding, 0 < e.amount)
    (hslashes : s.appliedSlashes.Pairwise (· < ·)) : s.sort.WellFormed where
  delegations := by
    refine pairwise_lt_iff.2
      ⟨pairwise_insertionSort_key DelegationPosition.key_le _, ?_⟩
    exact (((List.perm_insertionSort _ _).map _).nodup_iff).2 hkeys
  delegated p hp := hdelegated p ((List.mem_insertionSort _).1 hp)
  unbonding := pairwise_insertionSort_key UnbondingEntry.key_le _
  waiting e he := hwaiting e ((List.mem_insertionSort _).1 he)
  appliedSlashes := hslashes

theorem key_eq_iff {delegator validator : Address} {p : DelegationPosition} :
    p.key = toLex (delegator, validator) ↔ isPosition delegator validator p = true := by
  simp [DelegationPosition.key, isPosition]

/-- What a position becomes, or what it was. -/
theorem mem_updateFirst {α : Type} {p : α → Bool} {f : α → α} {a : α} {l : List α}
    (h : a ∈ updateFirst p f l) : a ∈ l ∨ ∃ b ∈ l, a = f b := by
  induction l with
  | nil => exact .inl h
  | cons b rest ih =>
      simp only [updateFirst] at h
      split_ifs at h
      · rcases List.mem_cons.1 h with rfl | h
        · exact .inr ⟨b, List.mem_cons_self, rfl⟩
        · exact .inl (List.mem_cons_of_mem _ h)
      · rcases List.mem_cons.1 h with rfl | h
        · exact .inl List.mem_cons_self
        · rcases ih h with h | ⟨c, hc, rfl⟩
          · exact .inl (List.mem_cons_of_mem _ h)
          · exact .inr ⟨c, List.mem_cons_of_mem _ hc, rfl⟩

theorem WellFormed.delegateAt (h : s.WellFormed) {delegator validator : Address}
    {amount delegatedAt : ℕ} (hok : s.delegateAt delegator validator amount delegatedAt = .ok s') :
    s'.WellFormed := by
  have hkeys := (pairwise_lt_iff.1 h.delegations).2
  simp only [StakingState.delegateAt, check_bind_eq_ok, reject_eq_ok, not_lt] at hok
  obtain ⟨-, hminimum, -, hok⟩ := hok
  have hpos : 0 < amount := lt_of_lt_of_le (by decide) hminimum
  split at hok
  case h_1 position hfind =>
    simp only [bind_eq_ok, okOr_eq_ok, checkedAdd_eq_some, pure_eq_ok] at hok
    obtain ⟨raised, ⟨hraised, -⟩, rfl⟩ := hok
    refine wellFormed_sort ?_ ?_ h.waiting h.appliedSlashes
    · have hsame := map_updateFirst (p := isPosition delegator validator)
        (f := fun p => { p with amount := raised, delegatedAt := max p.delegatedAt delegatedAt })
        (g := DelegationPosition.key) (fun _ => rfl) s.delegations
      exact hsame ▸ hkeys
    · intro p hp
      rcases mem_updateFirst hp with hp | ⟨q, -, rfl⟩
      · exact h.delegated p hp
      · exact hpos.trans_le (hraised ▸ Nat.le_add_left ..)
  case h_2 hfind =>
    simp only [pure_eq_ok] at hok
    subst hok
    refine wellFormed_sort ?_ ?_ h.waiting h.appliedSlashes
    · rw [List.map_append, List.map_singleton, ← List.concat_eq_append]
      refine hkeys.concat fun hmem => ?_
      obtain ⟨p, hp, hkey⟩ := List.mem_map.1 hmem
      exact List.find?_eq_none.1 hfind p hp (key_eq_iff.1 hkey)
    · intro p hp
      rcases List.mem_append.1 hp with hp | hp
      · exact h.delegated p hp
      · rw [List.mem_singleton.1 hp]
        exact hpos

theorem WellFormed.undelegateInPlace (h : s.WellFormed) (delegator validator : Address)
    (amount blockTimestamp : ℕ) :
    (s.undelegateInPlace delegator validator amount blockTimestamp).1.WellFormed := by
  let lowered := (updateFirst (isPosition delegator validator)
    (fun p => { p with amount := p.amount - amount }) s.delegations).filter (0 < ·.amount)
  have hsame := map_updateFirst (p := isPosition delegator validator)
    (f := fun p => { p with amount := p.amount - amount }) (g := DelegationPosition.key)
    (fun _ => rfl) s.delegations
  have hkeys : (lowered.map DelegationPosition.key).Pairwise (· < ·) :=
    (hsame ▸ h.delegations).sublist (List.filter_sublist.map _)
  have hpositive : ∀ p ∈ lowered, 0 < p.amount := fun p hp =>
    of_decide_eq_true (List.mem_filter.1 hp).2
  simp only [StakingState.undelegateInPlace]
  split_ifs with hzero
  · exact h
  · cases s.delegations.find? (isPosition delegator validator) with
    | none => exact h
    | some position =>
        dsimp only
        split_ifs
        · exact h
        · generalize checkedAdd u64Max blockTimestamp Staking.unbondingSeconds = result
          cases result with
          | none => exact { h with delegations := hkeys, delegated := hpositive }
          | some releaseAt =>
              refine wellFormed_sort (pairwise_lt_iff.1 hkeys).2 hpositive ?_ h.appliedSlashes
              intro e he
              rcases List.mem_append.1 he with he | he
              · exact h.waiting e he
              · rw [List.mem_singleton.1 he]
                exact Nat.pos_of_ne_zero hzero

theorem WellFormed.claim (h : s.WellFormed) {delegator : Address} {blockTimestamp amount : ℕ}
    (hok : s.claim delegator blockTimestamp = .ok (s', amount)) : s'.WellFormed := by
  simp only [StakingState.claim, bind_eq_ok, pure_eq_ok, Prod.mk.injEq] at hok
  obtain ⟨_, -, -, -, rfl, -⟩ := hok
  exact { h with
    unbonding := h.unbonding.sublist (List.filter_sublist.map _)
    waiting := fun e he => h.waiting e (List.mem_of_mem_filter he) }

theorem WellFormed.slashInPlace (h : s.WellFormed) (evidenceId validator : String)
    (penaltyBps : ℕ) : (s.slashInPlace evidenceId validator penaltyBps).1.WellFormed := by
  rw [StakingState.slashInPlace]
  split_ifs with hbps hknown
  · exact h
  · have hfirst := Staking.map_cutLoop (fun p => p.validator = validator)
      DelegationPosition.amount DelegationPosition.lower penaltyBps DelegationPosition.key (fun _ _ => rfl) s.delegations 0
    have hfirst' := Staking.pos_of_mem_cutLoop (fun p => p.validator = validator)
      DelegationPosition.lower hbps.2 (fun _ _ => rfl) h.delegated 0
    generalize Staking.cutLoop (fun p : DelegationPosition => p.validator = validator) (·.amount)
      DelegationPosition.lower penaltyBps s.delegations 0 = first at hfirst hfirst' ⊢
    obtain ⟨delegations, outcome⟩ := first
    have hkeys : (delegations.map DelegationPosition.key).Pairwise (· < ·) := hfirst ▸ h.delegations
    cases outcome with
    | error e => exact { h with delegations := hkeys, delegated := hfirst' }
    | ok delegated =>
        have hsecond := Staking.map_cutLoop (fun e => e.validator = validator)
          UnbondingEntry.amount UnbondingEntry.lower penaltyBps UnbondingEntry.key (fun _ _ => rfl) s.unbonding
          delegated
        have hsecond' := Staking.pos_of_mem_cutLoop (fun e => e.validator = validator)
          UnbondingEntry.lower hbps.2 (fun _ _ => rfl) h.waiting delegated
        dsimp only
        generalize Staking.cutLoop (fun e : UnbondingEntry => e.validator = validator) (·.amount)
          UnbondingEntry.lower penaltyBps s.unbonding delegated = second at hsecond hsecond' ⊢
        obtain ⟨unbonding, outcome⟩ := second
        have hkeys' : (unbonding.map UnbondingEntry.key).Pairwise (· ≤ ·) := hsecond ▸ h.unbonding
        cases outcome with
        | error e =>
            exact ⟨hkeys, hfirst', hkeys', hsecond', h.appliedSlashes⟩
        | ok total =>
            refine ⟨hkeys.sublist (List.filter_sublist.map _),
              fun p hp => hfirst' p (List.mem_of_mem_filter hp),
              hkeys'.sublist (List.filter_sublist.map _),
              fun e he => hsecond' e (List.mem_of_mem_filter he), pairwise_lt_iff.2 ⟨?_, ?_⟩⟩
            · exact List.pairwise_insertionSort _ _
            · rw [(List.perm_insertionSort _ _).nodup_iff, ← List.concat_eq_append]
              exact (pairwise_lt_iff.1 h.appliedSlashes).2.concat hknown
  · exact h

theorem WellFormed.perform (h : s.WellFormed) (call : Call) : (s.perform call).WellFormed := by
  cases call with
  | delegateAt delegator validator amount delegatedAt =>
      simp only [StakingState.perform]
      cases hok : s.delegateAt delegator validator amount delegatedAt with
      | error e => exact h
      | ok s' => exact h.delegateAt hok
  | undelegate delegator validator amount blockTimestamp =>
      exact h.undelegateInPlace delegator validator amount blockTimestamp
  | claim delegator blockTimestamp =>
      simp only [StakingState.perform]
      cases hok : s.claim delegator blockTimestamp with
      | error e => exact h
      | ok result => exact h.claim hok
  | slash evidenceId validator penaltyBps => exact h.slashInPlace evidenceId validator penaltyBps

/-- The state after a sequence of calls. -/
def performAll (s : StakingState) (calls : List Call) : StakingState := calls.foldl perform s

theorem WellFormed.performAll (h : s.WellFormed) (calls : List Call) :
    (s.performAll calls).WellFormed := by
  induction calls generalizing s with
  | nil => exact h
  | cons call calls ih => exact ih (h.perform call)

/-- After every sequence of calls the lists are in order, no pair has two positions, nothing is
zero, and a penalty returns exactly what it takes. -/
theorem representation (calls : List Call) :
    (empty.performAll calls).WellFormed ∧
      ((empty.performAll calls).delegations.map fun p => (p.delegator, p.validator)).Nodup ∧
      ∀ evidenceId validator penaltyBps s' total,
        (empty.performAll calls).slashInPlace evidenceId validator penaltyBps = (s', .ok total) →
          s'.delegatedTotal + s'.unbondingTotal + total =
            (empty.performAll calls).delegatedTotal + (empty.performAll calls).unbondingTotal := by
  have h := wellFormed_empty.performAll calls
  refine ⟨h, ?_, fun _ _ _ _ _ hslash => slash_total (slashInPlace_eq_ok.1 hslash)⟩
  have hkeys := (pairwise_lt_iff.1 h.delegations).2
  exact List.Nodup.of_map toLex (by rw [List.map_map]; exact hkeys)

end StakingState

end IeumChain
