import IeumChain.RawTransaction
import Mathlib.Data.List.Sort
import Mathlib.Data.String.Basic

/-!
# Delegations, unbonding and slashing

Positions and unbonding entries are kept in sorted lists. Every operation below
says what happens to the two totals: delegating adds, undelegating moves, claiming
removes what is due and slashing removes a share of every position of a validator.
The ledger works on copies and drops them on failure, so a failed operation has no
state.
-/
namespace IeumChain

open ByteCodec Text Outcome MachineWords

namespace Staking

def minimumDelegation : ℕ := 1000000000000000000
def unbondingSeconds : ℕ := 7 * 24 * 60 * 60
def doubleVoteSlashBps : ℕ := 500
def bpsDenominator : ℕ := 10000

end Staking

structure DelegationPosition where
  delegator : Address
  validator : Address
  amount : ℕ
  delegatedAt : ℕ
  deriving Repr, DecidableEq

structure UnbondingEntry where
  delegator : Address
  validator : Address
  amount : ℕ
  releaseAt : ℕ
  deriving Repr, DecidableEq

structure StakingState where
  delegations : List DelegationPosition
  unbonding : List UnbondingEntry
  appliedSlashes : List String
  deriving Repr, DecidableEq

def DelegationPosition.json (p : DelegationPosition) : Json :=
  jsonObject [("delegator", jsonString p.delegator), ("validator", jsonString p.validator),
    ("amount", jsonDecimal p.amount), ("delegated_at", jsonNumber p.delegatedAt)]

def UnbondingEntry.json (e : UnbondingEntry) : Json :=
  jsonObject [("delegator", jsonString e.delegator), ("validator", jsonString e.validator),
    ("amount", jsonDecimal e.amount), ("release_at", jsonNumber e.releaseAt)]

/-- Lexicographic order on pairs. -/
def pairLe {α β : Type} [LT α] [LE β] (a b : α × β) : Prop := a.1 < b.1 ∨ a.1 = b.1 ∧ a.2 ≤ b.2

instance {α β : Type} [LT α] [LE β] [DecidableEq α] [DecidableLT α] [DecidableLE β] :
    DecidableRel (pairLe (α := α) (β := β)) := fun a b =>
  inferInstanceAs (Decidable (a.1 < b.1 ∨ a.1 = b.1 ∧ a.2 ≤ b.2))

/-- Changes the first element that satisfies the predicate. -/
def updateFirst {α : Type} (p : α → Bool) (f : α → α) : List α → List α
  | [] => []
  | a :: rest => if p a then f a :: rest else a :: updateFirst p f rest

namespace StakingState

def empty : StakingState := { delegations := [], unbonding := [], appliedSlashes := [] }

def delegatedTotal (s : StakingState) : ℕ := (s.delegations.map DelegationPosition.amount).sum
def unbondingTotal (s : StakingState) : ℕ := (s.unbonding.map UnbondingEntry.amount).sum

def isPosition (delegator validator : Address) (p : DelegationPosition) : Bool :=
  p.delegator = delegator ∧ p.validator = validator

def delegatedTo (s : StakingState) (delegator validator : Address) : ℕ :=
  ((s.delegations.find? (isPosition delegator validator)).map (·.amount)).getD 0

def matureDelegatedBy (s : StakingState) (delegator : Address)
    (timestamp maturitySeconds : ℕ) : ℕ :=
  (s.delegations.filter fun p => p.delegator = delegator ∧
      saturatingAdd u64Max p.delegatedAt maturitySeconds ≤ timestamp).foldl
    (fun sum p => saturatingAdd u128Max sum p.amount) 0

def sort (s : StakingState) : StakingState :=
  { s with
    delegations := s.delegations.insertionSort fun a b =>
      pairLe (a.delegator, a.validator) (b.delegator, b.validator)
    unbonding := s.unbonding.insertionSort fun a b =>
      a.releaseAt < b.releaseAt ∨ a.releaseAt = b.releaseAt ∧
        pairLe (a.delegator, a.validator) (b.delegator, b.validator) }

/-- Adds to the position of the pair, or opens one. -/
def delegateAt (s : StakingState) (delegator validator : Address) (amount delegatedAt : ℕ) :
    Except String StakingState := do
  RawTransaction.validateValidator validator
  reject (amount < Staking.minimumDelegation) "최소 위임 수량은 1 IEUM입니다."
  reject (delegator = validator) "자기 자신에게는 위임할 수 없습니다."
  match s.delegations.find? (isPosition delegator validator) with
  | some position => do
      let raised ← okOr (checkedAdd u128Max position.amount amount)
        "위임액이 u128 범위를 넘습니다."
      pure (sort { s with
        delegations := updateFirst (isPosition delegator validator)
          (fun p => { p with amount := raised, delegatedAt := max p.delegatedAt delegatedAt })
          s.delegations })
  | none =>
      pure (sort { s with
        delegations := s.delegations ++ [{ delegator, validator, amount, delegatedAt }] })

/-- Moves an amount from a position to a new unbonding entry. -/
def undelegate (s : StakingState) (delegator validator : Address)
    (amount blockTimestamp : ℕ) : Except String (StakingState × ℕ) := do
  reject (amount = 0) "해제 수량은 0보다 커야 합니다."
  let position ← okOr (s.delegations.find? (isPosition delegator validator))
    "해제할 위임이 없습니다."
  reject (position.amount < amount) "해제 수량이 위임 잔액보다 큽니다."
  let releaseAt ← okOr (checkedAdd u64Max blockTimestamp Staking.unbondingSeconds)
    "해제 시각이 범위를 넘습니다."
  pure (sort { s with
    delegations := (updateFirst (isPosition delegator validator)
      (fun p => { p with amount := p.amount - amount }) s.delegations).filter (0 < ·.amount)
    unbonding := s.unbonding ++ [{ delegator, validator, amount, releaseAt }] }, releaseAt)

def isDue (delegator : Address) (blockTimestamp : ℕ) (e : UnbondingEntry) : Bool :=
  e.delegator = delegator ∧ e.releaseAt ≤ blockTimestamp

/-- Removes every due entry of a delegator and returns their sum. -/
def claim (s : StakingState) (delegator : Address) (blockTimestamp : ℕ) :
    Except String (StakingState × ℕ) := do
  let amount ← okOr
    (checkedSum u128Max
      ((s.unbonding.filter (isDue delegator blockTimestamp)).map UnbondingEntry.amount))
    "청구액이 u128 범위를 넘습니다."
  reject (amount = 0) "아직 청구할 수 있는 해제 잔액이 없습니다."
  pure ({ s with unbonding := s.unbonding.filter fun e => !isDue delegator blockTimestamp e },
    amount)

/-- The share of an amount that a penalty takes. -/
def slashCut (penaltyBps amount : ℕ) : ℕ :=
  saturatingMul u128Max amount penaltyBps / Staking.bpsDenominator

/-- Cuts every position and unbonding entry of a validator once per evidence identifier. -/
def slash (s : StakingState) (evidenceId validator : String) (penaltyBps : ℕ) :
    Except String (StakingState × ℕ) := do
  reject (¬(1 ≤ penaltyBps ∧ penaltyBps ≤ Staking.doubleVoteSlashBps))
    "허용되지 않은 페널티 비율입니다."
  reject (evidenceId ∈ s.appliedSlashes) "이미 적용한 이중투표 페널티입니다."
  let cuts := ((s.delegations.filter (·.validator = validator)).map
      fun p => slashCut penaltyBps p.amount) ++
    ((s.unbonding.filter (·.validator = validator)).map fun e => slashCut penaltyBps e.amount)
  let total ← okOr (checkedSum u128Max cuts) "페널티 합계가 넘습니다."
  pure ({
    delegations := (s.delegations.map fun p =>
      if p.validator = validator then { p with amount := p.amount - slashCut penaltyBps p.amount }
      else p).filter (0 < ·.amount)
    unbonding := (s.unbonding.map fun e =>
      if e.validator = validator then { e with amount := e.amount - slashCut penaltyBps e.amount }
      else e).filter (0 < ·.amount)
    appliedSlashes := (s.appliedSlashes ++ [evidenceId]).insertionSort (· ≤ ·) }, total)

def stateBytes (s : StakingState) : Bytes :=
  utf8 (String.ofList (jsonObject
    [("delegations", jsonArray (s.delegations.map DelegationPosition.json)),
      ("unbonding", jsonArray (s.unbonding.map UnbondingEntry.json)),
      ("applied_slashes", jsonArray (s.appliedSlashes.map jsonString))]))

end StakingState

/-! ## Totals -/

theorem sum_map_insertionSort {α : Type} (r : α → α → Prop) [DecidableRel r] (g : α → ℕ)
    (l : List α) : ((l.insertionSort r).map g).sum = (l.map g).sum :=
  ((List.perm_insertionSort r l).map g).sum_eq

theorem sum_map_filter_pos {α : Type} (g : α → ℕ) (l : List α) :
    ((l.filter (0 < g ·)).map g).sum = (l.map g).sum := by
  induction l with
  | nil => rfl
  | cons a l ih =>
      by_cases h : 0 < g a
      · simp [h, ih]
      · have h0 : g a = 0 := by omega
        simp [h0, ih]

theorem sum_map_filter_not {α : Type} (p : α → Bool) (g : α → ℕ) (l : List α) :
    ((l.filter fun a => !p a).map g).sum + ((l.filter p).map g).sum = (l.map g).sum := by
  induction l with
  | nil => rfl
  | cons a l ih =>
      cases h : p a <;> simp [h] <;> omega

theorem sum_updateFirst {α : Type} {p : α → Bool} {l : List α} {a : α} (f : α → α) (g : α → ℕ)
    (h : l.find? p = some a) :
    ((updateFirst p f l).map g).sum + g a = (l.map g).sum + g (f a) := by
  induction l with
  | nil => simp at h
  | cons b l ih =>
      rw [List.find?_cons] at h
      cases hb : p b with
      | true =>
          simp only [hb] at h
          cases h
          simp only [updateFirst, hb, if_true, List.map_cons, List.sum_cons]
          omega
      | false =>
          simp only [hb] at h
          have := ih h
          simp only [updateFirst, hb, Bool.false_eq_true, if_false, List.map_cons, List.sum_cons]
          omega

namespace StakingState

variable {s s' : StakingState}

@[simp] theorem delegatedTotal_sort (s : StakingState) :
    s.sort.delegatedTotal = s.delegatedTotal := sum_map_insertionSort ..

@[simp] theorem unbondingTotal_sort (s : StakingState) :
    s.sort.unbondingTotal = s.unbondingTotal := sum_map_insertionSort ..

/-- Delegating adds exactly the amount. -/
theorem delegateAt_total {delegator validator : Address} {amount delegatedAt : ℕ}
    (h : s.delegateAt delegator validator amount delegatedAt = .ok s') :
    s'.delegatedTotal = s.delegatedTotal + amount ∧ s'.unbondingTotal = s.unbondingTotal := by
  simp only [delegateAt, check_bind_eq_ok] at h
  obtain ⟨-, -, -, h⟩ := h
  split at h
  case h_1 position hfind =>
    simp only [bind_eq_ok, okOr_eq_ok, checkedAdd_eq_some, pure_eq_ok] at h
    obtain ⟨raised, ⟨hraised, -⟩, rfl⟩ := h
    have hsum := sum_updateFirst
      (fun p => { p with amount := raised, delegatedAt := max p.delegatedAt delegatedAt })
      DelegationPosition.amount hfind
    simp only [delegatedTotal_sort, unbondingTotal_sort]
    simp only [delegatedTotal, unbondingTotal]
    dsimp only at hsum ⊢
    refine ⟨?_, trivial⟩
    omega
  case h_2 hfind =>
    simp only [pure_eq_ok] at h
    subst h
    rw [delegatedTotal_sort, unbondingTotal_sort]
    simp [delegatedTotal, unbondingTotal]

/-- Undelegating moves exactly the amount. -/
theorem undelegate_total {delegator validator : Address} {amount blockTimestamp releaseAt : ℕ}
    (h : s.undelegate delegator validator amount blockTimestamp = .ok (s', releaseAt)) :
    s'.delegatedTotal + amount = s.delegatedTotal ∧
      s'.unbondingTotal = s.unbondingTotal + amount := by
  simp only [undelegate, check_bind_eq_ok] at h
  obtain ⟨-, h⟩ := h
  simp only [bind_eq_ok, okOr_eq_ok, reject_eq_ok, pure_eq_ok, Prod.mk.injEq, not_lt] at h
  obtain ⟨position, hfind, -, hle, -, -, rfl, -⟩ := h
  have hsum := sum_updateFirst (fun p => { p with amount := p.amount - amount })
    DelegationPosition.amount hfind
  dsimp only at hsum
  simp only [delegatedTotal_sort, unbondingTotal_sort]
  simp only [delegatedTotal, unbondingTotal, sum_map_filter_pos, List.map_append, List.sum_append,
    List.map_cons, List.map_nil, List.sum_cons, List.sum_nil]
  omega

/-- Claiming removes exactly what it returns. -/
theorem claim_total {delegator : Address} {blockTimestamp amount : ℕ}
    (h : s.claim delegator blockTimestamp = .ok (s', amount)) :
    s'.delegatedTotal = s.delegatedTotal ∧ s'.unbondingTotal + amount = s.unbondingTotal := by
  simp only [claim, bind_eq_ok, okOr_eq_ok, checkedSum_eq_some, reject_eq_ok, pure_eq_ok,
    Prod.mk.injEq] at h
  obtain ⟨due, ⟨hdue, -⟩, -, -, rfl, rfl⟩ := h
  refine ⟨rfl, ?_⟩
  rw [← hdue]
  exact sum_map_filter_not _ _ _

theorem slashCut_le {penaltyBps : ℕ} (amount : ℕ) (h : penaltyBps ≤ Staking.doubleVoteSlashBps) :
    slashCut penaltyBps amount ≤ amount := by
  apply saturatingMul_div_le
  have : Staking.doubleVoteSlashBps ≤ Staking.bpsDenominator := by decide
  omega

/-- What a penalty leaves in a list and what it takes add up to the list. -/
theorem sum_slashed {α : Type} (g : α → ℕ) (cut : ℕ → ℕ) (hit : α → Bool) (lower : α → α)
    (l : List α) (hcut : ∀ n, cut n ≤ n) (hlower : ∀ a, g (lower a) = g a - cut (g a)) :
    (((l.map fun a => if hit a then lower a else a).filter (0 < g ·)).map g).sum +
      ((l.filter hit).map fun a => cut (g a)).sum = (l.map g).sum := by
  rw [sum_map_filter_pos]
  induction l with
  | nil => rfl
  | cons a l ih =>
      have ha := hcut (g a)
      cases h : hit a
      · simp only [List.map_cons, List.sum_cons, h, Bool.false_eq_true, if_false,
          List.filter_cons] at ih ⊢
        omega
      · simp only [List.map_cons, List.sum_cons, h, if_true, List.filter_cons, hlower] at ih ⊢
        omega

/-- Slashing removes exactly what it returns. -/
theorem slash_total {evidenceId validator : String} {penaltyBps total : ℕ}
    (h : s.slash evidenceId validator penaltyBps = .ok (s', total)) :
    s'.delegatedTotal + s'.unbondingTotal + total = s.delegatedTotal + s.unbondingTotal := by
  simp only [slash, check_bind_eq_ok, reject_eq_ok, not_not] at h
  obtain ⟨hbps, -, h⟩ := h
  simp only [bind_eq_ok, okOr_eq_ok, checkedSum_eq_some, pure_eq_ok, Prod.mk.injEq] at h
  obtain ⟨_, ⟨hsum, -⟩, rfl, rfl⟩ := h
  have hcut : ∀ n, slashCut penaltyBps n ≤ n := fun n => slashCut_le n hbps.2
  have hd := sum_slashed DelegationPosition.amount (slashCut penaltyBps)
    (·.validator = validator)
    (fun p => { p with amount := p.amount - slashCut penaltyBps p.amount })
    s.delegations hcut fun _ => rfl
  have hu := sum_slashed UnbondingEntry.amount (slashCut penaltyBps) (·.validator = validator)
    (fun e => { e with amount := e.amount - slashCut penaltyBps e.amount })
    s.unbonding hcut fun _ => rfl
  simp only [decide_eq_true_eq] at hd hu
  rw [List.sum_append] at hsum
  simp only [delegatedTotal, unbondingTotal]
  omega

end StakingState

/-- The identifier hashes the evidence as serialized, the order of its two votes included. -/
def slashEventId [Crypto] (evidence : DoubleVoteEvidence) : String :=
  "ieum-slash-v1-" ++ sha256Hex (utf8 (String.ofList evidence.json))

end IeumChain
