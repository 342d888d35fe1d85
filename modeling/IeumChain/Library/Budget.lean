import Mathlib.Algebra.BigOperators.Group.List.Basic
import Mathlib.Algebra.GroupWithZero.Nat
import Mathlib.Order.MinMax

/-!
# Paying shares out of a budget

Shares are paid in order, each in full or with what is left. Nothing is paid for a share
of zero or once the budget is spent. So those who are paid are exactly those with a share
whose predecessors have not used up the budget.
-/
namespace Budget

variable {α : Type}

def pay : ℕ → List (α × ℕ) → List (α × ℕ)
  | _, [] => []
  | remaining, (a, share) :: rest =>
      let amount := min share remaining
      if 0 < amount then (a, amount) :: pay (remaining - amount) rest else pay remaining rest

/-- There is a share, and its turn comes before the budget is spent. -/
def Funded (budget : ℕ) (shares : List (α × ℕ)) (a : α) : Prop :=
  ∃ before share after, shares = before ++ (a, share) :: after ∧ 0 < share ∧
    (before.map Prod.snd).sum < budget

theorem pay_zero (shares : List (α × ℕ)) : pay 0 shares = [] := by
  induction shares with
  | nil => rfl
  | cons s rest ih => simp [pay, ih]

theorem pos_of_mem_pay {budget : ℕ} {shares : List (α × ℕ)} {p : α × ℕ}
    (h : p ∈ pay budget shares) : 0 < p.2 := by
  induction shares generalizing budget with
  | nil => cases h
  | cons s rest ih =>
      simp only [pay] at h
      split_ifs at h with hpos
      · rcases List.mem_cons.1 h with rfl | h
        · exact hpos
        · exact ih h
      · exact ih h

theorem sum_pay_le (budget : ℕ) (shares : List (α × ℕ)) :
    ((pay budget shares).map Prod.snd).sum ≤ budget := by
  induction shares generalizing budget with
  | nil => exact Nat.zero_le _
  | cons s rest ih =>
      simp only [pay]
      split_ifs with hpos
      · have hrest := ih (budget - min s.2 budget)
        have hle := min_le_right s.2 budget
        simp only [List.map_cons, List.sum_cons]
        omega
      · exact ih budget

/-- Every payment is a share, cut to what the payments before it have left. -/
theorem mem_of_pay_eq {budget amount : ℕ} {shares before after : List (α × ℕ)} {a : α}
    (h : pay budget shares = before ++ (a, amount) :: after) :
    ∃ share, (a, share) ∈ shares ∧ amount = min share (budget - (before.map Prod.snd).sum) := by
  induction shares generalizing budget before with
  | nil => cases before <;> cases h
  | cons s rest ih =>
      simp only [pay] at h
      split_ifs at h with hpos
      · cases before with
        | nil =>
            cases h
            exact ⟨s.2, List.mem_cons_self .., rfl⟩
        | cons first before =>
            rw [List.cons_append, List.cons.injEq] at h
            obtain ⟨rfl, hrest⟩ := h
            obtain ⟨share, hmem, hamount⟩ := ih hrest
            rw [Nat.sub_sub] at hamount
            exact ⟨share, List.mem_cons_of_mem _ hmem, hamount⟩
      · obtain ⟨share, hmem, hamount⟩ := ih h
        exact ⟨share, List.mem_cons_of_mem _ hmem, hamount⟩

theorem not_funded_nil (budget : ℕ) (a : α) : ¬Funded budget [] a := by
  intro ⟨before, share, after, h, _⟩
  cases before <;> cases h

theorem funded_cons {budget share : ℕ} {a b : α} {rest : List (α × ℕ)} :
    Funded budget ((a, share) :: rest) b ↔
      (b = a ∧ 0 < share ∧ 0 < budget) ∨ share < budget ∧ Funded (budget - share) rest b := by
  constructor
  · rintro ⟨before, share', after, heq, hpos, hsum⟩
    cases before with
    | nil =>
        cases heq
        exact .inl ⟨rfl, hpos, hsum⟩
    | cons first before =>
        cases heq
        simp only [List.map_cons, List.sum_cons] at hsum
        exact .inr ⟨by omega, before, share', after, rfl, hpos, by omega⟩
  · rintro (⟨rfl, hpos, hbudget⟩ | ⟨hlt, before, share', after, rfl, hpos, hsum⟩)
    · exact ⟨[], share, rest, rfl, hpos, hbudget⟩
    · refine ⟨(a, share) :: before, share', after, rfl, hpos, ?_⟩
      simp only [List.map_cons, List.sum_cons]
      omega

/-- Those who are paid. -/
theorem exists_mem_pay_iff {budget : ℕ} {shares : List (α × ℕ)} {a : α} :
    (∃ amount, (a, amount) ∈ pay budget shares) ↔ Funded budget shares a := by
  induction shares generalizing budget with
  | nil => simp [pay, not_funded_nil]
  | cons s rest ih =>
      obtain ⟨b, share⟩ := s
      rw [funded_cons, ← ih]
      simp only [pay]
      split_ifs with hpos
      · have hboth : 0 < share ∧ 0 < budget := lt_min_iff.1 hpos
        have hrest : (∃ amount, (a, amount) ∈ pay (budget - min share budget) rest) ↔
            share < budget ∧ ∃ amount, (a, amount) ∈ pay (budget - share) rest := by
          by_cases hlt : share < budget
          · rw [min_eq_left hlt.le]
            simp [hlt]
          · rw [min_eq_right (not_lt.1 hlt), Nat.sub_self, pay_zero]
            simp [hlt]
        rw [← hrest]
        constructor
        · rintro ⟨amount, hmem⟩
          rcases List.mem_cons.1 hmem with heq | hmem
          · exact .inl ⟨congrArg Prod.fst heq, hboth⟩
          · exact .inr ⟨amount, hmem⟩
        · rintro (⟨rfl, -⟩ | ⟨amount, hmem⟩)
          · exact ⟨_, List.mem_cons_self ..⟩
          · exact ⟨amount, List.mem_cons_of_mem _ hmem⟩
      · have hnone : share = 0 ∨ budget = 0 := by
          rw [lt_min_iff] at hpos
          omega
        rcases hnone with rfl | rfl
        · rcases Nat.eq_zero_or_pos budget with rfl | hbudget
          · simp [pay_zero]
          · simp [hbudget]
        · simp [pay_zero]

end Budget
