import Mathlib.Algebra.BigOperators.Group.List.Basic
import Mathlib.Algebra.Order.Group.Defs
import Mathlib.Data.List.Induction
import Mathlib.Order.Lattice
import Mathlib.Tactic.Common

/-!
# Sums that do not fall below zero

An account that is credited and debited, and stays at zero when a debit exceeds it. It holds
the largest sum over the latest entries, where the latest none count as zero.
-/
namespace ClampedSums

variable {α : Type} [AddCommGroup α] [LinearOrder α]

def clamped (xs : List α) : α := xs.foldl (fun s x => max 0 (s + x)) 0

theorem clamped_concat (xs : List α) (x : α) : clamped (xs ++ [x]) = max 0 (clamped xs + x) := by
  rw [clamped, List.foldl_concat, ← clamped]

theorem clamped_nonneg (xs : List α) : 0 ≤ clamped xs := by
  induction xs using List.reverseRecOn with
  | nil => exact le_rfl
  | append_singleton xs x _ =>
      rw [clamped_concat]
      exact le_max_left _ _

/-- What is on the account has been gained in one stretch up to now. -/
theorem exists_suffix_sum (xs : List α) : ∃ w, w <:+ xs ∧ w.sum = clamped xs := by
  induction xs using List.reverseRecOn with
  | nil => exact ⟨[], List.suffix_rfl, rfl⟩
  | append_singleton xs x ih =>
      rw [clamped_concat]
      rcases max_choice 0 (clamped xs + x) with hzero | hsum
      · exact ⟨[], List.nil_suffix, hzero.symm⟩
      · obtain ⟨w, ⟨before, rfl⟩, hw⟩ := ih
        refine ⟨w ++ [x], ⟨before, by rw [List.append_assoc]⟩, ?_⟩
        rw [hsum, List.sum_append, List.sum_singleton, hw]

end ClampedSums
