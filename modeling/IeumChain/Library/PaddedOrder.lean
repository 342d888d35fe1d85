import Mathlib.Data.List.Lex
import Mathlib.Data.List.Basic
import Mathlib.Order.Lattice
import Mathlib.Tactic.Common

/-!
# Lists compared with padding

Two lists are filled up to a common length and compared in dictionary order. Filling them up
further changes nothing, so that this is a strict order on lists of all lengths.
-/
namespace PaddedOrder

variable {α : Type}

def padTo (zero : α) (n : ℕ) (l : List α) : List α := l ++ List.replicate (n - l.length) zero

theorem length_padTo (zero : α) {n : ℕ} {l : List α} (h : l.length ≤ n) :
    (padTo zero n l).length = n := by
  rw [padTo, List.length_append, List.length_replicate]
  omega

/-- Filling up in two steps. -/
theorem padTo_append (zero : α) {n m : ℕ} {l : List α} (hl : l.length ≤ n) (h : n ≤ m) :
    padTo zero m l = padTo zero n l ++ List.replicate (m - n) zero := by
  rw [padTo, padTo, List.append_assoc, ← List.replicate_add]
  congr 2
  omega

variable [LinearOrder α]

/-- Equal endings of lists of one length do not count. -/
theorem append_lt_append_iff {a b : List α} (h : a.length = b.length) (t : List α) :
    a ++ t < b ++ t ↔ a < b := by
  induction a generalizing b with
  | nil =>
      rw [List.length_nil, eq_comm, List.length_eq_zero_iff] at h
      subst h
      exact iff_of_false (lt_irrefl _) (lt_irrefl _)
  | cons x a ih =>
      cases b with
      | nil => cases h
      | cons y b =>
          rw [List.length_cons, List.length_cons, Nat.succ_inj] at h
          rw [List.cons_append, List.cons_append, List.cons_lt_cons_iff, List.cons_lt_cons_iff,
            ih h]

/-- The comparison of two lists after both have been filled up to the longer one. -/
def paddedLt (zero : α) (a b : List α) : Prop :=
  padTo zero (max a.length b.length) a < padTo zero (max a.length b.length) b

instance (zero : α) (a b : List α) : Decidable (paddedLt zero a b) :=
  inferInstanceAs (Decidable (_ < _))

/-- Any common length will do. -/
theorem paddedLt_iff (zero : α) {n : ℕ} {a b : List α} (ha : a.length ≤ n) (hb : b.length ≤ n) :
    paddedLt zero a b ↔ padTo zero n a < padTo zero n b := by
  have hmax : max a.length b.length ≤ n := max_le ha hb
  rw [padTo_append zero (le_max_left _ _) hmax, padTo_append zero (le_max_right _ _) hmax,
    append_lt_append_iff]
  · rfl
  · rw [length_padTo zero (le_max_left _ _), length_padTo zero (le_max_right _ _)]

theorem paddedLt_trans (zero : α) {a b c : List α} (hab : paddedLt zero a b)
    (hbc : paddedLt zero b c) : paddedLt zero a c := by
  have ha : a.length ≤ a.length + b.length + c.length := by omega
  have hb : b.length ≤ a.length + b.length + c.length := by omega
  have hc : c.length ≤ a.length + b.length + c.length := by omega
  rw [paddedLt_iff zero ha hb] at hab
  rw [paddedLt_iff zero hb hc] at hbc
  rw [paddedLt_iff zero ha hc]
  exact hab.trans hbc

end PaddedOrder
