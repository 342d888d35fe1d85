import Mathlib.Algebra.Order.BigOperators.Group.List
import Mathlib.Tactic.Linarith

/-!
# Bounded arithmetic on natural numbers

Machine words are natural numbers together with the largest value of their
type. Checked operations fail above that value, saturating operations stop at
it, and wrapping ones keep the remainder. Nothing here wraps silently.
-/
namespace MachineWords

def u32Max : ℕ := 2 ^ 32 - 1
def u64Max : ℕ := 2 ^ 64 - 1
def u128Max : ℕ := 2 ^ 128 - 1
def i32Max : ℕ := 2 ^ 31 - 1
def i64Max : ℕ := 2 ^ 63 - 1

/-- Addition that fails when the exact sum leaves the word. -/
def checkedAdd (top a b : ℕ) : Option ℕ := if a + b ≤ top then some (a + b) else none

/-- Multiplication that fails when the exact product leaves the word. -/
def checkedMul (top a b : ℕ) : Option ℕ := if a * b ≤ top then some (a * b) else none

/-- Subtraction that fails below zero. -/
def checkedSub (a b : ℕ) : Option ℕ := if b ≤ a then some (a - b) else none

/-- Division and remainder that fail for the divisor zero. -/
def checkedDiv (a b : ℕ) : Option ℕ := if b = 0 then none else some (a / b)

def checkedRem (a b : ℕ) : Option ℕ := if b = 0 then none else some (a % b)

def saturatingAdd (top a b : ℕ) : ℕ := min (a + b) top
def saturatingMul (top a b : ℕ) : ℕ := min (a * b) top

/-- Addition with the wrap-around of an optimized build. -/
def wrappingAdd (top a b : ℕ) : ℕ := (a + b) % (top + 1)

/-- Iterator sum in a word type, with the wrap-around of an optimized build. -/
def wrappingSum (top : ℕ) (xs : List ℕ) : ℕ := xs.sum % (top + 1)

/-- Left-to-right sum that fails as soon as it leaves the word. -/
def checkedSum (top : ℕ) (xs : List ℕ) : Option ℕ := xs.foldlM (checkedAdd top) 0

@[simp] theorem checkedAdd_eq_some {top a b c : ℕ} :
    checkedAdd top a b = some c ↔ a + b = c ∧ c ≤ top := by
  unfold checkedAdd
  split_ifs with h
  · simp only [Option.some.injEq]
    constructor
    · rintro rfl
      exact ⟨rfl, h⟩
    · exact fun hc => hc.1
  · simp only [false_iff, not_and]
    rintro rfl
    exact h

@[simp] theorem checkedMul_eq_some {top a b c : ℕ} :
    checkedMul top a b = some c ↔ a * b = c ∧ c ≤ top := by
  unfold checkedMul
  split_ifs with h
  · simp only [Option.some.injEq]
    constructor
    · rintro rfl
      exact ⟨rfl, h⟩
    · exact fun hc => hc.1
  · simp only [false_iff, not_and]
    rintro rfl
    exact h

theorem checkedSub_of_le {a b : ℕ} (h : b ≤ a) : checkedSub a b = some (a - b) := if_pos h

theorem checkedDiv_of_pos {a b : ℕ} (h : 0 < b) : checkedDiv a b = some (a / b) := if_neg h.ne'

theorem checkedRem_of_pos {a b : ℕ} (h : 0 < b) : checkedRem a b = some (a % b) := if_neg h.ne'

theorem foldlM_checkedAdd {top start c : ℕ} {xs : List ℕ} (hstart : start ≤ top) :
    xs.foldlM (checkedAdd top) start = some c ↔ start + xs.sum = c ∧ c ≤ top := by
  induction xs generalizing start with
  | nil =>
      simp only [List.foldlM_nil, List.sum_nil, add_zero]
      constructor
      · intro h
        cases h
        exact ⟨rfl, hstart⟩
      · rintro ⟨rfl, -⟩
        rfl
  | cons x xs ih =>
      simp only [List.foldlM_cons, List.sum_cons, Option.bind_eq_bind, Option.bind_eq_some_iff,
        checkedAdd_eq_some]
      constructor
      · rintro ⟨d, ⟨rfl, hd⟩, h⟩
        rw [ih hd] at h
        omega
      · rintro ⟨hsum, hc⟩
        refine ⟨start + x, ⟨rfl, by omega⟩, ?_⟩
        rw [ih (by omega)]
        omega

/-- A checked sum is the exact sum, whatever the order of its terms. -/
@[simp] theorem checkedSum_eq_some {top c : ℕ} {xs : List ℕ} :
    checkedSum top xs = some c ↔ xs.sum = c ∧ c ≤ top := by
  rw [checkedSum, foldlM_checkedAdd (Nat.zero_le _), zero_add]

theorem wrappingSum_of_le {top : ℕ} {xs : List ℕ} (h : xs.sum ≤ top) :
    wrappingSum top xs = xs.sum := Nat.mod_eq_of_lt (Nat.lt_succ_of_le h)

theorem saturatingMul_of_le {top a b : ℕ} (h : a * b ≤ top) : saturatingMul top a b = a * b :=
  min_eq_left h

/-- A saturating sum is the sum up to the top. -/
theorem foldl_saturatingAdd {α : Type} {top start : ℕ} (amount : α → ℕ) (l : List α)
    (hstart : start ≤ top) :
    l.foldl (fun sum a => saturatingAdd top sum (amount a)) start =
      min (start + (l.map amount).sum) top := by
  induction l generalizing start with
  | nil => simpa using hstart
  | cons a rest ih =>
      have hnext : saturatingAdd top start (amount a) ≤ top := min_le_right _ _
      rw [List.foldl_cons, ih hnext, saturatingAdd, List.map_cons, List.sum_cons]
      omega

theorem saturatingMul_div_le (top a b : ℕ) {d : ℕ} (hb : b ≤ d) :
    saturatingMul top a b / d ≤ a := by
  calc saturatingMul top a b / d ≤ a * b / d := Nat.div_le_div_right (min_le_left _ _)
    _ ≤ a * d / d := Nat.div_le_div_right (Nat.mul_le_mul_left a hb)
    _ ≤ a := Nat.div_le_of_le_mul (le_of_eq (Nat.mul_comm a d))

end MachineWords
