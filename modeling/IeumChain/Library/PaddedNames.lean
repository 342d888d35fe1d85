import IeumChain.Library.Text
import Mathlib.Data.List.Sort
import Mathlib.Data.String.Basic

/-!
# Names that sort like numbers

Decimal numbers with zeros in front of them, all of one width, sort as texts the way the
numbers sort. A name built from such parts sorts by its first part, then by its second.
-/
namespace PaddedNames

open Text

/-- Zeros in front up to the width; a number that needs more digits keeps them. -/
def padded (width n : ℕ) : String := String.ofList (List.leftpad width '0' (decimal n).toList)

theorem toList_padded (width n : ℕ) :
    (padded width n).toList = List.leftpad width '0' (Nat.toDigits 10 n) := by
  rw [padded, String.toList_ofList, decimal, Nat.toList_repr]

theorem length_padded {width n : ℕ} (hwidth : 0 < width) (hn : n < 10 ^ width) :
    (padded width n).toList.length = width := by
  have hdigits := (Nat.length_toDigits_le_iff (by decide) hwidth).2 hn
  rw [toList_padded, List.length_leftpad, Nat.max_eq_left hdigits]

theorem ofDigitChars_padded (width n : ℕ) :
    Nat.ofDigitChars 10 (padded width n).toList 0 = n := by
  have hzeros : ∀ k, Nat.ofDigitChars 10 (List.replicate k '0') 0 = 0 := by
    intro k
    induction k with
    | zero => rfl
    | succ k ih => rw [List.replicate_succ, Nat.ofDigitChars_cons]; exact ih
  rw [toList_padded, List.leftpad, Nat.ofDigitChars_append, hzeros, Nat.ofDigitChars_ten_toDigits]

/-- A number that needs more digits keeps them, so no two numbers share a name. -/
theorem padded_inj {width m n : ℕ} (h : padded width m = padded width n) : m = n := by
  rw [← ofDigitChars_padded width m, h, ofDigitChars_padded]

theorem isDigit_of_mem_padded {width n : ℕ} {c : Char} (h : c ∈ (padded width n).toList) :
    c.isDigit = true := by
  rw [toList_padded, List.leftpad, List.mem_append] at h
  rcases h with hzero | hdigit
  · rw [List.eq_of_mem_replicate hzero]
    rfl
  · exact Nat.isDigit_of_mem_toDigits (by decide) (by decide) hdigit

/-- The last digit of a padded number. -/
theorem toList_padded_succ {width : ℕ} (hwidth : 0 < width) (n : ℕ) :
    (padded (width + 1) n).toList = (padded width (n / 10)).toList ++ [(n % 10).digitChar] := by
  rw [toList_padded, toList_padded]
  by_cases hn : n < 10
  · rw [Nat.toDigits_of_lt_base hn, Nat.div_eq_of_lt hn, Nat.mod_eq_of_lt hn,
      Nat.toDigits_of_lt_base (by decide : 0 < 10)]
    obtain ⟨k, rfl⟩ := Nat.exists_eq_succ_of_ne_zero hwidth.ne'
    simp [List.leftpad, List.replicate_succ']
  · rw [Nat.toDigits_of_base_le (by decide) (by omega)]
    simp [List.leftpad]

/-- Texts whose first parts are of one length are compared by these first. -/
theorem append_lt_append_iff {a b c d : List Char} (hlength : a.length = b.length) :
    a ++ c < b ++ d ↔ a < b ∨ a = b ∧ c < d := by
  induction a generalizing b with
  | nil =>
      cases b with
      | nil => simp
      | cons y b => simp at hlength
  | cons x a ih =>
      cases b with
      | nil => simp at hlength
      | cons y b =>
          have htail : a.length = b.length := by simpa using hlength
          simp only [List.cons_append, List.cons_lt_cons_iff, ih htail, List.cons.injEq]
          tauto

theorem digitChar_lt {m n : ℕ} (h : m < n) (hn : n < 10) : m.digitChar < n.digitChar := by
  have hdigits : ∀ n < 10, ∀ m < n, m.digitChar < n.digitChar := by decide
  exact hdigits n hn m h

theorem singleton_lt {c d : Char} (h : c < d) : [c] < [d] := List.cons_lt_cons_iff.2 (.inl h)

theorem padded_lt {width m n : ℕ} (hwidth : 0 < width) (hmn : m < n) (hn : n < 10 ^ width) :
    (padded width m).toList < (padded width n).toList := by
  induction width, hwidth using Nat.le_induction generalizing m n with
  | base =>
      rw [pow_one] at hn
      rw [toList_padded, toList_padded, Nat.toDigits_of_lt_base hn,
        Nat.toDigits_of_lt_base (hmn.trans hn)]
      exact singleton_lt (digitChar_lt hmn hn)
  | succ width hwidth ih =>
      have hdiv : n / 10 < 10 ^ width := by
        rw [Nat.div_lt_iff_lt_mul (by decide), ← pow_succ]
        exact hn
      have hlength : (padded width (m / 10)).toList.length = (padded width (n / 10)).toList.length := by
        rw [length_padded hwidth hdiv, length_padded hwidth (by omega)]
      rw [toList_padded_succ hwidth, toList_padded_succ hwidth, append_lt_append_iff hlength]
      rcases Nat.lt_or_ge (m / 10) (n / 10) with hlt | hge
      · exact .inl (ih hlt hdiv)
      · have hsame : m / 10 = n / 10 := by omega
        refine .inr ⟨by rw [hsame], ?_⟩
        exact singleton_lt (digitChar_lt (by omega) (by omega))

/-! ## The last name -/

/-- The name that a listing in order ends with. -/
def lastName (names : List String) : Option String := (names.insertionSort (· ≤ ·)).getLast?

theorem lastName_eq_some {names : List String} {name : String} (hmem : name ∈ names)
    (hlast : ∀ other ∈ names, other ≤ name) : lastName names = some name := by
  have hperm := List.perm_insertionSort (· ≤ ·) names
  have hsorted := List.pairwise_insertionSort (· ≤ ·) names
  rw [lastName]
  generalize names.insertionSort (· ≤ ·) = sorted at hperm hsorted
  have hsome : sorted.getLast?.isSome = true := by
    rw [List.getLast?_isSome]
    rintro rfl
    exact absurd (hperm.mem_iff.2 hmem) List.not_mem_nil
  obtain ⟨last, hgetLast⟩ := Option.isSome_iff_exists.1 hsome
  obtain ⟨front, rfl⟩ := List.getLast?_eq_some_iff.1 hgetLast
  have hle : last ≤ name := hlast last (hperm.mem_iff.1 (by simp))
  have hge : name ≤ last := by
    rcases List.mem_append.1 (hperm.mem_iff.2 hmem) with hfront | hname
    · exact (List.pairwise_append.1 hsorted).2.2 name hfront last (by simp)
    · exact (List.mem_singleton.1 hname).le
  rw [hgetLast, le_antisymm hle hge]

theorem lastName_eq_none_iff {names : List String} : lastName names = none ↔ names = [] := by
  rw [lastName, List.getLast?_eq_none_iff]
  exact ⟨fun h => List.perm_nil.1 (h ▸ (List.perm_insertionSort (· ≤ ·) names).symm),
    fun h => by rw [h]; rfl⟩

end PaddedNames
