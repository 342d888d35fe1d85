import Mathlib.Algebra.GroupWithZero.Nat
import Mathlib.Data.List.DropRight
import Mathlib.Data.List.Induction
import Mathlib.Tactic.Common

/-!
# Digits of decimal numbers

Two digit sequences of one length and one value are the same, and so are two sequences of one
value without leading zeros. Trailing zeros are the part of a sequence that a fraction can lose.
-/
namespace DecimalDigits

/-- All characters are decimal digits. -/
def Digits (l : List Char) : Prop := ∀ c ∈ l, c.isDigit = true

/-- A single digit, or a first digit other than zero. -/
def NoLeadingZero (l : List Char) : Prop := l.length = 1 ∨ l.head? ≠ some '0'

theorem isDigit_iff (c : Char) : c.isDigit = true ↔ 48 ≤ c.toNat ∧ c.toNat ≤ 57 := by
  simp only [Char.isDigit, Bool.and_eq_true, decide_eq_true_eq]
  exact Iff.rfl

theorem digit_lt {c : Char} (h : c.isDigit = true) : c.toNat - '0'.toNat < 10 := by
  have hc := (isDigit_iff c).1 h
  have hzero : '0'.toNat = 48 := rfl
  omega

theorem digit_inj {c d : Char} (hc : c.isDigit = true) (hd : d.isDigit = true)
    (h : c.toNat - '0'.toNat = d.toNat - '0'.toNat) : c = d := by
  have hc' := (isDigit_iff c).1 hc
  have hd' := (isDigit_iff d).1 hd
  have hzero : '0'.toNat = 48 := rfl
  have hnat : c.toNat = d.toNat := by omega
  exact Char.toNat_inj.1 hnat

/-- A digit is the character of its value. -/
theorem digitChar_digit {c : Char} (h : c.isDigit = true) :
    Nat.digitChar (c.toNat - '0'.toNat) = c := by
  have hlt := digit_lt h
  have hdigit : (Nat.digitChar (c.toNat - '0'.toNat)).isDigit = true :=
    Nat.isDigit_of_mem_toDigits (b := 10) (by decide) (by decide)
      (Nat.toDigits_of_lt_base hlt ▸ List.mem_singleton_self _)
  exact digit_inj hdigit h (Nat.toNat_digitChar_sub_48_of_lt_ten hlt)

theorem digits_append {l m : List Char} : Digits (l ++ m) ↔ Digits l ∧ Digits m :=
  List.forall_mem_append

theorem digits_toDigits (n : ℕ) : Digits (Nat.toDigits 10 n) :=
  fun _ hc => Nat.isDigit_of_mem_toDigits (by decide) (by decide) hc

theorem value_concat (l : List Char) (c : Char) :
    Nat.ofDigitChars 10 (l ++ [c]) 0 = 10 * Nat.ofDigitChars 10 l 0 + (c.toNat - '0'.toNat) := by
  rw [Nat.ofDigitChars_append, Nat.ofDigitChars_cons, Nat.ofDigitChars_nil]

theorem value_lt {l : List Char} (hl : Digits l) : Nat.ofDigitChars 10 l 0 < 10 ^ l.length := by
  induction l using List.reverseRecOn with
  | nil => exact Nat.one_pos
  | append_singleton l c ih =>
      obtain ⟨hl, hc⟩ := digits_append.1 hl
      have hclt := digit_lt (hc c (List.mem_singleton_self c))
      have hlt := ih hl
      rw [value_concat, List.length_append, List.length_singleton, Nat.pow_succ]
      omega

/-- Of one length there is one sequence for a value. -/
theorem eq_of_value_eq {l m : List Char} (hl : Digits l) (hm : Digits m)
    (hlength : l.length = m.length)
    (hvalue : Nat.ofDigitChars 10 l 0 = Nat.ofDigitChars 10 m 0) : l = m := by
  induction l using List.reverseRecOn generalizing m with
  | nil => exact (List.eq_nil_of_length_eq_zero hlength.symm).symm
  | append_singleton l c ih =>
      cases m using List.reverseRecOn with
      | nil => simp at hlength
      | append_singleton m d =>
          obtain ⟨hl, hc⟩ := digits_append.1 hl
          obtain ⟨hm, hd⟩ := digits_append.1 hm
          have hc := hc c (List.mem_singleton_self c)
          have hd := hd d (List.mem_singleton_self d)
          have hclt := digit_lt hc
          have hdlt := digit_lt hd
          rw [value_concat, value_concat] at hvalue
          rw [List.length_append, List.length_append] at hlength
          rw [ih hl hm (Nat.add_right_cancel hlength) (by omega), digit_inj hc hd (by omega)]

theorem value_pos {l : List Char} (hl : Digits l) (hne : l ≠ []) (hhead : l.head? ≠ some '0') :
    0 < Nat.ofDigitChars 10 l 0 := by
  cases l with
  | nil => exact absurd rfl hne
  | cons c rest =>
      have hc := hl c (List.mem_cons_self ..)
      have hpos : 0 < c.toNat - '0'.toNat := by
        refine Nat.pos_of_ne_zero fun hzero => hhead ?_
        have hsame : c = '0' := digit_inj hc (by decide) hzero
        rw [List.head?_cons, hsame]
      rw [Nat.ofDigitChars_cons, Nat.ofDigitChars_eq_ofDigitChars_zero]
      exact Nat.add_pos_left (Nat.mul_pos (Nat.pow_pos (by decide)) (by omega)) _

/-- Without leading zeros a sequence is the usual one of its value. -/
theorem toDigits_value {l : List Char} (hl : Digits l) (hne : l ≠ []) (hlead : NoLeadingZero l) :
    Nat.toDigits 10 (Nat.ofDigitChars 10 l 0) = l := by
  induction l using List.reverseRecOn with
  | nil => exact absurd rfl hne
  | append_singleton l c ih =>
      obtain ⟨hl, hc⟩ := digits_append.1 hl
      have hc := hc c (List.mem_singleton_self c)
      rw [value_concat]
      by_cases hnil : l = []
      · subst hnil
        rw [Nat.ofDigitChars_nil, Nat.mul_zero, Nat.zero_add,
          Nat.toDigits_of_lt_base (digit_lt hc), digitChar_digit hc, List.nil_append]
      · -- the front begins with the same digit, which is no zero
        have hhead : l.head? ≠ some '0' := by
          rcases hlead with hone | hhead
          · rw [List.length_append, List.length_singleton, Nat.add_eq_right] at hone
            exact absurd (List.eq_nil_of_length_eq_zero hone) hnil
          · rwa [List.head?_append_of_ne_nil _ hnil] at hhead
        rw [← Nat.toDigits_append_toDigits (by decide) (value_pos hl hnil hhead) (digit_lt hc),
          ih hl hnil (.inr hhead), Nat.toDigits_of_lt_base (digit_lt hc), digitChar_digit hc]

theorem noLeadingZero_toDigits (n : ℕ) : NoLeadingZero (Nat.toDigits 10 n) := by
  induction n using Nat.strong_induction_on with
  | _ n ih =>
      by_cases hn : n < 10
      · rw [Nat.toDigits_of_lt_base hn]
        exact .inl rfl
      · have hdiv : 0 < n / 10 := Nat.div_pos (not_lt.1 hn) (by decide)
        rw [Nat.toDigits_of_base_le (by decide) (not_lt.1 hn)]
        refine .inr ?_
        rw [List.head?_append_of_ne_nil _ Nat.toDigits_ne_nil]
        rcases ih (n / 10) (by omega) with hone | hhead
        · have hsmall : n / 10 < 10 := by
            have hlength := (Nat.length_toDigits_le_iff (b := 10) (by decide) Nat.one_pos).1 hone.le
            omega
          rw [Nat.toDigits_of_lt_base hsmall, List.head?_cons, Ne, Option.some.injEq]
          intro hzero
          have hvalue := congrArg (fun c : Char => c.toNat - 48) hzero
          rw [Nat.toNat_digitChar_sub_48_of_lt_ten hsmall] at hvalue
          exact hdiv.ne' hvalue
        · exact hhead

/-! ## Trailing zeros -/

def trimZeros (l : List Char) : List Char := l.rdropWhile (· = '0')

/-- What is trimmed is a block of zeros. -/
theorem trimZeros_append (l : List Char) :
    ∃ count, trimZeros l ++ List.replicate count '0' = l := by
  refine ⟨(l.rtakeWhile (· = '0')).length, ?_⟩
  have hzeros : List.replicate (l.rtakeWhile (· = '0')).length '0' = l.rtakeWhile (· = '0') :=
    (List.eq_replicate_of_mem fun c hc => by simpa using List.mem_rtakeWhile_imp hc).symm
  rw [hzeros]
  exact List.rdropWhile_append_rtakeWhile ..

theorem trimZeros_append_zeros (l : List Char) (count : ℕ) :
    trimZeros (l ++ List.replicate count '0') = trimZeros l := by
  induction count with
  | zero => rw [List.replicate_zero, List.append_nil]
  | succ count ih =>
      rw [List.replicate_succ', ← List.append_assoc, trimZeros,
        List.rdropWhile_concat_pos _ _ _ (by decide)]
      exact ih

theorem trimZeros_append_of_ne {front : List Char} {c : Char} (hc : c ≠ '0') (l : List Char) :
    trimZeros (front ++ c :: l) = front ++ c :: trimZeros l := by
  induction l using List.reverseRecOn with
  | nil => exact List.rdropWhile_concat_neg _ _ _ (by simpa using hc)
  | append_singleton l d ih =>
      rw [← List.cons_append, ← List.append_assoc]
      by_cases hd : d = '0'
      · rw [trimZeros, trimZeros, List.rdropWhile_concat_pos _ _ _ (by simpa using hd),
          List.rdropWhile_concat_pos _ _ _ (by simpa using hd)]
        exact ih
      · rw [trimZeros, trimZeros, List.rdropWhile_concat_neg _ _ _ (by simpa using hd),
          List.rdropWhile_concat_neg _ _ _ (by simpa using hd)]
        simp

theorem length_trimZeros_le (l : List Char) : (trimZeros l).length ≤ l.length :=
  (List.rdropWhile_prefix _ l).length_le

/-- Trimming that removes nothing changes nothing. -/
theorem trimZeros_eq_self {l : List Char} (h : l.length ≤ (trimZeros l).length) :
    trimZeros l = l :=
  (List.rdropWhile_prefix _ l).eq_of_length_le h

end DecimalDigits
