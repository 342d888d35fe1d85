import IeumChain.Library.DecimalDigits
import IeumChain.Library.MachineWords
import IeumChain.Library.Outcome
import IeumChain.Library.PaddedNames

/-!
# Amounts as text

Amounts are shown with up to eighteen digits behind a point and without the zeros at the end.
Reading fills the zeros in again.
-/
namespace IeumChain

open Text Outcome MachineWords PaddedNames DecimalDigits

namespace AmountText

/-- Eighteen digits behind the point. -/
def ieumUnit : ℕ := 1000000000000000000

def formatIeumAmount (value : ℕ) : String :=
  let whole := value / ieumUnit
  let fraction := value % ieumUnit
  if fraction = 0 then decimal whole
  else String.ofList (trimZeros (decimal whole ++ "." ++ padded 18 fraction).toList)

/-- Splits at the first separator. -/
def splitOnce (separator : Char) (s : String) : Option (String × String) :=
  if separator ∈ s.toList then
    some (String.ofList (s.toList.takeWhile (· ≠ separator)),
      String.ofList (s.toList.dropWhile (· ≠ separator)).tail)
  else none

/-- Zeros behind the digits up to eighteen. -/
def fill (digits : List Char) : List Char := List.rightpad 18 '0' digits

/-- Reads a text of digits; other texts never get here. -/
def parseDigits (digits : String) : Option ℕ :=
  if Nat.ofDigitChars 10 digits.toList 0 ≤ u128Max then
    some (Nat.ofDigitChars 10 digits.toList 0)
  else none

def parseIeumAmount (value : String) : Except String ℕ := do
  let parts := (splitOnce '.' value).getD (value, "")
  reject (parts.1 = "" ∨ 18 < parts.2.utf8ByteSize ∨ allChars Char.isDigit parts.1 = false ∨
      allChars Char.isDigit parts.2 = false)
    "IEUM 금액은 소수점 이하 최대 18자리 숫자여야 합니다."
  let whole ← okOr (parseDigits parts.1) "IEUM 금액이 너무 큽니다."
  let fraction ← okOr (parseDigits (String.ofList (fill parts.2.toList)))
    "IEUM 소수 금액이 올바르지 않습니다."
  okOr ((checkedMul u128Max whole (10 ^ 18)).bind (checkedAdd u128Max · fraction))
    "IEUM 금액이 너무 큽니다."

/-! ## Spellings -/

/-- The parts of a text with at most one point between them. -/
def Spells (s : String) (whole fraction : List Char) : Prop :=
  s.toList = whole ∧ fraction = [] ∨ s.toList = whole ++ '.' :: fraction

/-- A text that is read as an amount, by its parts. -/
structure Reads (s : String) (v : ℕ) (whole fraction : List Char) : Prop where
  spells : Spells s whole fraction
  nonempty : whole ≠ []
  wholeDigits : Digits whole
  fractionDigits : Digits fraction
  short : fraction.length ≤ 18
  value : Nat.ofDigitChars 10 whole 0 * ieumUnit + Nat.ofDigitChars 10 (fill fraction) 0 = v
  fits : v ≤ u128Max

theorem allChars_eq_true {s : String} : allChars Char.isDigit s = true ↔ Digits s.toList :=
  List.all_eq_true

theorem point_not_digit : Char.isDigit '.' = false := rfl

theorem utf8ByteSize_digits {s : String} (h : Digits s.toList) :
    s.utf8ByteSize = s.toList.length := by
  rw [← String.ofList_toList (s := s), ByteCodec.utf8ByteSize_ofList, String.toList_ofList]
  intro c hc
  have hdigit := Char.isDigit_iff_toNat.1 (h c hc)
  rw [String.length_utf8EncodeChar, Char.utf8Size_eq_one_iff, UInt32.le_iff_toNat_le]
  exact hdigit.2.trans (by decide)

theorem splitOnce_of_notMem {s : String} (h : '.' ∉ s.toList) : splitOnce '.' s = none := if_neg h

theorem splitOnce_eq_some {s : String} {whole fraction : List Char} (hwhole : '.' ∉ whole)
    (h : s.toList = whole ++ '.' :: fraction) :
    splitOnce '.' s = some (String.ofList whole, String.ofList fraction) := by
  have htake : ∀ c ∈ whole, decide (c ≠ '.') = true :=
    fun c hc => decide_eq_true fun heq => hwhole (heq ▸ hc)
  rw [splitOnce, if_pos (by rw [h]; simp), h, List.takeWhile_append_of_pos htake,
    List.dropWhile_append_of_pos htake]
  simp

/-- The parts that are read spell the text. -/
theorem spells_parts (s : String) : Spells s ((splitOnce '.' s).getD (s, "")).1.toList
    ((splitOnce '.' s).getD (s, "")).2.toList := by
  by_cases hpoint : '.' ∈ s.toList
  · right
    rw [splitOnce, if_pos hpoint, Option.getD_some, String.toList_ofList, String.toList_ofList]
    have hsplit := List.takeWhile_append_dropWhile (p := fun c => decide (c ≠ '.')) (l := s.toList)
    cases hdrop : s.toList.dropWhile (fun c => decide (c ≠ '.')) with
    | nil =>
        rw [List.dropWhile_eq_nil_iff] at hdrop
        exact absurd (hdrop '.' hpoint) (by decide)
    | cons c rest =>
        have hc : c = '.' := by
          have hhead := List.head?_dropWhile_not (fun c => decide (c ≠ '.')) s.toList
          rw [hdrop, List.head?_cons] at hhead
          simpa using hhead
        rw [hdrop, hc] at hsplit
        exact hsplit.symm
  · left
    rw [splitOnce_of_notMem hpoint]
    exact ⟨rfl, rfl⟩

theorem parts_of_spells {s : String} {whole fraction : List Char} (h : Spells s whole fraction)
    (hwhole : Digits whole) : (splitOnce '.' s).getD (s, "") =
      (String.ofList whole, String.ofList fraction) := by
  have hpoint : '.' ∉ whole := fun hmem => by
    have hdigit := hwhole '.' hmem
    rw [point_not_digit] at hdigit
    cases hdigit
  rcases h with ⟨hs, rfl⟩ | hs
  · rw [splitOnce_of_notMem (hs ▸ hpoint), Option.getD_none, ← hs, String.ofList_toList]
  · rw [splitOnce_eq_some hpoint hs, Option.getD_some]

/-! ## Reading -/

theorem parseDigits_eq_some {digits : String} {n : ℕ} : parseDigits digits = some n ↔
    Nat.ofDigitChars 10 digits.toList 0 = n ∧ n ≤ u128Max := by
  rw [parseDigits]
  constructor
  · intro h
    split_ifs at h with hfits
    exact ⟨Option.some.inj h, Option.some.inj h ▸ hfits⟩
  · rintro ⟨rfl, hfits⟩
    exact if_pos hfits

theorem length_fill {digits : List Char} (h : digits.length ≤ 18) : (fill digits).length = 18 := by
  rw [fill, List.rightpad, List.length_append, List.length_replicate]
  omega

theorem digits_fill {digits : List Char} (h : Digits digits) : Digits (fill digits) :=
  digits_append.2 ⟨h, fun _ hc => List.eq_of_mem_replicate hc ▸ rfl⟩

/-- Eighteen digits are less than a unit. -/
theorem value_fill_lt {digits : List Char} (h : Digits digits) (hshort : digits.length ≤ 18) :
    Nat.ofDigitChars 10 (fill digits) 0 < ieumUnit := by
  have hlt := value_lt (digits_fill h)
  rwa [length_fill hshort] at hlt

theorem parse_eq_ok {s : String} {v : ℕ} :
    parseIeumAmount s = .ok v ↔ ∃ whole fraction, Reads s v whole fraction := by
  constructor
  · intro h
    simp only [parseIeumAmount, bind_eq_ok, reject_eq_ok, okOr_eq_ok, not_or,
      Bool.not_eq_false] at h
    obtain ⟨_, ⟨hne, hshort, hwhole, hfraction⟩, whole, hw, fraction, hf, hsum⟩ := h
    rw [allChars_eq_true] at hwhole hfraction
    rw [parseDigits_eq_some] at hw hf
    rw [Option.bind_eq_some_iff] at hsum
    obtain ⟨product, hproduct, hsum⟩ := hsum
    rw [checkedMul_eq_some] at hproduct
    rw [checkedAdd_eq_some] at hsum
    rw [utf8ByteSize_digits hfraction, not_lt] at hshort
    rw [String.toList_ofList] at hf
    refine ⟨_, _, spells_parts s, ?_, hwhole, hfraction, hshort, ?_, hsum.2⟩
    · exact fun hnil => hne (String.toList_eq_nil_iff.1 hnil)
    · rw [hw.1, hf.1, ← hsum.1, ← hproduct.1]
      rfl
  · rintro ⟨whole, fraction, h⟩
    have hparts := parts_of_spells h.spells h.wholeDigits
    have hunit : (10 : ℕ) ^ 18 = ieumUnit := rfl
    have hlt := value_fill_lt h.fractionDigits h.short
    have hv := h.value
    have hfits := h.fits
    have hmax : ieumUnit ≤ u128Max := by decide
    have hle : Nat.ofDigitChars 10 whole 0 ≤ Nat.ofDigitChars 10 whole 0 * ieumUnit :=
      Nat.le_mul_of_pos_right _ (by decide)
    simp only [parseIeumAmount, bind_eq_ok, reject_eq_ok, okOr_eq_ok, not_or, Bool.not_eq_false,
      hparts, String.toList_ofList, parseDigits_eq_some, allChars_eq_true,
      Option.bind_eq_some_iff, checkedMul_eq_some, checkedAdd_eq_some, hunit]
    refine ⟨(), ⟨?_, ?_, h.wholeDigits, h.fractionDigits⟩, _, ⟨rfl, ?_⟩, _, ⟨rfl, ?_⟩, _,
      ⟨rfl, ?_⟩, hv, hfits⟩
    · exact fun hnil => h.nonempty (String.ofList_eq_empty_iff.1 hnil)
    · rw [utf8ByteSize_digits (by rw [String.toList_ofList]; exact h.fractionDigits),
        String.toList_ofList, not_lt]
      exact h.short
    all_goals omega

/-! ## Writing -/

/-- The digits behind the point that are shown. -/
def shownFraction (value : ℕ) : List Char := trimZeros (padded 18 (value % ieumUnit)).toList

theorem length_paddedFraction (value : ℕ) :
    (padded 18 (value % ieumUnit)).toList.length = 18 :=
  length_padded (by decide) (Nat.mod_lt _ (by decide))

/-- Reading gets the trimmed zeros back. -/
theorem fill_shownFraction (value : ℕ) :
    fill (shownFraction value) = (padded 18 (value % ieumUnit)).toList := by
  obtain ⟨count, hcount⟩ := trimZeros_append (padded 18 (value % ieumUnit)).toList
  have hlength := congrArg List.length hcount
  rw [length_paddedFraction, List.length_append, List.length_replicate] at hlength
  rw [fill, List.rightpad, shownFraction,
    show 18 - (trimZeros (padded 18 (value % ieumUnit)).toList).length = count by omega, hcount]

theorem shownFraction_of_whole {value : ℕ} (h : value % ieumUnit = 0) :
    shownFraction value = [] := by
  rw [shownFraction, h]
  rfl

theorem toList_format_of_whole {value : ℕ} (h : value % ieumUnit = 0) :
    (formatIeumAmount value).toList = Nat.toDigits 10 (value / ieumUnit) := by
  rw [formatIeumAmount, if_pos h, decimal, Nat.toList_repr]

theorem toList_format {value : ℕ} (h : value % ieumUnit ≠ 0) :
    (formatIeumAmount value).toList =
      Nat.toDigits 10 (value / ieumUnit) ++ '.' :: shownFraction value := by
  rw [formatIeumAmount, if_neg h, String.toList_ofList, String.toList_append,
    String.toList_append, decimal, Nat.toList_repr, List.append_assoc]
  exact trimZeros_append_of_ne (by decide) _

theorem spells_format (value : ℕ) : Spells (formatIeumAmount value)
    (Nat.toDigits 10 (value / ieumUnit)) (shownFraction value) := by
  by_cases h : value % ieumUnit = 0
  · exact .inl ⟨toList_format_of_whole h, shownFraction_of_whole h⟩
  · exact .inr (toList_format h)

/-- What is shown is read as the amount. -/
theorem reads_format {value : ℕ} (hfits : value ≤ u128Max) : Reads (formatIeumAmount value) value
    (Nat.toDigits 10 (value / ieumUnit)) (shownFraction value) where
  spells := spells_format value
  nonempty := Nat.toDigits_ne_nil
  wholeDigits := digits_toDigits _
  fractionDigits := by
    obtain ⟨count, hcount⟩ := trimZeros_append (padded 18 (value % ieumUnit)).toList
    intro c hc
    have hmem : c ∈ (padded 18 (value % ieumUnit)).toList := hcount ▸ List.mem_append_left _ hc
    exact isDigit_of_mem_padded hmem
  short := (length_trimZeros_le _).trans (length_paddedFraction value).le
  value := by
    rw [fill_shownFraction, ofDigitChars_padded, Nat.ofDigitChars_ten_toDigits]
    exact Nat.div_add_mod' value ieumUnit
  fits := hfits

/-! ## The shortest spelling -/

/-- The part before the point. -/
def wholePart (s : String) : List Char := ((splitOnce '.' s).getD (s, "")).1.toList

theorem Reads.wholePart_eq {s : String} {v : ℕ} {whole fraction : List Char}
    (h : Reads s v whole fraction) : wholePart s = whole := by
  rw [wholePart, parts_of_spells h.spells h.wholeDigits, String.toList_ofList]

theorem Reads.div_mod {s : String} {v : ℕ} {whole fraction : List Char}
    (h : Reads s v whole fraction) : Nat.ofDigitChars 10 whole 0 = v / ieumUnit ∧
      Nat.ofDigitChars 10 (fill fraction) 0 = v % ieumUnit := by
  have hlt := value_fill_lt h.fractionDigits h.short
  rw [← h.value, Nat.mul_comm]
  rw [Nat.mul_add_div (by decide), Nat.mul_add_mod, Nat.div_eq_of_lt hlt, Nat.mod_eq_of_lt hlt]
  exact ⟨rfl, rfl⟩

/-- The shown fraction is what is left of any other one without its trailing zeros. -/
theorem Reads.shownFraction_eq {s : String} {v : ℕ} {whole fraction : List Char}
    (h : Reads s v whole fraction) : shownFraction v = trimZeros fraction := by
  have hfill : fill fraction = (padded 18 (v % ieumUnit)).toList := by
    refine eq_of_value_eq (digits_fill h.fractionDigits) (fun _ => isDigit_of_mem_padded) ?_ ?_
    · rw [length_fill h.short, length_paddedFraction]
    · rw [h.div_mod.2, ofDigitChars_padded]
  rw [shownFraction, ← hfill, fill, List.rightpad, trimZeros_append_zeros]

theorem Reads.eq_or_shorter {s : String} {v : ℕ} {whole fraction : List Char}
    (h : Reads s v whole fraction) (hlead : NoLeadingZero whole) :
    s = formatIeumAmount v ∨ (formatIeumAmount v).length < s.length := by
  have hwhole : Nat.toDigits 10 (v / ieumUnit) = whole := by
    rw [← h.div_mod.1, toDigits_value h.wholeDigits h.nonempty hlead]
  have hshown := h.shownFraction_eq
  rw [← String.toList_inj, ← String.length_toList, ← String.length_toList]
  by_cases hv : v % ieumUnit = 0
  · rw [toList_format_of_whole hv, hwhole]
    rcases h.spells with ⟨hs, _⟩ | hs
    · exact .inl hs
    · right
      rw [hs, List.length_append, List.length_cons]
      omega
  · rw [toList_format hv, hwhole, hshown]
    rcases h.spells with ⟨hs, rfl⟩ | hs
    · -- without digits behind the point the amount is whole
      exact absurd h.div_mod.2 (Ne.symm hv)
    · rw [hs, List.append_cancel_left_eq, List.cons_inj_right, List.length_append,
        List.length_append, List.length_cons, List.length_cons]
      rcases (length_trimZeros_le fraction).lt_or_eq with hlt | heq
      · exact .inr (by omega)
      · exact .inl (trimZeros_eq_self heq.ge).symm

/-- Every amount is read back from its text, and among the texts without leading zeros that are
read as an amount the one shown is the shortest. -/
theorem amount_text_round_trip :
    (∀ value ≤ u128Max, parseIeumAmount (formatIeumAmount value) = .ok value) ∧
      ∀ s value, parseIeumAmount s = .ok value →
        parseIeumAmount (formatIeumAmount value) = .ok value ∧
        NoLeadingZero (wholePart (formatIeumAmount value)) ∧
        ∀ t, parseIeumAmount t = .ok value → NoLeadingZero (wholePart t) →
          t = formatIeumAmount value ∨ (formatIeumAmount value).length < t.length := by
  have hround : ∀ value ≤ u128Max, parseIeumAmount (formatIeumAmount value) = .ok value :=
    fun value hfits => parse_eq_ok.2 ⟨_, _, reads_format hfits⟩
  refine ⟨hround, fun s value hs => ?_⟩
  obtain ⟨whole, fraction, hreads⟩ := parse_eq_ok.1 hs
  refine ⟨hround value hreads.fits, ?_, fun t ht hlead => ?_⟩
  · rw [(reads_format hreads.fits).wholePart_eq]
    exact noLeadingZero_toDigits _
  · obtain ⟨whole', fraction', hreads'⟩ := parse_eq_ok.1 ht
    rw [hreads'.wholePart_eq] at hlead
    exact hreads'.eq_or_shorter hlead

example : formatIeumAmount 1500000000000000000 = "1.5" := by decide

end AmountText

end IeumChain
