import IeumChain.Library.ByteCodec
import Mathlib.Data.List.DropRight
import Mathlib.Tactic.IntervalCases

/-!
# Texts: character classes, fixed affixes and compact JSON

Predicates on texts go through their characters, so that they can be evaluated.
The JSON writers produce the compact form: no blanks, fields in the order given,
and only the mandatory escapes.
-/
namespace Text

open ByteCodec (hexDigit)

def isHexDigit (c : Char) : Bool :=
  ('0' ≤ c ∧ c ≤ '9') ∨ ('a' ≤ c ∧ c ≤ 'f') ∨ ('A' ≤ c ∧ c ≤ 'F')

def isAlphanumeric (c : Char) : Bool :=
  ('0' ≤ c ∧ c ≤ '9') ∨ ('a' ≤ c ∧ c ≤ 'z') ∨ ('A' ≤ c ∧ c ≤ 'Z')

/-- The characters with the Unicode `White_Space` property. -/
def isWhitespace (c : Char) : Bool :=
  let n := c.toNat
  (9 ≤ n ∧ n ≤ 13) ∨ n = 0x20 ∨ n = 0x85 ∨ n = 0xA0 ∨ n = 0x1680 ∨ (0x2000 ≤ n ∧ n ≤ 0x200A) ∨
    n = 0x2028 ∨ n = 0x2029 ∨ n = 0x202F ∨ n = 0x205F ∨ n = 0x3000

def lowerChar (c : Char) : Char :=
  if 'A' ≤ c ∧ c ≤ 'Z' then Char.ofNat (c.toNat + 32) else c

def allChars (p : Char → Bool) (s : String) : Bool := s.toList.all p

/-- A class of characters that contains the hexadecimal digits. -/
theorem allChars_hexEncode {p : Char → Bool} (h : ∀ n < 16, p (hexDigit n) = true)
    (bytes : ByteCodec.Bytes) : allChars p (ByteCodec.hexEncode bytes) = true := by
  rw [allChars, ByteCodec.hexEncode, String.toList_ofList, List.all_eq_true]
  intro c hc
  obtain ⟨n, hn, rfl⟩ := ByteCodec.mem_hexChars hc
  exact h n hn

theorem allChars_append (p : Char → Bool) (s t : String) :
    allChars p (s ++ t) = (allChars p s && allChars p t) := by
  rw [allChars, String.toList_append, List.all_append]
  rfl

/-- Whether nothing is left after trimming white space. -/
def isBlank (s : String) : Bool := allChars isWhitespace s

def startsWith (s start : String) : Bool := start.toList.isPrefixOf s.toList

def stripStart (s start : String) : Option String :=
  if startsWith s start then some (String.ofList (s.toList.drop start.length)) else none

def trim (s : String) : String :=
  String.ofList ((s.toList.dropWhile isWhitespace).rdropWhile isWhitespace)

theorem dropWhile_isWhitespace {l : List Char} (h : l.all (!isWhitespace ·) = true) :
    l.dropWhile isWhitespace = l := by
  rw [List.all_eq_true] at h
  rw [List.dropWhile_eq_self_iff]
  intro hl
  simpa using h _ (List.getElem_mem hl)

theorem rdropWhile_isWhitespace {l : List Char} (h : l.all (!isWhitespace ·) = true) :
    l.rdropWhile isWhitespace = l := by
  rw [List.all_eq_true] at h
  rw [List.rdropWhile_eq_self_iff]
  intro hl
  simpa using h _ (List.getLast_mem hl)

theorem trim_eq_self {s : String} (h : allChars (!isWhitespace ·) s = true) : trim s = s := by
  rw [trim, dropWhile_isWhitespace h, rdropWhile_isWhitespace h, String.ofList_toList]

theorem trim_hexEncode (bytes : ByteCodec.Bytes) :
    trim (ByteCodec.hexEncode bytes) = ByteCodec.hexEncode bytes := by
  have hclass : ∀ n < 16, (!isWhitespace (hexDigit n)) = true := by decide
  exact trim_eq_self (allChars_hexEncode hclass bytes)

/-- Removes a two-character marker from the front as often as it occurs there. -/
def trimPair (a b : Char) : List Char → List Char
  | x :: y :: rest => if x = a ∧ y = b then trimPair a b rest else x :: y :: rest
  | rest => rest

theorem trimPair_of_notMem {a b : Char} {chars : List Char} (h : b ∉ chars) :
    trimPair a b chars = chars := by
  match chars with
  | [] => rfl
  | [_] => rfl
  | x :: y :: rest =>
      have hy : y ≠ b := by
        intro heq
        exact h (by simp [heq])
      simp [trimPair, hy]

theorem trimPair_trimPair (a b : Char) (chars : List Char) :
    trimPair a b (trimPair a b chars) = trimPair a b chars := by
  induction chars using trimPair.induct a b with
  | case1 x y rest h ih => rw [trimPair, if_pos h, ih]
  | case2 x y rest h => rw [trimPair, if_neg h, trimPair, if_neg h]
  | case3 rest h => rw [trimPair.eq_2 a b rest h, trimPair.eq_2 a b rest h]

theorem length_trimPair_le (a b : Char) (chars : List Char) :
    (trimPair a b chars).length ≤ chars.length := by
  induction chars using trimPair.induct a b with
  | case1 x y rest h ih =>
      rw [trimPair, if_pos h, List.length_cons, List.length_cons]
      omega
  | case2 x y rest h => rw [trimPair, if_neg h]
  | case3 rest h => rw [trimPair.eq_2 a b rest h]

theorem not_prefix_of_length_trimPair {a b : Char} {chars : List Char}
    (h : (trimPair a b chars).length = chars.length) : ¬[a, b] <+: chars := by
  rintro ⟨rest, rfl⟩
  have hshort := length_trimPair_le a b rest
  simp only [List.cons_append, List.nil_append, trimPair, and_self, if_true,
    List.length_cons] at h
  omega

theorem trimPair_eq_self_iff {a b : Char} {chars : List Char} :
    trimPair a b chars = chars ↔ ¬[a, b] <+: chars := by
  constructor
  · intro h
    exact not_prefix_of_length_trimPair (congrArg List.length h)
  · intro h
    induction chars using trimPair.induct a b with
    | case1 x y rest hxy ih =>
        rw [hxy.1, hxy.2] at h
        exact absurd (List.prefix_append [a, b] rest) h
    | case2 x y rest hxy => rw [trimPair, if_neg hxy]
    | case3 rest hrest => rw [trimPair.eq_2 a b rest hrest]

theorem hexDigit_ne {n : ℕ} (h : n < 16) : hexDigit n ≠ 't' ∧ hexDigit n ≠ 'x' := by
  interval_cases n <;> decide

theorem stripStart_append (start s : String) : stripStart (start ++ s) start = some s := by
  have hstarts : startsWith (start ++ s) start = true := by
    rw [startsWith, String.toList_append, List.isPrefixOf_iff_prefix]
    exact List.prefix_append _ _
  rw [stripStart, if_pos hstarts, String.toList_append, ← String.length_toList, List.drop_left,
    String.ofList_toList]

def lowercase (s : String) : String := String.ofList (s.toList.map lowerChar)

theorem lowerChar_eq_self_iff {c : Char} : lowerChar c = c ↔ ¬('A' ≤ c ∧ c ≤ 'Z') := by
  unfold lowerChar
  split_ifs with hcapital
  · refine iff_of_false (fun h => ?_) (not_not_intro hcapital)
    have hascii : ∀ n < 91, 65 ≤ n → Char.ofNat (n + 32) ≠ Char.ofNat n := by decide
    have hhigh : c.toNat < 91 := Nat.lt_succ_of_le hcapital.2
    exact hascii c.toNat hhigh hcapital.1 (by rw [h, Char.ofNat_toNat])
  · exact iff_of_true rfl hcapital

theorem map_lowerChar_eq_self_iff {chars : List Char} :
    chars.map lowerChar = chars ↔ ∀ c ∈ chars, ¬('A' ≤ c ∧ c ≤ 'Z') := by
  induction chars with
  | nil => simp
  | cons c rest ih =>
      rw [List.map_cons, List.cons.injEq, lowerChar_eq_self_iff, ih, List.forall_mem_cons]

/-- A hexadecimal digit of either case. -/
theorem lowerChar_of_hexValue {c : Char} {n : ℕ} (h : ByteCodec.hexValue c = some n) :
    n < 16 ∧ lowerChar c = hexDigit n := by
  have hascii : ∀ m < 103, ∀ n ∈ ByteCodec.hexValue (Char.ofNat m), n < 16 ∧
      lowerChar (Char.ofNat m) = hexDigit n := by decide
  have hsmall : c.toNat < 103 := by
    unfold ByteCodec.hexValue at h
    split_ifs at h with hdigit hlower hupper
    · exact Nat.lt_of_le_of_lt hdigit.2 (by decide)
    · exact Nat.lt_of_le_of_lt hlower.2 (by decide)
    · exact Nat.lt_of_le_of_lt hupper.2 (by decide)
  have hc := hascii c.toNat hsmall n
  rw [Char.ofNat_toNat] at hc
  exact hc h

theorem map_lowerChar_of_hexDecodeChars {chars : List Char} {bytes : ByteCodec.Bytes}
    (h : ByteCodec.hexDecodeChars chars = some bytes) :
    chars.map lowerChar = ByteCodec.hexChars bytes := by
  match chars with
  | [] =>
      cases h
      rfl
  | [_] => cases h
  | hi :: lo :: rest =>
      rw [ByteCodec.hexDecodeChars] at h
      split at h
      · next n m tail hhi hlo hrest =>
          cases h
          obtain ⟨hn, hhigh⟩ := lowerChar_of_hexValue hhi
          obtain ⟨hm, hlow⟩ := lowerChar_of_hexValue hlo
          have hlt : 16 * n + m < 256 := by omega
          have hbyte : (UInt8.ofNat (16 * n + m)).toNat = 16 * n + m :=
            UInt8.toNat_ofNat_of_lt' hlt
          have hdiv : (16 * n + m) / 16 = n := by omega
          have hmod : (16 * n + m) % 16 = m := by omega
          rw [ByteCodec.hexChars, List.flatMap_cons, ← ByteCodec.hexChars,
            ← map_lowerChar_of_hexDecodeChars hrest, hbyte, hdiv, hmod, ← hhigh, ← hlow]
          rfl
      · cases h

/-- A text that decodes is the encoding of its bytes up to the case of its letters. -/
theorem lowercase_of_hexDecode {s : String} {bytes : ByteCodec.Bytes}
    (h : ByteCodec.hexDecode s = some bytes) : lowercase s = ByteCodec.hexEncode bytes := by
  rw [lowercase, ByteCodec.hexEncode, map_lowerChar_of_hexDecodeChars h]

/-- Two texts that decode have the same bytes if they differ at most in the case of letters. -/
theorem hexDecode_eq_iff {s t : String} {a b : ByteCodec.Bytes}
    (hs : ByteCodec.hexDecode s = some a) (ht : ByteCodec.hexDecode t = some b) :
    a = b ↔ lowercase s = lowercase t := by
  rw [lowercase_of_hexDecode hs, lowercase_of_hexDecode ht]
  exact ByteCodec.hexEncode_injective.eq_iff.symm

/-- Decimal digits. -/
def decimal (n : ℕ) : String := Nat.repr n

/-- A class of characters that contains the decimal digits. -/
theorem allChars_decimal {p : Char → Bool} (h : ∀ c : Char, c.isDigit = true → p c = true)
    (n : ℕ) : allChars p (decimal n) = true := by
  rw [allChars, decimal, Nat.toList_repr, List.all_eq_true]
  intro c hc
  exact h c (Nat.isDigit_of_mem_toDigits (by decide) (by decide) hc)

/-- Decimal digits take one byte each. -/
theorem utf8ByteSize_decimal_le {n k : ℕ} (hk : 0 < k) (h : n < 10 ^ k) :
    (decimal n).utf8ByteSize ≤ k := by
  rw [decimal, Nat.repr_eq_ofList_toDigits, ByteCodec.utf8ByteSize_ofList]
  · exact (Nat.length_toDigits_le_iff (by decide) hk).2 h
  · intro c hc
    have hdigit := Char.isDigit_iff_toNat.1
      (Nat.isDigit_of_mem_toDigits (by decide) (by decide) hc)
    rw [String.length_utf8EncodeChar, Char.utf8Size_eq_one_iff, UInt32.le_iff_toNat_le]
    exact hdigit.2.trans (by decide)

def joinChars (separator : Char) : List (List Char) → List Char
  | [] => []
  | [item] => item
  | item :: rest => item ++ separator :: joinChars separator rest

/-- A compact JSON text, as characters. -/
abbrev Json := List Char

/-- Quotes, backslashes and control characters are escaped; everything else stands for itself. -/
def escapeChar (c : Char) : List Char :=
  if c = '"' then ['\\', '"']
  else if c = '\\' then ['\\', '\\']
  else if c.toNat = 8 then ['\\', 'b']
  else if c.toNat = 12 then ['\\', 'f']
  else if c = '\n' then ['\\', 'n']
  else if c = '\r' then ['\\', 'r']
  else if c = '\t' then ['\\', 't']
  else if c.toNat < 32 then
    ['\\', 'u', '0', '0', hexDigit (c.toNat / 16), hexDigit (c.toNat % 16)]
  else [c]

def jsonString (s : String) : Json := '"' :: s.toList.flatMap escapeChar ++ ['"']

theorem length_jsonString_le (s : String) : (jsonString s).length ≤ 6 * s.toList.length + 2 := by
  have hchars : ∀ chars : List Char, (chars.flatMap escapeChar).length ≤ 6 * chars.length := by
    intro chars
    induction chars with
    | nil => simp
    | cons c chars ih =>
        have hc : (escapeChar c).length ≤ 6 := by
          unfold escapeChar
          split_ifs <;> simp
        simp only [List.flatMap_cons, List.length_append, List.length_cons]
        omega
  have h := hchars s.toList
  rw [jsonString, List.length_append, List.length_cons, List.length_singleton]
  omega

def jsonNumber (n : ℕ) : Json := (decimal n).toList

/-- A number written as a text of decimal digits. -/
def jsonDecimal (n : ℕ) : Json := jsonString (decimal n)

def jsonBool (b : Bool) : Json := if b then "true".toList else "false".toList

def jsonArray (items : List Json) : Json := '[' :: joinChars ',' items ++ [']']

def jsonObject (fields : List (String × Json)) : Json :=
  '\x7b' :: joinChars ',' (fields.map fun f => jsonString f.1 ++ ':' :: f.2) ++ ['\x7d']

end Text
